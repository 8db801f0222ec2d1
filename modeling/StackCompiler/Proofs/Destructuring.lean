import StackCompiler.Proofs.CallLog
import StackCompiler.Proofs.StoreCode

/-!
Assignments from a call with several results. The first result is the value of the call, and the
others lie in variables that any later call may overwrite. `destructures_reads_results` shows that
code reads each of them before it calls anything but a few functions of the host that it brings
along itself, and that every destination gets its own result.
-/

namespace StackCompiler

open Source CompiledFunction

/-! ### Results on the stack -/

section

variable (R : Runtime) (lit : Constant → R.Value)

/-- Stores what `read` yields; where nothing is stored nothing is read. -/
def Destination.receive (read : Run R R.Value) (σ : Operands R) :
    Destination → Run R (Operands R)
  | blank => return σ
  | d => do
    let τ ← d.locate R lit σ
    let v ← read
    d.deliver v τ

theorem Destination.receive_of_ne_blank {R : Runtime} {lit : Constant → R.Value} {d : Destination}
    (hd : d ≠ .blank) (read : Run R R.Value) (σ : Operands R) :
    d.receive R lit read σ = (do
      let τ ← d.locate R lit σ
      let v ← read
      d.deliver v τ) := by
  cases d with
  | blank => exact absurd rfl hd
  | _ => rfl

/-- Stores results from an index on, each before the next one is read. -/
def receiveAll (read : Nat → Run R R.Value) (index : Nat) (σ : Operands R) :
    List Destination → Run R (Operands R)
  | [] => return σ
  | d :: ds => do
    let σ ← d.receive R lit (read index) σ
    receiveAll read (index + 1) σ ds

end

def World.result {R : Runtime} (w : World R) (index : Nat) : Run R R.Value :=
  match Host.resultVar? index with
  | some var => return w.store.vars var
  | none => throw .stuck

def Run.readResult {R : Runtime} (index : Nat) : Run R R.Value := fun w =>
  w.result index w

theorem stackValue_resultRef {R : Runtime} {lit : Constant → R.Value} (σ : Operands R)
    (index : Nat) : stackValue R lit σ (.resultRef index) = Run.readResult index := by
  funext w
  simp only [stackValue, Run.readResult, World.result]
  cases Host.resultVar? index <;> rfl

/-! ### What spares the results of a call -/

/-- Whether a step of the host leaves the variables alone through which results are passed. -/
def Action.SparesResults {Value Heap α : Type} (x : Action Value Heap α) : Prop :=
  ∀ store, ∀ var ∈ Host.resultVars,
    match x store with
    | .ok _ store' => store'.vars var = store.vars var
    | .error _ store' => store'.vars var = store.vars var

/-- A host whose own operations, and the functions that code brings along, spare the results of the
last call. -/
structure Runtime.SparesResults (R : Runtime) : Prop where
  unary : ∀ i v, Action.SparesResults (R.unary i v)
  binary : ∀ i u v, Action.SparesResults (R.binary i u v)
  concat : ∀ vs, Action.SparesResults (R.concat vs)
  arrayRef : ∀ a i, Action.SparesResults (R.arrayRef a i)
  arraySet : ∀ a i v, Action.SparesResults (R.arraySet a i v)
  introduced : ∀ name ∈ Host.introduced, ∀ args,
    Action.SparesResults (R.call (R.constant (.symbol name)) args)

/-- Only functions that code brings along were called in between, and where all else is `safe` the
results of the last call are as they were. -/
structure Undisturbed {R : Runtime} (safe : Prop) (w w' : World R) : Prop where
  calls : ∃ new, w'.calls = w.calls ++ new ∧
    ∀ c ∈ new, ∃ name ∈ Host.introduced, c.1 = R.constant (.symbol name)
  results : safe → ∀ var ∈ Host.resultVars, w'.store.vars var = w.store.vars var

section

variable {R : Runtime} {α : Type} {safe : Prop}

theorem undisturbed_isTrail (R : Runtime) (safe : Prop) : IsTrail (Undisturbed (R := R) safe) where
  refl w := ⟨⟨[], by simp, by simp⟩, fun _ _ _ => rfl⟩
  trans {w w' w''} h h' := by
    obtain ⟨new, hnew, hintroduced⟩ := h.calls
    obtain ⟨new', hnew', hintroduced'⟩ := h'.calls
    refine ⟨⟨new ++ new', by rw [hnew', hnew, List.append_assoc], ?_⟩, fun hs var hvar => ?_⟩
    · exact List.forall_mem_append.2 ⟨hintroduced, hintroduced'⟩
    · rw [h'.results hs var hvar, h.results hs var hvar]

theorem Run.results_primitive {x : Action R.Value R.Heap α} (hx : x.SparesResults) (w : World R) :
    ∀ var ∈ Host.resultVars, ((Run.primitive x).after w).store.vars var = w.store.vars var := by
  intro var hvar
  have hspares := hx w.store var hvar
  unfold Run.after Run.primitive
  cases hrun : x w.store with
  | ok a store => simpa only [hrun] using hspares
  | error e store => simpa only [hrun] using hspares

namespace Run.Within

theorem primitive {x : Action R.Value R.Heap α} (hx : safe → x.SparesResults) :
    (Run.primitive x).Within (Undisturbed safe) where
  related w :=
    ⟨⟨[], by simp [Run.calls_primitive], by simp⟩, fun hs => Run.results_primitive (hx hs) w⟩
  ends h := Run.ends_primitive h

theorem call (hR : safe → R.SparesResults) {name : String} (hname : name ∈ Host.introduced)
    (args : List R.Value) :
    (Run.call (R.constant (.symbol name)) args).Within (Undisturbed safe) where
  related w := by
    refine ⟨⟨_, Run.calls_call _ args w, ?_⟩, fun hs => ?_⟩
    · simpa using ⟨name, hname, rfl⟩
    · exact Run.results_primitive ((hR hs).introduced name hname args) _
  ends h := Run.ends_primitive h

theorem writeVar {name : String} (hname : safe → name ∉ Host.resultVars) (v : R.Value) :
    (Run.writeVar name v).Within (Undisturbed safe) where
  related w := by
    refine ⟨⟨[], (List.append_nil _).symm, by simp⟩, fun hs var hvar => ?_⟩
    have hne : var ≠ name := fun heq => hname hs (heq ▸ hvar)
    exact if_neg hne
  ends h := by cases h

end Run.Within

/-! ### Code that calls only what it brings along -/

/-- Evaluation of a piece on the stack disturbs nothing. -/
theorem Code.undisturbing {functions : SignatureTable} {p : Piece} {s s' : Assembly}
    (h : Code functions p s s') (hcalls : ∀ g ∈ p.parts, g.CallsIntroduced)
    {lit : Constant → R.Value} (hlit : LoadsExactly lit) (hR : safe → R.SparesResults) :
    p.Within R lit (Undisturbed safe) := by
  have hhost : R.Within (Undisturbed safe) :=
    { unary := fun i v => .primitive fun hs => (hR hs).unary i v
      binary := fun i u v => .primitive fun hs => (hR hs).binary i u v
      concat := fun vs => .primitive fun hs => (hR hs).concat vs
      arrayRef := fun a i => .primitive fun hs => (hR hs).arrayRef a i
      arraySet := fun a i v => .primitive fun hs => (hR hs).arraySet a i v }
  refine h.within (undisturbed_isTrail R safe) hhost fun g hg name args hg' vs => ?_
  rw [hlit _ (by simp)]
  exact .call hR (hcalls g hg name args hg') vs

end

/-! ### The code of further results -/

section

variable {functions : SignatureTable} {F : CompiledFunction} {d : Destination} {s t u v : Assembly}

/-- A result is read by an instruction of its own, between finding its destination and storing it
there. -/
theorem StoreCode.exists_read {index : Nat}
    (h : StoreCode functions F d (.resultRef index) s u v t) :
    ∃ n var, F.chunk.code[u.code.size]? = some (.varRef n) ∧ F.symbol? n = some var ∧
      Host.resultVar? index = some var := by
  cases h.value with
  | resultRef hvar hread =>
      obtain ⟨n, happ, hsymbol⟩ := hread.symbol? h.contains
      exact ⟨n, _, h.contains.fetch happ.code, hsymbol, hvar⟩
  | constant hf _ | application hf _ _ _ _ | unary hf _ _ | shortcut hf _ _ _ _ _ _ => cases hf

theorem StoreCode.follows_receive {index : Nat}
    (h : StoreCode functions F d (.resultRef index) s u v t) (hd : d ≠ .blank) {R : Runtime}
    (σ : Operands R) (w : World R) (hnames : s.slots.names = σ.names) :
    F.Follows ⟨s.code.size, σ.values, w⟩ (d.receive R (F.literal R) (Run.readResult index) σ)
      fun τ => .point t.code.size τ.values := by
  rw [Destination.receive_of_ne_blank hd]
  refine Follows.bind (h.locates σ w hnames) fun τ w' hτ => ?_
  have hnames_u := h.located hnames hτ
  have hread := h.value.simulated h.contains τ w' hnames_u
  rw [stackValue_resultRef] at hread
  exact Follows.bind hread fun x w'' _ => h.delivers τ x w'' hnames_u

theorem StoreCode.names_receive {index : Nat}
    (h : StoreCode functions F d (.resultRef index) s u v t) (hd : d ≠ .blank) {R : Runtime}
    {σ τ : Operands R} {w w' : World R} (hnames : s.slots.names = σ.names)
    (hτ : d.receive R (F.literal R) (Run.readResult index) σ w = .ok τ w') :
    t.slots.names = τ.names := by
  rw [Destination.receive_of_ne_blank hd] at hτ
  obtain ⟨τ', _, hτ', hτ⟩ := bind_eq_ok.1 hτ
  obtain ⟨x, _, -, hτ⟩ := bind_eq_ok.1 hτ
  exact h.delivered (h.located hnames hτ') hτ

/-- One result is stored by its code, or by none at all. -/
theorem Code.receive {index : Nat} (h : Code functions (.forms (d.store (.resultRef index))) s t)
    (hF : F.Contains t) {R : Runtime} (σ : Operands R) (w : World R)
    (hnames : s.slots.names = σ.names) :
    F.Follows ⟨s.code.size, σ.values, w⟩ (d.receive R (F.literal R) (Run.readResult index) σ)
        (fun τ => .point t.code.size τ.values) ∧
      ∀ {τ w'}, d.receive R (F.literal R) (Run.readResult index) σ w = .ok τ w' →
        t.slots.names = τ.names := by
  by_cases hd : d = .blank
  · subst hd
    cases h
    refine ⟨Follows.pure .here, fun hτ => ?_⟩
    cases hτ
    exact hnames
  · obtain ⟨u, v, hstore⟩ := h.exists_storeCode hF rfl hd
    exact ⟨hstore.follows_receive hd σ w hnames, hstore.names_receive hd hnames⟩

/-- The code of further results stores them one by one. -/
theorem Code.receiveAll {index : Nat} {ds : List Destination}
    (h : Code functions (.forms (storesOf (withResults index ds))) s t) (hF : F.Contains t)
    {R : Runtime} (σ : Operands R) (w : World R) (hnames : s.slots.names = σ.names) :
    F.Follows ⟨s.code.size, σ.values, w⟩
      (StackCompiler.receiveAll R (F.literal R) Run.readResult index σ ds)
      fun τ => .point t.code.size τ.values := by
  induction ds generalizing index s σ w with
  | nil =>
      cases h
      exact Follows.pure .here
  | cons d ds ih =>
      obtain ⟨a, hfirst, hrest⟩ := h.split
      obtain ⟨hfollows, hnames_a⟩ := hfirst.receive (hF.of_grows hrest.grows) σ w hnames
      exact Follows.bind hfollows fun τ w' hτ => ih hrest τ w' (hnames_a hτ)

/-- Each result that is stored is read by an instruction. On the way there the results before it are
stored and its destination is found. -/
theorem Code.exists_read {index : Nat} {ds : List Destination}
    (h : Code functions (.forms (storesOf (withResults index ds))) s t) (hF : F.Contains t)
    {j : Nat} (hj : ds[j]? = some d) (hd : d ≠ .blank) :
    (∀ g ∈ d.operands, ∃ a b, Code functions (.value g) a b) ∧
    ∃ read n var, F.chunk.code[read]? = some (.varRef n) ∧ F.symbol? n = some var ∧
      Host.resultVar? (index + j) = some var ∧
      ∀ {R : Runtime} (σ : Operands R) (w : World R), s.slots.names = σ.names →
        F.Follows ⟨s.code.size, σ.values, w⟩ (do
          let τ ← StackCompiler.receiveAll R (F.literal R) Run.readResult index σ (ds.take j)
          d.locate R (F.literal R) τ) fun τ => .point read τ.values := by
  induction ds generalizing index s j with
  | nil => cases hj
  | cons first ds ih =>
      obtain ⟨a, hfirst, hrest⟩ := h.split
      have hF_a := hF.of_grows hrest.grows
      cases j with
      | zero =>
          obtain rfl : first = d := by simpa using hj
          obtain ⟨u, v, hstore⟩ := hfirst.exists_storeCode hF_a rfl hd
          obtain ⟨n, var, hfetch, hsymbol, hvar⟩ := hstore.exists_read
          refine ⟨hstore.operands, u.code.size, n, var, hfetch, hsymbol, hvar, ?_⟩
          intro R σ w hnames
          exact hstore.locates σ w hnames
      | succ j =>
          obtain ⟨hoperands, read, n, var, hfetch, hsymbol, hvar, hfollows⟩ := ih hrest hj
          refine ⟨hoperands, read, n, var, hfetch, hsymbol, ?_, ?_⟩
          · rw [← hvar, Nat.add_right_comm, Nat.add_assoc]
          · intro R σ w hnames
            obtain ⟨hreceive, hnames_a⟩ := hfirst.receive hF_a σ w hnames
            simp only [List.take_succ_cons, StackCompiler.receiveAll, bind_assoc]
            exact Follows.bind hreceive fun τ w' hτ => hfollows τ w' (hnames_a hτ)

end

/-! ### Nothing is disturbed on the way -/

/-- A destination that is found by code which calls only what it brings along, and that is not one
of the variables for results. -/
structure Destination.Spares (functions : SignatureTable) (safe : Prop) (d : Destination) :
    Prop where
  code : ∀ g ∈ d.operands, ∃ a b, Code functions (.value g) a b
  calls : EveryIn Form.CallsIntroduced d.operands
  names : safe → ∀ name, d = .assign name → name ∉ Host.resultVars

section

variable {R : Runtime} {lit : Constant → R.Value} {functions : SignatureTable} {safe : Prop}
  {d : Destination} {ds : List Destination}

theorem length_locate {σ τ : Operands R} {w w' : World R} (h : d.locate R lit σ w = .ok τ w') :
    d.operands.length ≤ τ.length := by
  cases d with
  | element base index =>
      obtain ⟨a, _, -, h⟩ := bind_eq_ok.1 h
      obtain ⟨i, _, -, h⟩ := bind_eq_ok.1 h
      cases h
      simp [Destination.operands]
  | _ => exact Nat.zero_le _

theorem within_locate (hd : d.Spares functions safe) (hlit : LoadsExactly lit)
    (hR : safe → R.SparesResults) (σ : Operands R) :
    (d.locate R lit σ).Within (Undisturbed safe) := by
  have hρ := undisturbed_isTrail R safe
  obtain ⟨hcode, hcalls, -⟩ := hd
  cases d with
  | element base index =>
      simp only [Destination.operands, List.forall_mem_cons, everyIn_cons] at hcode hcalls
      obtain ⟨⟨_, _, hbase⟩, ⟨_, _, hindex⟩, -⟩ := hcode
      refine (hbase.undisturbing hcalls.1 hlit hR σ).bind hρ fun _ => ?_
      exact (hindex.undisturbing hcalls.2.1 hlit hR _).bind hρ fun _ => .pure hρ _
  | _ => exact .pure hρ _

theorem within_deliver (hd : safe → ∀ name, d = .assign name → name ∉ Host.resultVars)
    (hR : safe → R.SparesResults) (v : R.Value) {τ : Operands R}
    (hτ : d.operands.length ≤ τ.length) : (d.deliver v τ).Within (Undisturbed safe) := by
  have hρ := undisturbed_isTrail R safe
  cases d with
  | blank | define _ => exact .pure hρ _
  | assign name =>
      simp only [Destination.deliver]
      cases τ.names.findIdx? (· == some name) with
      | some k => exact .pure hρ _
      | none => exact (Run.Within.writeVar (fun hs => hd hs name rfl) v).bind hρ fun _ => .pure hρ _
  | element base index =>
      obtain _ | ⟨⟨_, i⟩, _ | ⟨⟨_, a⟩, σ⟩⟩ := τ
      · simp [Destination.operands] at hτ
      · simp [Destination.operands] at hτ
      · exact (Run.Within.primitive fun hs => (hR hs).arraySet _ _ _).bind hρ fun _ => .pure hρ _

theorem within_receive {read : Run R R.Value} (hread : read.Within (Undisturbed safe))
    (hd : d.Spares functions safe) (hlit : LoadsExactly lit) (hR : safe → R.SparesResults)
    (hblank : d ≠ .blank) (σ : Operands R) :
    (d.receive R lit read σ).Within (Undisturbed safe) := by
  have hρ := undisturbed_isTrail R safe
  rw [Destination.receive_of_ne_blank hblank]
  refine (within_locate hd hlit hR σ).bind hρ fun hτ => ?_
  exact hread.bind hρ fun _ => within_deliver hd.names hR _ (length_locate hτ)

theorem within_readResult {index : Nat} {var : String} (hvar : Host.resultVar? index = some var) :
    (Run.readResult (R := R) index).Within (Undisturbed safe) := by
  have hread : Run.readResult (R := R) index = Run.readVar var := by
    funext w
    simp only [Run.readResult, World.result, hvar]
    rfl
  rw [hread]
  exact .readVar (undisturbed_isTrail R safe) var

theorem mem_resultVars {index : Nat} {var : String} (hvar : Host.resultVar? index = some var) :
    var ∈ Host.resultVars := by
  cases index with
  | zero => cases hvar
  | succ k => exact List.mem_of_getElem? hvar

theorem readResult_eq {index : Nat} {var : String} (hvar : Host.resultVar? index = some var)
    {w left : World R} (h : w.store.vars var = left.store.vars var) :
    Run.readResult index w = left.result index w := by
  simp only [Run.readResult, World.result, hvar, h]

/-- Whether each of the destinations that is given a result spares the others, and has a result. -/
def SpareFrom (functions : SignatureTable) (safe : Prop) (index : Nat) (ds : List Destination) :
    Prop :=
  ∀ j d, ds[j]? = some d → d ≠ .blank →
    d.Spares functions safe ∧ ∃ var, Host.resultVar? (index + j) = some var

theorem SpareFrom.head {index : Nat} (h : SpareFrom functions safe index (d :: ds))
    (hblank : d ≠ .blank) :
    d.Spares functions safe ∧ ∃ var, Host.resultVar? index = some var :=
  h 0 d rfl hblank

theorem SpareFrom.tail {index : Nat} (h : SpareFrom functions safe index (d :: ds)) :
    SpareFrom functions safe (index + 1) ds := by
  intro j e he hblank
  rw [Nat.add_right_comm]
  exact h (j + 1) e he hblank

theorem SpareFrom.take {index : Nat} (h : SpareFrom functions safe index ds) (k : Nat) :
    SpareFrom functions safe index (ds.take k) := by
  intro j e he hblank
  rw [List.getElem?_take] at he
  split at he
  · exact h j e he hblank
  · cases he

theorem within_receiveAll {index : Nat} (h : SpareFrom functions safe index ds)
    (hlit : LoadsExactly lit) (hR : safe → R.SparesResults) (σ : Operands R) :
    (receiveAll R lit Run.readResult index σ ds).Within (Undisturbed safe) := by
  have hρ := undisturbed_isTrail R safe
  induction ds generalizing index σ with
  | nil => exact .pure hρ _
  | cons d ds ih =>
      by_cases hblank : d = .blank
      · subst hblank
        exact ih h.tail σ
      · obtain ⟨hspares, var, hvar⟩ := h.head hblank
        exact (within_receive (within_readResult hvar) hspares hlit hR hblank σ).bind hρ
          fun _ => ih h.tail _

/-- Where nothing is disturbed, what is read is what a call has left. -/
theorem receiveAll_eq {index : Nat} (h : SpareFrom functions True index ds)
    (hlit : LoadsExactly lit) (hR : R.SparesResults) {left w : World R} (σ : Operands R)
    (hleft : ∀ var ∈ Host.resultVars, w.store.vars var = left.store.vars var) :
    receiveAll R lit Run.readResult index σ ds w = receiveAll R lit left.result index σ ds w := by
  induction ds generalizing index σ w with
  | nil => rfl
  | cons d ds ih =>
      by_cases hblank : d = .blank
      · subst hblank
        exact ih h.tail σ hleft
      · obtain ⟨hspares, var, hvar⟩ := h.head hblank
        have hreceive : d.receive R lit (Run.readResult index) σ w =
            d.receive R lit (left.result index) σ w := by
          rw [Destination.receive_of_ne_blank hblank, Destination.receive_of_ne_blank hblank]
          refine bind_congr_of_ok fun τ w' hτ => ?_
          have hkept := (within_locate hspares hlit (fun _ => hR) σ).related w
          rw [Run.after_of_ok hτ] at hkept
          refine bind_congr_of_eq ?_ fun _ _ _ => rfl
          refine readResult_eq hvar ?_
          have hmem := mem_resultVars hvar
          rw [hkept.results trivial var hmem, hleft var hmem]
        simp only [receiveAll]
        refine bind_congr_of_eq hreceive fun τ w' hτ => ih h.tail τ fun var' hvar' => ?_
        have hkept := (within_receive (within_readResult hvar) hspares hlit (fun _ => hR) hblank
          σ).related w
        rw [Run.after_of_ok (hreceive.trans hτ)] at hkept
        rw [hkept.results trivial var' hvar', hleft var' hvar']

end

/-! ### Results and their destinations -/

/-- Finds the destination of a call's value and evaluates the arguments of the call. -/
def Destination.prepare (R : Runtime) (lit : Constant → R.Value) (name : String)
    (args : List Form) (σ : Operands R) (d : Destination) :
    Run R (Operands R × List R.Value) := do
  let τ ← d.locate R lit σ
  let vs ← stackValues R lit ((none, R.constant (.symbol name)) :: τ) args
  return (τ, vs)

/-- Stores the value of a call into its first destination, which was found before the call, and the
results that `read` yields into the others. -/
def deliverResults (R : Runtime) (lit : Constant → R.Value) (read : Nat → Run R R.Value)
    (first : Destination) (rest : List Destination) (value : R.Value) (τ : Operands R) :
    Run R (Operands R) := do
  let σ ← first.deliver value τ
  receiveAll R lit read 1 σ rest

/-- As `Follows`, and the computation has a meaning: it has a result or ends by an error of the
host. -/
def CompiledFunction.Completes {R : Runtime} {α : Type} (F : CompiledFunction) (m : Machine R)
    (x : Run R α) (goal : α → Goal R.Value) : Prop :=
  F.Follows m x goal ∧ ∀ {e w}, x m.world = .error e w → e = .panic

/-- The machine right behind a call that was made for the first destination, in code that began on a
stack with these names. The call has returned `r`, and `τ` are the operands below. -/
structure BehindCall (functions : SignatureTable) (F : CompiledFunction)
    (names : List (Option String)) (first : Destination) (name : String) (args : List Form)
    (producer : Nat) {R : Runtime} (r : R.Value) (τ : Operands R) (m : Machine R) : Prop where
  never : NeverReturns R functions
  called : ∃ σ w vs w', names = Operands.names σ ∧
    first.prepare R (F.literal R) name args σ w = .ok (τ, vs) w' ∧
    Run.callNamed name vs w' = .ok r m.world
  pc : m.pc = producer + 1
  stack : m.stack = r :: τ.values

structure ReadsResults (functions : SignatureTable) (F : CompiledFunction) (first : Destination)
    (rest : List Destination) (name : String) (args : List Form) (entry producer exit : Nat)
    (names : List (Option String)) : Prop where
  /-- The call is executed with its arguments on the stack. -/
  calls : (∃ n, F.chunk.code[producer]? = some (.call n) ∧ n.toNat = args.length) ∧
    ∀ {R : Runtime} (σ : Operands R) (w : World R), names = σ.names →
      F.Follows ⟨entry, σ.values, w⟩ (first.prepare R (F.literal R) name args σ)
        fun r => .point producer (r.2.reverse ++ R.constant (.symbol name) :: r.1.values)
  /-- Behind the call every destination is given its own result. -/
  stores : ∀ {R : Runtime} {r : R.Value} {τ : Operands R} {m : Machine R},
    BehindCall functions F names first name args producer r τ m →
    F.Completes m (deliverResults R (F.literal R) Run.readResult first rest r τ)
      fun σ => .point exit σ.values
  /-- The results are those that the call has left. -/
  keeps : ∀ {R : Runtime} {r : R.Value} {τ : Operands R} {m : Machine R},
    BehindCall functions F names first name args producer r τ m → R.SparesResults →
    (∀ d ∈ first :: rest, ∀ x, d = .assign x → x ∉ Host.resultVars) →
    F.Completes m (deliverResults R (F.literal R) m.world.result first rest r τ)
      fun σ => .point exit σ.values
  /-- Each result is read by an instruction of its own, before anything is called but functions
  that code brings along. -/
  reads : ∀ k d, rest[k]? = some d → d ≠ .blank →
    ∃ read i var, F.chunk.code[read]? = some (.varRef i) ∧ F.symbol? i = some var ∧
      Host.resultVar? (k + 1) = some var ∧
      ∀ {R : Runtime} {r : R.Value} {τ : Operands R} {m : Machine R},
        BehindCall functions F names first name args producer r τ m →
        F.Completes m (do
          let σ ← deliverResults R (F.literal R) Run.readResult first (rest.take k) r τ
          d.locate R (F.literal R) σ) (fun σ => .point read σ.values) ∧
        ∀ m' n, F.ReachesBefore read m m' → F.chunk.code[m'.pc]? = some (.call n) →
          ∃ helper ∈ Host.introduced, m'.stack[n.toNat]? = some (R.constant (.symbol helper))

section

variable {functions : SignatureTable} {F : CompiledFunction} {s t a u p : Assembly}
  {first d : Destination} {rest : List Destination} {f : Form} {name : String} {args : List Form}
  {n : UInt8} {producer : Nat}

theorem StoresCall.locates (h : StoresCall functions F first f name producer s u a) {R : Runtime}
    (σ : Operands R) (w : World R) (hnames : s.slots.names = σ.names) :
    F.Follows ⟨s.code.size, σ.values, w⟩ (first.locate R (F.literal R) σ)
        (fun τ => .point u.code.size τ.values) ∧
      ∀ {τ w'}, first.locate R (F.literal R) σ w = .ok τ w' → u.slots.names = τ.names := by
  obtain ⟨v, -, hstore⟩ | ⟨rfl, rfl, -⟩ := h
  · exact ⟨hstore.locates σ w hnames, hstore.located hnames⟩
  · refine ⟨Follows.pure .here, fun hτ => ?_⟩
    cases hτ
    exact hnames

/-- Code that finds the destination of a call's value and gets to the call prepares this call. -/
theorem StoresCall.follows_prepare
    (h : StoresCall functions F first f name p.code.size s u a)
    (hcall : CallCode functions F name args u p n) {R : Runtime} (σ : Operands R) (w : World R)
    (hnames : s.slots.names = σ.names) :
    F.Follows ⟨s.code.size, σ.values, w⟩ (first.prepare R (F.literal R) name args σ)
      fun r => .point p.code.size (r.2.reverse ++ R.constant (.symbol name) :: r.1.values) := by
  obtain ⟨b, hload, hargs⟩ := hcall.code
  obtain ⟨hlocates, hlocated⟩ := h.locates σ w hnames
  have hsymbol : F.literal R (.symbol name) = R.constant (.symbol name) :=
    literal_loadsExactly F R _ (by simp)
  refine Follows.bind hlocates fun τ w' hτ => ?_
  have hnames_b : b.slots.names =
      Operands.names ((none, R.constant (.symbol name)) :: τ) := by
    obtain ⟨k, -, happ⟩ := hload
    simp [happ.names, Instr.pops, Instr.pushes, hlocated hτ]
  have hreach := hload.reaches_load (hcall.contains.of_grows hargs.grows) τ.values w'
  rw [hsymbol] at hreach
  refine Follows.after ?_ hreach rfl
  exact Follows.bind (hargs.simulated hcall.contains _ w' hnames_b) fun vs w'' _ =>
    Follows.pure .here

/-- The code behind a call that returned stores the value of the call. -/
theorem BehindCall.delivers {R : Runtime} {r : R.Value} {τ : Operands R} {m : Machine R}
    (h : BehindCall functions F s.slots.names first name args producer r τ m)
    (hcode : StoresCall functions F first f name producer s u a) :
    F.Follows m (first.deliver r τ) (fun σ => .point a.code.size σ.values) ∧
      (∀ {σ w}, first.deliver r τ m.world = .ok σ w → a.slots.names = Operands.names σ) ∧
      first.operands.length ≤ τ.length := by
  obtain ⟨σ, w, vs, w', hnames, hprepare, hcall⟩ := h.called
  obtain ⟨v, hv, hstore⟩ | ⟨-, -, hnever⟩ := hcode
  · obtain ⟨τ', w₁, hτ, hprepare⟩ := bind_eq_ok.1 hprepare
    obtain ⟨vs', w₂, -, hprepare⟩ := bind_eq_ok.1 hprepare
    cases hprepare
    have hnames_u := hstore.located hnames hτ
    refine ⟨?_, hstore.delivered hnames_u, length_locate hτ⟩
    have hm : m = ⟨v.code.size, r :: τ.values, m.world⟩ := by
      rw [hv, ← h.pc, ← h.stack]
    rw [hm]
    exact hstore.delivers τ r m.world hnames_u
  · exact absurd hcall (h.never.callNamed hnever _ _ _ _)

theorem Run.Within.completes {R : Runtime} {α : Type} {ρ : World R → World R → Prop}
    {x : Run R α} (h : x.Within ρ) {m : Machine R} {goal : α → Goal R.Value}
    (hfollows : F.Follows m x goal) : F.Completes m x goal :=
  ⟨hfollows, h.ends⟩

theorem CompiledFunction.Completes.congr {R : Runtime} {α : Type} {m : Machine R} {x y : Run R α}
    {goal : α → Goal R.Value} (h : F.Completes m x goal) (heq : x m.world = y m.world) :
    F.Completes m y goal :=
  ⟨h.1.congr heq, heq ▸ h.2⟩

theorem within_deliverResults {R : Runtime} {lit : Constant → R.Value} {safe : Prop}
    (hfirst : safe → ∀ x, first = .assign x → x ∉ Host.resultVars)
    (hrest : SpareFrom functions safe 1 rest) (hlit : LoadsExactly lit)
    (hR : safe → R.SparesResults) (value : R.Value) {τ : Operands R}
    (hτ : first.operands.length ≤ τ.length) :
    (deliverResults R lit Run.readResult first rest value τ).Within (Undisturbed safe) :=
  (within_deliver hfirst hR value hτ).bind (undisturbed_isTrail R safe) fun _ =>
    within_receiveAll hrest hlit hR _

/-- It does not matter that results are stored before all of them are read. -/
theorem deliverResults_eq {R : Runtime} {lit : Constant → R.Value}
    (hfirst : ∀ x, first = .assign x → x ∉ Host.resultVars)
    (hrest : SpareFrom functions True 1 rest) (hlit : LoadsExactly lit) (hR : R.SparesResults)
    (value : R.Value) {τ : Operands R} (hτ : first.operands.length ≤ τ.length) (w : World R) :
    deliverResults R lit Run.readResult first rest value τ w =
      deliverResults R lit w.result first rest value τ w := by
  refine bind_congr_of_ok fun σ w' hσ => receiveAll_eq hrest hlit hR σ ?_
  have hkept := (within_deliver (fun _ : True => hfirst) (fun _ => hR) value hτ).related w
  rw [Run.after_of_ok hσ] at hkept
  exact hkept.results trivial

/-- The machine calls nothing but what code brings along, on its way to a place where it follows a
computation that disturbs nothing. -/
theorem exists_introduced {R : Runtime} {α : Type} {m m' : Machine R} {x : Run R α} {safe : Prop}
    {pc : Nat} {st : α → List R.Value} (hfollows : F.Follows m x fun a => .point pc (st a))
    (hx : x.Within (Undisturbed safe)) (hpath : F.ReachesBefore pc m m')
    (hcall : F.chunk.code[m'.pc]? = some (.call n)) (hpc : F.chunk.code[pc]? ≠ some (.call n)) :
    ∃ helper ∈ Host.introduced, m'.stack[n.toNat]? = some (R.constant (.symbol helper)) := by
  obtain ⟨new, hnew, hintroduced⟩ := (hx.related m.world).calls
  obtain ⟨callee, vs, hcallee, hmem⟩ :=
    exists_callee_of_follows hfollows hx.ends hpath hcall hpc hnew
  obtain ⟨helper, hhelper, rfl⟩ := hintroduced _ hmem
  exact ⟨helper, hhelper, hcallee⟩

/-- The destinations of further results, as the code and the lowering of an assignment give them. -/
theorem Code.spareFrom (h : Code functions (.forms (storesOf (withResults 1 rest))) s a)
    (hF : F.Contains a) (hcalls : ∀ d ∈ rest, EveryIn Form.CallsIntroduced d.operands) {safe : Prop}
    (hnames : safe → ∀ d ∈ rest, ∀ x, d = .assign x → x ∉ Host.resultVars) :
    SpareFrom functions safe 1 rest := by
  intro j d hj hd
  have hmem := List.mem_of_getElem? hj
  obtain ⟨hoperands, -, -, var, -, -, hvar, -⟩ := h.exists_read hF hj hd
  exact ⟨⟨hoperands, hcalls d hmem, fun hs => hnames hs d hmem⟩, var, hvar⟩

/-- The code that stores the results of a call, where all destinations but the first are found
without a call of the source. -/
theorem Code.readsResults
    (h : Code functions (.forms (storesOf ((first, f) :: withResults 1 rest))) s t)
    (hF : F.Contains t) (happ : f.application? = some (name, args))
    (hcalls : ∀ d ∈ rest, EveryIn Form.CallsIntroduced d.operands) :
    ∃ producer, ReadsResults functions F first rest name args s.code.size producer t.code.size
      s.slots.names := by
  obtain ⟨a, hfirst, hrest⟩ := h.split
  obtain ⟨u, p, n, hcall, hstores⟩ := hfirst.exists_callCode (hF.of_grows hrest.grows) happ
  -- a destination may itself be a variable of results, which only `keeps` rules out
  have hspare : SpareFrom functions False 1 rest := hrest.spareFrom hF hcalls False.elim
  have hlit := literal_loadsExactly F
  have hfollows : ∀ {R : Runtime} {r : R.Value} {τ : Operands R} {m : Machine R},
      BehindCall functions F s.slots.names first name args p.code.size r τ m →
      F.Follows m (deliverResults R (F.literal R) Run.readResult first rest r τ)
        fun σ => .point t.code.size σ.values := by
    intro R r τ m hm
    obtain ⟨hdeliver, hnames, -⟩ := hm.delivers hstores
    exact Follows.bind hdeliver fun σ w hσ => hrest.receiveAll hF σ w (hnames hσ)
  refine ⟨p.code.size, ⟨⟨n, hcall.fetch, hcall.count⟩, hstores.follows_prepare hcall⟩, ?_, ?_, ?_⟩
  · intro R r τ m hm
    obtain ⟨-, -, hlength⟩ := hm.delivers hstores
    exact (within_deliverResults False.elim hspare (hlit R) False.elim r hlength).completes
      (hfollows hm)
  · intro R r τ m hm hR hvars
    obtain ⟨hvar, hvars⟩ := List.forall_mem_cons.1 hvars
    obtain ⟨-, -, hlength⟩ := hm.delivers hstores
    have hspare : SpareFrom functions True 1 rest := hrest.spareFrom hF hcalls fun _ => hvars
    have hwithin := within_deliverResults (fun _ => hvar) hspare (hlit R) (fun _ => hR) r hlength
    exact (hwithin.completes (hfollows hm)).congr
      (deliverResults_eq hvar hspare (hlit R) hR r hlength m.world)
  · intro k d hk hd
    obtain ⟨-, read, i, var, hfetch, hsymbol, hvar, hread⟩ := hrest.exists_read hF hk hd
    refine ⟨read, i, var, hfetch, hsymbol, Nat.add_comm 1 k ▸ hvar, ?_⟩
    intro R r τ m hm
    obtain ⟨hdeliver, hnames, hlength⟩ := hm.delivers hstores
    have hfollows : F.Follows m (do
        let σ ← deliverResults R (F.literal R) Run.readResult first (rest.take k) r τ
        d.locate R (F.literal R) σ) fun σ => .point read σ.values := by
      simp only [deliverResults, bind_assoc]
      exact Follows.bind hdeliver fun σ w hσ => hread σ w (hnames hσ)
    have hwithin : (do
        let σ ← deliverResults R (F.literal R) Run.readResult first (rest.take k) r τ
        d.locate R (F.literal R) σ : Run R _).Within (Undisturbed False) :=
      (within_deliverResults False.elim (hspare.take k) (hlit R) False.elim r hlength).bind
        (undisturbed_isTrail R False) fun _ =>
          within_locate (hspare k d hk hd).1 (hlit R) False.elim _
    refine ⟨hwithin.completes hfollows, fun m' n hpath hcall => ?_⟩
    refine exists_introduced hfollows hwithin hpath hcall ?_
    rw [hfetch]
    simp

end

/-! ### Forms inside a function -/

/-- Forms that stand one after the other in a piece, or in a block inside it. -/
inductive Occurs (fs : List Form) : Piece → Prop where
  | here {gs : List Form} : Occurs fs (.forms (fs ++ gs))
  | later {g : Form} {gs : List Form} (h : Occurs fs (.forms gs)) : Occurs fs (.forms (g :: gs))
  | inside {g : Form} {gs : List Form} (h : Occurs fs (.form g)) : Occurs fs (.forms (g :: gs))
  | block {body : Block} (h : Occurs fs (.forms body)) : Occurs fs (.form (.block body))
  | branch {cond : Form} {body : Block} {els : Option Form} (h : Occurs fs (.forms body)) :
      Occurs fs (.form (.branch cond body els))
  | els {cond other : Form} {body : Block} (h : Occurs fs (.form other)) :
      Occurs fs (.form (.branch cond body (some other)))
  | loop {cond : Form} {body : Block} {post : Option Form} (h : Occurs fs (.forms body)) :
      Occurs fs (.form (.loop cond body post))
  | post {cond f : Form} {body : Block} (h : Occurs fs (.form f)) :
      Occurs fs (.form (.loop cond body (some f)))

theorem Occurs.append {fs gs : List Form} (h : Occurs fs (.forms gs)) (hs : List Form) :
    Occurs fs (.forms (gs ++ hs)) := by
  generalize hp : Piece.forms gs = p at h
  induction h generalizing gs with
  | here =>
      cases hp
      rw [List.append_assoc]
      exact .here
  | later _ ih =>
      cases hp
      exact .later (ih rfl)
  | inside h _ =>
      cases hp
      exact .inside h
  | _ => cases hp

theorem Occurs.withReturn {fs : List Form} {body : Block} (h : Occurs fs (.forms body)) :
    Occurs fs (.forms body.withReturn) := by
  unfold Block.withReturn
  split
  · exact h
  · exact h.append _

/-- They have code of their own there. -/
theorem Occurs.exists_code {functions : SignatureTable} {fs : List Form} {p : Piece}
    (hoccurs : Occurs fs p) {s s' : Assembly} (h : Code functions p s s') :
    ∃ t t', Code functions (.forms fs) t t' ∧ t'.Grows s' := by
  have hstable := Assembly.Grows.stable
  -- on where the forms stand: the code around them that comes later makes the assembly grow
  induction hoccurs generalizing s s' with
  | here =>
      obtain ⟨t, hfs, hgs⟩ := h.split
      exact ⟨s, t, hfs, hgs.grows⟩
  | later _ ih =>
      cases h with
      | formsCons _ hgs => exact ih hgs
  | inside _ ih =>
      cases h with
      | formsCons hg hgs =>
          obtain ⟨t, t', hfs, hgrows⟩ := ih hg
          exact ⟨t, t', hfs, hgrows.trans hgs.grows⟩
  | block _ ih =>
      cases h with
      | block hbody hdrop =>
          obtain ⟨t, t', hfs, hgrows⟩ := ih hbody
          exact ⟨t, t', hfs, hgrows.trans (hstable.drops hdrop)⟩
      | effect hvalue _ => cases hvalue.isStatement
      | jump hf _ _ _ => cases hf
  | branch _ ih =>
      cases h with
      | branch _ _ _ hbody hdrop hplace =>
          obtain ⟨t, t', hfs, hgrows⟩ := ih hbody
          exact ⟨t, t', hfs, hgrows.trans ((hstable.drops hdrop).trans (hstable.places hplace))⟩
      | branchElse _ _ _ _ hbody hdrop hplace hother =>
          obtain ⟨t, t', hfs, hgrows⟩ := ih hbody
          exact ⟨t, t', hfs, hgrows.trans ((hstable.drops hdrop).trans
            ((hstable.places hplace).trans hother.grows))⟩
      | branchJoin _ _ _ hbody hdrop hdone hskip hplace hother hjoin =>
          obtain ⟨t, t', hfs, hgrows⟩ := ih hbody
          exact ⟨t, t', hfs, hgrows.trans ((hstable.drops hdrop).trans
            ((hstable.creates hdone).trans ((hstable.appends hskip).trans
              ((hstable.places hplace).trans (hother.grows.trans (hstable.places hjoin))))))⟩
      | effect hvalue _ => cases hvalue.isStatement
      | jump hf _ _ _ => cases hf
  | els _ ih =>
      cases h with
      | branchElse _ _ _ _ _ _ _ hother => exact ih hother
      | branchJoin _ _ _ _ _ _ _ _ hother hjoin =>
          obtain ⟨t, t', hfs, hgrows⟩ := ih hother
          exact ⟨t, t', hfs, hgrows.trans (hstable.places hjoin)⟩
      | effect hvalue _ => cases hvalue.isStatement
      | jump hf _ _ _ => cases hf
  | loop _ ih =>
      cases h with
      | loop _ _ _ _ hbody hdrop hpost hplace hcond hagain hclose =>
          obtain ⟨t, t', hfs, hgrows⟩ := ih hbody
          exact ⟨t, t', hfs, hgrows.trans ((hstable.drops hdrop).trans (hpost.grows.trans
            ((hstable.places hplace).trans (hcond.grows.trans ((hstable.appends hagain).trans
              (.of_closes hclose))))))⟩
      | effect hvalue _ => cases hvalue.isStatement
      | jump hf _ _ _ => cases hf
  | post _ ih =>
      cases h with
      | loop _ _ _ _ _ _ hpost hplace hcond hagain hclose =>
          have hend := (hstable.places hplace).trans (hcond.grows.trans
            ((hstable.appends hagain).trans (.of_closes hclose)))
          cases hpost with
          | post _ hf | postAt _ _ hf =>
              obtain ⟨t, t', hfs, hgrows⟩ := ih hf
              exact ⟨t, t', hfs, hgrows.trans hend⟩
      | effect hvalue _ => cases hvalue.isStatement
      | jump hf _ _ _ => cases hf

/-- Wherever a function stores the results of a call, each destination is given its own result, and
each result is read before anything is called but functions that code brings along. -/
theorem destructures_reads_results {functions : SignatureTable} {F : CompiledFunction}
    {name : String} {params : List String} {body : Block} {env : Environment}
    {targets : List Target} {call : Expr} {forms : List Form}
    (hcompile : ofBlock functions name params body = .ok F) (hoccurs : Occurs forms (.forms body))
    (hforms : Destructures env targets call forms) (hcall : call.isTransparent = false) :
    ∃ first rest f callee args, destinationsOf env targets = .ok (first :: rest) ∧
      Form.ofExpr env call = .ok f ∧ f.application? = some (callee, args) ∧
      (∃ s t, Code functions (.forms forms) s t ∧ F.Contains t) ∧
      ∀ s t, Code functions (.forms forms) s t → F.Contains t →
        ∃ producer, ReadsResults functions F first rest callee args s.code.size producer
          t.code.size s.slots.names := by
  obtain ⟨hforms, hiscall, htargets⟩ := hforms.destructure
  obtain ⟨first, rest, f, hds, hf, rfl, hcalls⟩ := destructure_ok hforms htargets
  obtain ⟨callee, args, happ⟩ := application?_of_isCall hiscall hcall hf
  obtain ⟨s, hbody, hfinish⟩ := ofBlock_ok hcompile
  obtain ⟨t, t', hcode, hgrows⟩ := hoccurs.withReturn.exists_code hbody
  exact ⟨first, rest, f, callee, args, hds, hf, happ,
    ⟨t, t', hcode, hfinish.contains.of_grows hgrows⟩,
    fun _ _ hcode hF => hcode.readsResults hF happ hcalls⟩

/-- A host that writes down what is stored into arrays, and reads the index back from them.
Functions that code brings along return three, all others ten, and twenty as a second result. -/
def Runtime.ledger : Runtime where
  Value := Constant
  Heap := List (Constant × Constant × Constant)
  constant c := c
  isNil v := v == .symbol Host.nil
  isNil_iff := Constant.beq_nil_iff
  unary _ v := return v
  binary _ u _ := return u
  concat _ := throw ()
  arrayRef _ i := return i
  arraySet a i v := modify fun store => { store with heap := store.heap ++ [(a, i, v)] }
  call
    | .symbol name, _ =>
      if name ∈ Host.introduced then return .int 3
      else do
        modify (·.setVar "Go--ret-2" (.int 20))
        return .int 10
    | _, _ => throw ()

def World.ledger : World Runtime.ledger :=
  ⟨⟨fun _ => .symbol Host.nil, []⟩, []⟩

def World.ledgerCalled : World Runtime.ledger :=
  ⟨World.ledger.store.setVar "Go--ret-2" (Constant.int 20), [(Constant.symbol "f", [])]⟩

theorem sparesResults_ledger : Runtime.ledger.SparesResults where
  unary _ _ _ _ _ := rfl
  binary _ _ _ _ _ _ := rfl
  concat _ _ _ _ := rfl
  arrayRef _ _ _ _ _ := rfl
  arraySet _ _ _ _ _ _ := rfl
  introduced name hname args store var _ := by
    have hcall : Runtime.ledger.call (Runtime.ledger.constant (.symbol name)) args =
        return Constant.int 3 := if_pos hname
    rw [hcall]
    rfl

/-- The targets of `x, a[i|1] = f()`, where a function is called to find the second one. -/
def pairTargets : List Expr :=
  [.ofName "x" .int,
    .ofIndex (.ofName "a" (.slice .int))
      (.ofBinary .bitOr (.ofName "i" .int) (.ofLiteral (.int 1))) .int]

def pairCall : Expr :=
  .call (.intrinsic "Call") [.ofLiteral (.str "f")] (.tuple 2) {}

def pairForms : Block :=
  [.rebind "x" (.call "f" []),
    .set (.var "a") (.op .bitOr .int [.var "i", .int 1]) (.resultRef 1)]

theorem destructures_pairForms :
    ∃ targets, Destructures {} targets pairCall pairForms ∧
      destinationsOf {} targets =
        .ok [.assign "x", .element (.var "a") (.op .bitOr .int [.var "i", .int 1])] := by
  have htargets : targetsOf pairTargets = .ok [.assign "x", .element (.ofName "a" (.slice .int))
      (.ofBinary .bitOr (.ofName "i" .int) (.ofLiteral (.int 1)))] := rfl
  have hforms : assignForms {} pairTargets .assign [pairCall] {} = .ok pairForms := rfl
  exact ⟨_, .assign rfl htargets (by decide) hforms, rfl⟩

def pairOperands : Operands Runtime.ledger :=
  [(some "i", Constant.int 2), (some "a", Constant.symbol "cells"), (some "x", Constant.int 0)]

theorem step_ledger {F : CompiledFunction} {producer : Nat} {n : UInt8}
    (hfetch : F.chunk.code[producer]? = some (.call n)) (hn : n.toNat = 0)
    (st : List Runtime.ledger.Value) :
    F.step ⟨producer, Constant.symbol "f" :: st, World.ledger⟩ =
      .running ⟨producer + 1, Constant.int 10 :: st, World.ledgerCalled⟩ := by
  have hperform : F.perform (.call n) (Constant.symbol "f" :: st) =
      (do let v ← Run.call (Constant.symbol "f") []; return v :: st) :=
    @perform_call _ F st n [] _ hn
  simp only [step, hfetch, hperform]
  rfl

theorem deliverResults_ledger {lit : Constant → Runtime.ledger.Value} (hlit : LoadsExactly lit) :
    ∃ w, deliverResults Runtime.ledger lit World.ledgerCalled.result (.assign "x")
        [.element (.var "a") (.op .bitOr .int [.var "i", .int 1])] (Constant.int 10) pairOperands
        World.ledgerCalled = .ok [(some "i", Constant.int 2), (some "a", Constant.symbol "cells"),
          (some "x", Constant.int 10)] w ∧
      w.store.heap = [(Constant.symbol "cells", Constant.int 3, Constant.int 20)] ∧
      w.calls.map Prod.fst = [Constant.symbol "f", Constant.symbol "logior"] := by
  have hindex : ∀ σ, stackValue Runtime.ledger lit σ (.op .bitOr .int [.var "i", .int 1]) =
      (do let vs ← stackValues Runtime.ledger lit ((none, lit (.symbol "logior")) :: σ)
            [.var "i", .int 1]
          Run.callNamed "logior" vs) := by
    intro σ
    rw [stackValue_application rfl, hlit (.symbol _) (by simp)]
    rfl
  refine ⟨⟨⟨World.ledgerCalled.store.vars,
      [(Constant.symbol "cells", Constant.int 3, Constant.int 20)]⟩,
    [(Constant.symbol "f", []), (Constant.symbol "logior", [Constant.int 2, lit (.int 1)])]⟩,
    ?_, rfl, rfl⟩
  simp only [deliverResults, receiveAll, Destination.receive, Destination.locate, hindex]
  rfl

theorem destructures_reads_results_pairForms :
    ∃ F exit w', ofBlock .empty "g" ["x", "a", "i"] pairForms = .ok F ∧
      F.Reaches ⟨0, pairOperands.values, World.ledger⟩
        ⟨exit, [Constant.int 2, Constant.symbol "cells", Constant.int 10], w'⟩ ∧
      w'.store.heap = [(Constant.symbol "cells", Constant.int 3, Constant.int 20)] ∧
      w'.calls.map Prod.fst = [Constant.symbol "f", Constant.symbol "logior"] := by
  have hok : (ofBlock .empty "g" ["x", "a", "i"] pairForms).isOk = true := by decide +kernel
  cases hcompile : ofBlock .empty "g" ["x", "a", "i"] pairForms with
  | error e =>
      rw [hcompile] at hok
      cases hok
  | ok F =>
      obtain ⟨targets, hforms, htargets⟩ := destructures_pairForms
      have hoccurs : Occurs pairForms (.forms (pairForms ++ [])) := .here
      obtain ⟨first, rest, f, callee, args, hds, hf, happ, -, hreads⟩ :=
        destructures_reads_results hcompile hoccurs hforms rfl
      rw [htargets] at hds
      cases hds
      cases hf
      cases happ
      obtain ⟨s, hbody, hfinish⟩ := ofBlock_ok hcompile
      have hreturn : pairForms.withReturn = pairForms ++ [.ret []] := rfl
      rw [hreturn] at hbody
      obtain ⟨t, hcode, hret⟩ := hbody.split
      obtain ⟨producer, hreads⟩ := hreads _ _ hcode (hfinish.contains.of_grows hret.grows)
      obtain ⟨⟨n, hfetch, hn⟩, happroach⟩ := hreads.calls
      have hbefore := (happroach pairOperands World.ledger rfl).attains rfl
      have hstep := step_ledger hfetch hn pairOperands.values
      have hbehind : BehindCall .empty F [some "i", some "a", some "x"] (.assign "x") "f" []
          producer (R := Runtime.ledger) (Constant.int 10) pairOperands
          ⟨producer + 1, Constant.int 10 :: pairOperands.values, World.ledgerCalled⟩ :=
        ⟨fun _ hnever => (by cases hnever), ⟨pairOperands, World.ledger, [], _, rfl, rfl, rfl⟩,
          rfl, rfl⟩
      have hvars : "x" ∉ Host.resultVars := by decide
      obtain ⟨w', hstores, hheap, hcalls⟩ := deliverResults_ledger (literal_loadsExactly F _)
      have hstored := (hreads.keeps hbehind sparesResults_ledger (by simpa)).1.attains hstores
      exact ⟨F, t.code.size, w', rfl, hbefore.trans (.head hstep hstored), hheap, hcalls⟩

end StackCompiler
