import StackCompiler.Proofs.Machine
import StackCompiler.Proofs.StaticStack

/-!
Code for values at work. From a stack whose slots the static stack names, the code of a form does
what evaluation on the stack says, and it leaves the value of the form on top.
-/

namespace StackCompiler

/-- Only floating point numbers equal other constants. -/
theorem Constant.eq_of_key {c d : Constant} (hc : ∀ x, c ≠ .float x) (h : d.key = c.key) :
    d = c := by
  cases c with
  | float x => exact absurd rfl (hc x)
  | _ => cases d <;> simp_all [key]

/-- The instruction is neither a jump nor a return. -/
def Instr.isPlain : Instr → Bool
  | .ret | .jump _ _ => false
  | _ => true

namespace CompiledFunction

variable {R : Runtime} {F : CompiledFunction}

/-! ### Constants -/

/-- The constant of a function that stands for `c`: one that equals it, which need not be `c`. -/
def resolve (F : CompiledFunction) (c : Constant) : Constant :=
  (F.constants.find? (·.key == c.key)).getD c

def literal (F : CompiledFunction) (R : Runtime) (c : Constant) : R.Value :=
  R.constant (F.resolve c)

theorem resolve_key (F : CompiledFunction) (c : Constant) : (F.resolve c).key = c.key := by
  unfold resolve
  cases hfind : F.constants.find? (·.key == c.key) with
  | none => rfl
  | some d => simpa using Array.find?_some hfind

theorem resolve_of_ne_float {c : Constant} (hc : ∀ x, c ≠ .float x) : F.resolve c = c :=
  Constant.eq_of_key hc (F.resolve_key c)

theorem literal_loadsExactly (F : CompiledFunction) (R : Runtime) : LoadsExactly (F.literal R) :=
  fun c hc => by rw [literal, resolve_of_ne_float hc]

theorem Contains.resolve_eq {s : Assembly} (h : F.Contains s) {i : Nat} {c d : Constant}
    (hd : F.constants[i]? = some d) (hkey : d.key = c.key) : F.resolve c = d := by
  unfold resolve
  cases hfind : F.constants.find? (·.key == c.key) with
  | none =>
      have hnone := Array.find?_eq_none.1 hfind d (Array.mem_of_getElem? hd)
      simp [hkey] at hnone
  | some e =>
      obtain ⟨j, hj⟩ := Array.mem_iff_getElem?.1 (Array.mem_of_find?_eq_some hfind)
      have hekey : e.key = c.key := by simpa using Array.find?_some hfind
      have hij : j = i := h.unique hj hd (hekey.trans hkey.symm)
      rw [hij, hd] at hj
      exact (Option.some.inj hj).symm

/-! ### Single instructions -/

theorem Contains.fetch {s : Assembly} (h : F.Contains s) {code : Array Instr} {i : Instr}
    (hcode : s.code = code.push i) : F.chunk.code[code.size]? = some i := by
  obtain ⟨rest, hrest⟩ := h.code
  rw [← Array.getElem?_toList, ← hrest, hcode]
  simp

/-- The step of an instruction that is neither a jump nor a return. -/
theorem step_of_isPlain {m : Machine R} {i : Instr} (hfetch : F.chunk.code[m.pc]? = some i)
    (hplain : i.isPlain = true) :
    F.step m =
      match F.perform i m.stack m.world with
      | .ok st w => .running ⟨m.pc + 1, st, w⟩
      | .error .panic w => .raised w
      | .error _ _ => .stuck := by
  simp only [step, hfetch]
  cases i with
  | ret => cases hplain
  | jump kind l => cases hplain
  | _ => rfl

theorem follows_perform {pc : Nat} {i : Instr} (hfetch : F.chunk.code[pc]? = some i)
    (hplain : i.isPlain = true) (st : List R.Value) (w : World R) :
    F.Follows ⟨pc, st, w⟩ (F.perform i st) fun st' => .point (pc + 1) st' := by
  have hstep := step_of_isPlain (m := ⟨pc, st, w⟩) hfetch hplain
  unfold Follows
  cases hperform : F.perform i st w with
  | ok st' w' =>
      rw [hperform] at hstep
      exact .single hstep
  | error e w' =>
      rw [hperform] at hstep
      cases e with
      | panic => exact ⟨_, .refl, hstep⟩
      | stuck => trivial
      | timeout => trivial

theorem Follows.of_map {α : Type} {m : Machine R} {x : Run R α} {g : α → List R.Value}
    {goal : List R.Value → Goal R.Value} (h : F.Follows m (do let a ← x; return g a) goal) :
    F.Follows m x fun a => goal (g a) := by
  unfold Follows at h ⊢
  cases hx : x m.world with
  | ok a w =>
      rw [bind_of_ok hx] at h
      exact h
  | error e w =>
      rw [bind_of_error hx] at h
      cases e with
      | panic => exact h
      | stuck => trivial
      | timeout => trivial

end CompiledFunction

section Instructions

variable {R : Runtime} {F : CompiledFunction} {s s' : Assembly} {i : Instr} {st : List R.Value}
  {w : World R}

theorem Appends.size (h : Appends i s s') : s'.code.size = s.code.size + 1 := by
  simp [h.code]

/-- An instruction that does what `x` does and then puts its result on the stack. -/
theorem Appends.follows {α : Type} {x : Run R α} {g : α → List R.Value} (h : Appends i s s')
    (hF : F.Contains s') (hplain : i.isPlain = true)
    (hperform : F.perform i st = (do let a ← x; return g a)) :
    F.Follows ⟨s.code.size, st, w⟩ x fun a => .point s'.code.size (g a) := by
  have hfollows := CompiledFunction.follows_perform (hF.fetch h.code) hplain st w
  rw [hperform, ← h.size] at hfollows
  exact hfollows.of_map

/-- An instruction without effect on the world. -/
theorem Appends.reaches {st' : List R.Value} (h : Appends i s s') (hF : F.Contains s')
    (hplain : i.isPlain = true) (hperform : F.perform i st = pure st') :
    F.Reaches ⟨s.code.size, st, w⟩ ⟨s'.code.size, st', w⟩ := by
  have hfollows := CompiledFunction.follows_perform (hF.fetch h.code) hplain st w
  rw [hperform, ← h.size] at hfollows
  exact hfollows

/-- A jump to a label that has its place. -/
theorem Appends.reaches_jump {kind : JumpKind} {l : Label} {st' : List R.Value} {p : Nat}
    {taken : Bool} (h : Appends (.jump kind l) s s') (hF : F.Contains s')
    (hplace : F.chunk.labelPosition? l = some p)
    (hdecide : CompiledFunction.decideJump kind st = some (taken, st')) :
    F.Reaches ⟨s.code.size, st, w⟩ ⟨if taken then p else s'.code.size, st', w⟩ := by
  rw [h.size]
  exact .single (by simp only [CompiledFunction.step, hF.fetch h.code, hplace, hdecide])

/-- The operand of an instruction that refers to a constant. -/
theorem AppendsIndexed.entry {i : UInt16 → Instr} {c : Constant} (h : AppendsIndexed i c s s')
    (hF : F.Contains s') :
    ∃ n : UInt16, Appends (i n) { s with pool := (s.pool.add c).2 } s' ∧
      F.constants[n.toNat]? = some (F.resolve c) := by
  obtain ⟨n, hn, happ⟩ := h
  obtain ⟨d, hd, hkey⟩ := (s.pool.add_spec c).1
  have hentry : F.constants[n.toNat]? = some d := by
    obtain ⟨rest, hrest⟩ := hF.pool
    rw [happ.pool] at hrest
    rw [← Array.getElem?_toList] at hd ⊢
    rw [← hrest, hn, List.getElem?_append_left (List.getElem?_eq_some_iff.1 hd).1, hd]
  exact ⟨n, happ, by rw [hentry, hF.resolve_eq hentry hkey]⟩

theorem AppendsIndexed.reaches_load {c : Constant} (h : AppendsIndexed .constRef c s s')
    (hF : F.Contains s') (st : List R.Value) (w : World R) :
    F.Reaches ⟨s.code.size, st, w⟩ ⟨s'.code.size, F.literal R c :: st, w⟩ := by
  obtain ⟨n, happ, hentry⟩ := h.entry hF
  refine happ.reaches hF rfl ?_
  rw [CompiledFunction.perform_constRef hentry, CompiledFunction.literal]

theorem AppendsIndexed.symbol? {i : UInt16 → Instr} {name : String}
    (h : AppendsIndexed i (.symbol name) s s') (hF : F.Contains s') :
    ∃ n : UInt16, Appends (i n) { s with pool := (s.pool.add (.symbol name)).2 } s' ∧
      F.symbol? n = some name := by
  obtain ⟨n, happ, hentry⟩ := h.entry hF
  rw [CompiledFunction.resolve_of_ne_float (by simp)] at hentry
  exact ⟨n, happ, by simp only [CompiledFunction.symbol?, hentry]⟩

theorem AppendsIndexed.follows_read {name : String} (h : AppendsIndexed .varRef (.symbol name) s s')
    (hF : F.Contains s') :
    F.Follows ⟨s.code.size, st, w⟩ (Run.readVar name) fun v => .point s'.code.size (v :: st) := by
  obtain ⟨n, happ, hsymbol⟩ := h.symbol? hF
  exact happ.follows hF rfl (CompiledFunction.perform_varRef hsymbol)

theorem AppendsIndexed.follows_write {name : String} {v : R.Value}
    (h : AppendsIndexed .varSet (.symbol name) s s') (hF : F.Contains s') :
    F.Follows ⟨s.code.size, v :: st, w⟩ (Run.writeVar name v) fun _ => .point s'.code.size st := by
  obtain ⟨n, happ, hsymbol⟩ := h.symbol? hF
  exact happ.follows hF rfl (CompiledFunction.perform_varSet hsymbol v)

end Instructions

/-! ### Evaluation by shape -/

section Shapes

variable {R : Runtime} {lit : Constant → R.Value} {f arg left right : Form} {c : Constant}
  {name : String} {args : List Form} {i : UnaryInstr} {kind : JumpKind}

theorem stackValue_constant (h : f.constant? = some c) (σ : Operands R) :
    stackValue R lit σ f = pure (lit c) := by
  cases f with
  | bool _ | char _ | int _ | float _ | str _ | symbol _ =>
      cases h
      rfl
  | _ => cases h

theorem stackValue_application (h : f.application? = some (name, args)) (σ : Operands R) :
    stackValue R lit σ f = (do
      let vs ← stackValues R lit ((none, lit (.symbol name)) :: σ) args
      Run.call (lit (.symbol name)) vs) := by
  cases f with
  | op kind family args' =>
      simp only [Form.application?] at h
      split at h
      · rename_i host hplan
        cases h
        rw [OpKind.plan?_eq_operation?] at hplan
        simp only [stackValue, hplan]
      · cases h
  | unary kind family arg =>
      cases kind <;> cases family <;> cases h
      simp [stackValue, stackValues]
  | array _ | copy _ | call _ _ | dynCall _ _ =>
      cases h
      simp [stackValue, stackValues]
  | _ => cases h

theorem stackValue_unary (h : f.unary? = some (i, arg)) (σ : Operands R) :
    stackValue R lit σ f = (do
      let v ← stackValue R lit σ arg
      Run.primitive (R.unary i v)) := by
  cases f with
  | unary kind family arg' => cases kind <;> cases family <;> cases h <;> rfl
  | not _ =>
      cases h
      rfl
  | _ => cases h

/-- The first operand decides whether it is the value of the whole, and the jump goes by it. -/
theorem stackValue_shortcut (R : Runtime) (lit : Constant → R.Value)
    (h : f.shortcut? = some (kind, left, right)) :
    ∃ skips : R.Value → Bool,
      (∀ v st, CompiledFunction.decideJump kind (v :: st) =
        some (if skips v then (true, v :: st) else (false, st))) ∧
      ∀ σ, stackValue R lit σ f = (do
        let v ← stackValue R lit σ left
        if skips v then return v else stackValue R lit σ right) := by
  cases f with
  | and _ _ =>
      cases h
      exact ⟨R.isNil, fun _ _ => rfl, fun _ => rfl⟩
  | or _ _ =>
      cases h
      refine ⟨fun v => !R.isNil v, fun v st => ?_, fun σ => ?_⟩
      · cases hv : R.isNil v <;> simp [CompiledFunction.decideJump, hv]
      · simp only [stackValue]
        congr
        funext v
        by_cases hv : R.isNil v = true <;> simp [hv]
  | _ => cases h

structure Evaluated (R : Runtime) where
  value : R.Value
  before : World R
  after : World R

/-- Results are stored as they are evaluated, with the first one below them. -/
def stackResults (R : Runtime) (lit : Constant → R.Value) (σ : Operands R) :
    List String → List Form → Run R (List (Evaluated R))
  | _, [] => return []
  | [], _ :: _ => throw .stuck
  | var :: vars, f :: fs => do
    let before ← get
    let value ← stackValue R lit σ f
    let after ← get
    Run.writeVar var value
    let rest ← stackResults R lit σ vars fs
    return { value, before, after } :: rest

theorem Operands.lookup_of_findIdx? {σ : Operands R} {k : Nat}
    (h : σ.names.findIdx? (· == some name) = some k) :
    ∃ v, σ.values[k]? = some v ∧ σ.lookup (some name) = some v := by
  induction σ generalizing k with
  | nil => simp [Operands.names] at h
  | cons top σ ih =>
      obtain ⟨slot, v⟩ := top
      rw [Operands.names_cons, List.findIdx?_cons] at h
      by_cases hslot : slot = some name
      · simp only [hslot, beq_self_eq_true, if_true, Option.some.injEq] at h
        subst h
        exact ⟨v, rfl, by simp [hslot]⟩
      · have hne : (slot == some name) = false := by simpa using hslot
        have hne' : (some name == slot) = false := by simpa using Ne.symm hslot
        simp only [hne, Bool.false_eq_true, if_false, Option.map_eq_some_iff] at h
        obtain ⟨j, hj, rfl⟩ := h
        obtain ⟨u, hu, hlookup⟩ := ih hj
        exact ⟨u, by simpa using hu, by simpa [List.lookup_cons, hne'] using hlookup⟩

theorem Operands.lookup_of_findIdx?_eq_none {σ : Operands R}
    (h : σ.names.findIdx? (· == some name) = none) : σ.lookup (some name) = none := by
  induction σ with
  | nil => rfl
  | cons top σ ih =>
      obtain ⟨slot, v⟩ := top
      rw [Operands.names_cons, List.findIdx?_cons] at h
      by_cases hslot : slot = some name
      · simp [hslot] at h
      · have hne : (slot == some name) = false := by simpa using hslot
        have hne' : (some name == slot) = false := by simpa using Ne.symm hslot
        simp only [hne, Bool.false_eq_true, if_false, Option.map_eq_none_iff] at h
        simpa [List.lookup_cons, hne'] using ih h

theorem stackValues_length {fs : List Form} {σ : Operands R} {vs : List R.Value} {w w' : World R}
    (h : stackValues R lit σ fs w = .ok vs w') : vs.length = fs.length := by
  induction fs generalizing σ vs w with
  | nil =>
      cases h
      rfl
  | cons f fs ih =>
      simp only [stackValues] at h
      obtain ⟨v, w₁, -, h⟩ := bind_eq_ok.1 h
      obtain ⟨us, w₂, hus, h⟩ := bind_eq_ok.1 h
      cases h
      simp [ih hus]

end Shapes

/-! ### Code for values -/

/-- What the code of operands has to do, with the values below it on the stack. -/
def Piece.Simulated (F : CompiledFunction) (R : Runtime) : Piece → Assembly → Assembly → Prop
  | .value f, s, s' => ∀ (σ : Operands R) (w : World R), s.slots.names = σ.names →
      F.Follows ⟨s.code.size, σ.values, w⟩ (stackValue R (F.literal R) σ f)
        fun v => .point s'.code.size (v :: σ.values)
  | .values fs, s, s' => ∀ (σ : Operands R) (w : World R), s.slots.names = σ.names →
      F.Follows ⟨s.code.size, σ.values, w⟩ (stackValues R (F.literal R) σ fs)
        fun vs => .point s'.code.size (vs.reverse ++ σ.values)
  | .chain i fs, s, s' => ∀ (σ : Operands R) (slot : Option String) (left : R.Value) (w : World R),
      s.slots.names = slot :: σ.names →
      F.Follows ⟨s.code.size, left :: σ.values, w⟩
        (stackChainRest R (F.literal R) σ i slot left fs)
        fun v => .point s'.code.size (v :: σ.values)
  | .stores elems, s, s' => ∀ (σ : Operands R) (slot : Option String) (a : R.Value) (w : World R),
      s.slots.names = slot :: σ.names →
      F.Follows ⟨s.code.size, a :: σ.values, w⟩ (stackStores R (F.literal R) σ slot a elems)
        fun _ => .point s'.code.size (a :: σ.values)
  | .results vars fs, s, s' => ∀ (σ : Operands R) (w : World R), s.slots.names = σ.names →
      F.Follows ⟨s.code.size, σ.values, w⟩ (stackResults R (F.literal R) σ vars fs)
        fun _ => .point s'.code.size σ.values
  | .form _, _, _ | .forms _, _, _ | .post _, _, _ => True

section Simulation

open CompiledFunction

variable {R : Runtime} {F : CompiledFunction} {functions : SignatureTable}

theorem Relabels.contains {name : Option String} {s s' : Assembly} (h : Relabels name s s')
    (hF : F.Contains s') : F.Contains s :=
  hF.of_grows (Assembly.Grows.stable.relabels h)

theorem Relabels.code {name : Option String} {s s' : Assembly} (h : Relabels name s s') :
    s'.code = s.code := by
  obtain ⟨slots, old, rest, rfl, -⟩ := h
  rfl

theorem Appends.contains {i : Instr} {s s' : Assembly} (h : Appends i s s')
    (hF : F.Contains s') : F.Contains s :=
  hF.of_grows (Assembly.Grows.stable.appends h)

theorem Places.position {l : Label} {s s' : Assembly} (h : Places l s s') (hF : F.Contains s') :
    F.chunk.labelPosition? l = some s.code.size := by
  obtain ⟨labels, rfl, -, -, hplaces, -⟩ := h
  exact hF.places l _ (by rw [hplaces, if_pos rfl])

theorem Places.code {l : Label} {s s' : Assembly} (h : Places l s s') : s'.code = s.code := by
  obtain ⟨labels, rfl, -⟩ := h
  rfl

theorem Places.contains {l : Label} {s s' : Assembly} (h : Places l s s') (hF : F.Contains s') :
    F.Contains s :=
  hF.of_grows (.of_places h)

theorem Creates.code {l : Label} {s s' : Assembly} (h : Creates l s s') : s'.code = s.code := by
  obtain ⟨name, -, rfl⟩ := h
  rfl

theorem Creates.contains {l : Label} {s s' : Assembly} (h : Creates l s s') (hF : F.Contains s') :
    F.Contains s :=
  hF.of_grows (.of_creates h)

/-- An operand that may be left out. The label stands right behind its code, so that both ways end
there with one value more. -/
theorem simulated_shortcut {f left right : Form} {kind : JumpKind} {l : Label}
    {s a b c d e s' : Assembly} (hf : f.shortcut? = some (kind, left, right))
    (hlabel : Creates l s a) (hleft : Code functions (.value left) a b)
    (hjump : Appends (.jump kind l) b c) (hright : Code functions (.value right) c d)
    (hplace : Places l d e) (hname : Relabels none e s') (hF : F.Contains s')
    (hleftSimulated : (Piece.value left).Simulated F R a b)
    (hrightSimulated : (Piece.value right).Simulated F R c d) :
    (Piece.value f).Simulated F R s s' := by
  intro σ w hnames
  obtain ⟨skips, hdecide, hvalue⟩ := stackValue_shortcut R (F.literal R) hf
  have hFe := hname.contains hF
  have hFc := (hplace.contains hFe).of_grows hright.grows
  have hpops : (Instr.jump kind l).pops = 1 := by cases f <;> cases hf <;> rfl
  have hnames_c : c.slots.names = σ.names := by
    rw [hjump.names_of_jump hleft hpops, hlabel.slots, hnames]
  have hend : s'.code.size = d.code.size := by rw [hname.code, hplace.code]
  rw [hvalue, ← hlabel.code, hend]
  refine Follows.bind (hleftSimulated σ w (by rw [hlabel.slots, hnames])) fun v w' _ => ?_
  by_cases hv : skips v = true
  · have hdecided : decideJump kind (v :: σ.values) = some (true, v :: σ.values) := by
      rw [hdecide, if_pos hv]
    simp only [hv, if_true]
    exact Follows.pure (hjump.reaches_jump hFc (hplace.position hFe) hdecided)
  · have hdecided : decideJump kind (v :: σ.values) = some (false, σ.values) := by
      rw [hdecide, if_neg hv]
    simp only [hv, Bool.false_eq_true, if_false]
    exact (hrightSimulated σ w' hnames_c).after
      (hjump.reaches_jump hFc (hplace.position hFe) hdecided) rfl

/-- The store of an element, which uses up a copy of the array, and then the others. -/
theorem simulated_storesCons {index : Int64} {f : Form} {rest : List (Int64 × Form)}
    {s a b c d s' : Assembly} (hcopy : Appends (.stackRef 0) s a)
    (hindex : AppendsIndexed .constRef (.int index) a b) (hf : Code functions (.value f) b c)
    (hset : Appends .arraySet c d) (hFd : F.Contains d)
    (hsimulated : (Piece.value f).Simulated F R b c)
    (hrestSimulated : (Piece.stores rest).Simulated F R d s') :
    (Piece.stores ((index, f) :: rest)).Simulated F R s s' := by
  intro σ slot array w hnames
  have hFb := (hset.contains hFd).of_grows hf.grows
  obtain ⟨k, hentry, -⟩ := hindex.entry hFb
  have hnames_b : b.slots.names =
      Operands.names ((none, F.literal R (.int index)) :: (none, array) ::
        (slot, array) :: σ) := by
    rw [hentry.names, hcopy.names, hnames]
    rfl
  have hnames_d : d.slots.names = slot :: σ.names := by
    rw [hset.names, hf.names_of_isOperand rfl, hnames_b]
    rfl
  have hcopied : F.Reaches ⟨s.code.size, array :: σ.values, w⟩
      ⟨a.code.size, array :: array :: σ.values, w⟩ :=
    hcopy.reaches (hFb.of_grows (Assembly.Grows.stable.indexed (by simp) hindex)) rfl rfl
  simp only [stackStores]
  refine Follows.after ?_ (hcopied.trans (hindex.reaches_load hFb _ _)) rfl
  refine Follows.bind (hsimulated _ w hnames_b) fun v w' _ => ?_
  refine Follows.bind (hset.follows hFd rfl rfl) fun _ w'' _ => ?_
  exact hrestSimulated σ slot array w'' hnames_d

/-- A further result is stored, and the worlds before and after its evaluation are noted. -/
theorem simulated_resultsCons {var : String} {vars : List String} {f : Form} {fs : List Form}
    {s t u s' : Assembly} (hf : Code functions (.value f) s t)
    (hset : AppendsIndexed .varSet (.symbol var) t u) (hFu : F.Contains u)
    (hsimulated : (Piece.value f).Simulated F R s t)
    (hrestSimulated : (Piece.results vars fs).Simulated F R u s') :
    (Piece.results (var :: vars) (f :: fs)).Simulated F R s s' := by
  intro σ w hnames
  have hnames_u : u.slots.names = σ.names := by
    obtain ⟨k, -, happ⟩ := hset
    rw [happ.names, hf.names_of_isOperand rfl, hnames]
    rfl
  simp only [stackResults]
  refine Follows.bind (Follows.get _) fun before w₀ hget => ?_
  cases hget
  refine Follows.bind (hsimulated σ w hnames) fun v w' _ => ?_
  refine Follows.bind (Follows.get _) fun after w₁ hget => ?_
  cases hget
  refine Follows.bind (hset.follows_write hFu) fun _ w'' _ => ?_
  exact Follows.bind (hrestSimulated σ w'' hnames_u) fun es w₂ _ => Follows.pure .here

/-- Code for values does what evaluation on the stack says. -/
theorem Code.simulated {p : Piece} {s s' : Assembly} (h : Code functions p s s')
    (hF : F.Contains s') : p.Simulated F R s s' := by
  induction h with
  | constant hf hload =>
      intro σ w _
      rw [stackValue_constant hf]
      exact Follows.pure (hload.reaches_load hF _ _)
  | slot hfind hread hname =>
      rename_i name n s t s'
      intro σ w hnames
      rw [Slots.find?, hnames] at hfind
      obtain ⟨v, hv, hlookup⟩ := Operands.lookup_of_findIdx? hfind
      simp only [stackValue, hlookup]
      refine Follows.pure ?_
      rw [hname.code]
      exact hread.reaches (hname.contains hF) rfl (perform_stackRef hv)
  | dynamic hfind hread hname =>
      rename_i name s t s'
      intro σ w hnames
      rw [Slots.find?, hnames] at hfind
      have hlookup := Operands.lookup_of_findIdx?_eq_none hfind
      simp only [stackValue, hlookup]
      rw [hname.code]
      exact hread.follows_read (hname.contains hF)
  | resultRef hvar hread =>
      intro σ w _
      simp only [stackValue, hvar]
      exact hread.follows_read hF
  | application hf hload hargs hn hcall ih =>
      rename_i f name args n s t u s'
      intro σ w hnames
      have hFu := hcall.contains hF
      have hFt := hFu.of_grows hargs.grows
      rw [stackValue_application hf]
      have hnames' : t.slots.names = Operands.names ((none, F.literal R (.symbol name)) :: σ) := by
        obtain ⟨k, -, happ⟩ := hload
        simp [happ.names, Instr.pops, Instr.pushes, hnames]
      refine Follows.after (Follows.bind (ih hFu _ w hnames') fun vs w' hvs => ?_)
        (hload.reaches_load hFt _ _) rfl
      exact hcall.follows hF rfl (perform_call (hn.trans (stackValues_length hvs).symm))
  | sparseArray hctor hstores ihctor ihstores =>
      rename_i ctor stores s t s'
      intro σ w hnames
      have hnames' := hctor.names_of_isOperand rfl
      rw [hnames] at hnames'
      simp only [stackValue]
      refine Follows.bind (ihctor (hF.of_grows hstores.grows) σ w hnames) fun a w' _ => ?_
      exact Follows.bind (ihstores hF σ ctor.slotName a w' hnames')
        fun _ w'' _ => Follows.pure .here
  | get hsource hindex hget ihsource ihindex =>
      rename_i source index s t u s'
      intro σ w hnames
      have hFu := hget.contains hF
      have hnames' := hsource.names_of_isOperand rfl
      rw [hnames] at hnames'
      simp only [stackValue]
      refine Follows.bind (ihsource (hFu.of_grows hindex.grows) σ w hnames) fun a w' _ => ?_
      refine Follows.bind (ihindex hFu ((source.slotName, a) :: σ) w' hnames') fun i w'' _ => ?_
      exact hget.follows hF rfl rfl
  | concat hplan hargs hn hconcat ih =>
      intro σ w hnames
      rw [OpKind.plan?_eq_operation?] at hplan
      simp only [stackValue, hplan]
      refine Follows.bind (ih (hconcat.contains hF) σ w hnames) fun vs w' hvs => ?_
      exact hconcat.follows hF rfl (perform_concat (hn.trans (stackValues_length hvs).symm))
  | fold hplan _ hfirst hchain ihfirst ihchain =>
      rename_i first rest s t s' _
      intro σ w hnames
      have hnames' := hfirst.names_of_isOperand rfl
      rw [hnames] at hnames'
      rw [OpKind.plan?_eq_operation?] at hplan
      simp only [stackValue, hplan, stackChain]
      refine Follows.bind (ihfirst (hF.of_grows hchain.grows) σ w hnames) fun v w' _ => ?_
      exact ihchain hF σ first.slotName v w' hnames'
  | foldNot hplan _ hfirst hchain hnot ihfirst ihchain =>
      rename_i first rest s t u s' _
      intro σ w hnames
      have hFu := hnot.contains hF
      have hnames' := hfirst.names_of_isOperand rfl
      rw [hnames] at hnames'
      rw [OpKind.plan?_eq_operation?] at hplan
      simp only [stackValue, hplan, stackChain, bind_assoc]
      refine Follows.bind (ihfirst (hFu.of_grows hchain.grows) σ w hnames) fun v w' _ => ?_
      refine Follows.bind (ihchain hFu σ first.slotName v w' hnames') fun v' w'' _ => ?_
      exact hnot.follows hF rfl rfl
  | unary hf harg hinstr ih =>
      intro σ w hnames
      rw [stackValue_unary hf]
      refine Follows.bind (ih (hinstr.contains hF) σ w hnames) fun v w' _ => ?_
      exact hinstr.follows hF rfl rfl
  | shortcut hf hlabel hleft hjump hright hplace hname ihleft ihright =>
      have hFd := hplace.contains (hname.contains hF)
      exact simulated_shortcut hf hlabel hleft hjump hright hplace hname hF
        (ihleft (hjump.contains (hFd.of_grows hright.grows))) (ihright hFd)
  | noValues => exact fun σ w _ => Follows.pure .here
  | valuesCons hf hfs ihf ihfs =>
      rename_i f fs s t s'
      intro σ w hnames
      have hnames' := hf.names_of_isOperand rfl
      rw [hnames] at hnames'
      simp only [stackValues]
      refine Follows.bind (ihf (hF.of_grows hfs.grows) σ w hnames) fun v w' _ => ?_
      refine Follows.bind (ihfs hF ((f.slotName, v) :: σ) w' hnames') fun vs w'' _ => ?_
      refine Follows.pure ?_
      rw [List.reverse_cons, List.append_assoc]
      exact .here
  | noChain => exact fun σ slot left w _ => Follows.pure .here
  | chainCons hf hinstr hfs ihf ihfs =>
      rename_i f fs s t u s'
      intro σ slot left w hnames
      have hFu := hF.of_grows hfs.grows
      have hnames_u : u.slots.names = none :: σ.names := by
        rw [hinstr.names, hf.names_of_isOperand rfl, hnames]
        rfl
      simp only [stackChainRest]
      refine Follows.bind (ihf (hinstr.contains hFu) ((slot, left) :: σ) w hnames)
        fun right w' _ => ?_
      refine Follows.bind (hinstr.follows hFu rfl rfl) fun v w'' _ => ?_
      exact ihfs hF σ none v w'' hnames_u
  | noStores => exact fun σ slot a w _ => Follows.pure .here
  | storesCons hcopy hindex hf hset hrest ihf ihrest =>
      have hFd := hF.of_grows hrest.grows
      exact simulated_storesCons hcopy hindex hf hset hFd (ihf (hset.contains hFd)) (ihrest hF)
  | noResults =>
      intro σ w _
      simp only [stackResults]
      exact Follows.pure .here
  | resultsCons hf hset hfs ihf ihfs =>
      have hFu := hF.of_grows hfs.grows
      have hFt := hFu.of_grows (Assembly.Grows.stable.indexed (by simp) hset)
      exact simulated_resultsCons hf hset hFu (ihf hFt) (ihfs hF)
  | _ => trivial

end Simulation

end StackCompiler
