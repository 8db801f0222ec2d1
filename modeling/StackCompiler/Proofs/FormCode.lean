import StackCompiler.Proofs.Scoping
import StackCompiler.Proofs.ValueCode

/-!
Code for effects at work. At the start of a form the stack holds the values of the environment, and
so it does after the form, if control gets that far. A `break` or `continue` leads to the place that
its loop has for it, with the values that were there when the loop began, and a return ends the run.
-/

namespace StackCompiler

open CompiledFunction

def NeverReturns (R : Runtime) (functions : SignatureTable) : Prop :=
  ∀ name, functions.convention name = .never → ∀ args store v store',
    R.call (R.constant (.symbol name)) args store ≠ .ok v store'

section Termination

variable {R : Runtime} {functions : SignatureTable} {fuel : Nat}

theorem NeverReturns.callNamed (hnever : NeverReturns R functions) {name : String}
    (hname : functions.convention name = .never) (args : List R.Value) (w : World R) (v : R.Value)
    (w' : World R) : Run.callNamed name args w ≠ .ok v w' := by
  intro h
  unfold Run.callNamed Run.call Run.primitive at h
  split at h
  · rename_i a store hcall
    exact hnever name hname args _ _ _ hcall
  · cases h

/-- A call of such a function has no value. -/
theorem NeverReturns.evalValue (hnever : NeverReturns R functions) {name : String}
    (hname : functions.convention name = .never) {args : List Form} {env : Env R} {w w' : World R}
    {v : R.Value} : evalValue R env (.call name args) w ≠ .ok v w' := by
  intro h
  obtain ⟨vs, w₁, -, h⟩ := bind_eq_ok.1 h
  exact hnever.callNamed hname vs w₁ v w' h

mutual
/-- Control does not get past a form that terminates. -/
theorem execForm_ne_next (hnever : NeverReturns R functions) (f : Form)
    (hends : f.terminates functions = true) {env env' : Env R} {w w' : World R} :
    execForm R fuel f env w ≠ .ok (.next, env') w' := by
  intro h
  cases f with
  | ret results =>
      cases results with
      | nil => cases h
      | cons first rest =>
          obtain ⟨v, w₁, -, h⟩ := bind_eq_ok.1 h
          obtain ⟨_, w₂, -, h⟩ := bind_eq_ok.1 h
          cases h
  | breakLoop => cases h
  | continueLoop => cases h
  | block body =>
      obtain ⟨⟨flow, inner⟩, w₁, hbody, h⟩ := bind_eq_ok.1 h
      cases h
      exact execForms_ne_next hnever body hends hbody
  | call name args =>
      have hname : functions.convention name = .never := by
        simpa [Form.terminates, Form.callConvention?] using hends
      obtain ⟨v, w₁, hcall, -⟩ := bind_eq_ok.1 h
      exact hnever.evalValue hname hcall
  | _ => simp [Form.terminates, Form.callConvention?] at hends

theorem execForms_ne_next (hnever : NeverReturns R functions) (fs : List Form)
    (hends : lastTerminates functions fs = true) {env env' : Env R} {w w' : World R} :
    execForms R fuel fs env w ≠ .ok (.next, env') w' := by
  intro h
  cases fs with
  | nil => simp [lastTerminates] at hends
  | cons f fs =>
      obtain ⟨⟨flow, env₁⟩, w₁, hf, h⟩ := bind_eq_ok.1 h
      cases flow with
      | next =>
          cases fs with
          | nil => exact execForm_ne_next hnever f hends hf
          | cons g rest => exact execForms_ne_next hnever (g :: rest) hends h
      | _ => cases h
end

end Termination

/-! ### Goals -/

theorem lowest_lowest {α : Type} {m n : Nat} {l : List α} (hm : m ≤ n) (hn : n ≤ l.length) :
    lowest m (lowest n l) = lowest m l := by
  simp only [lowest, List.drop_drop, List.length_drop]
  congr 1
  omega

theorem lowest_of_length {α : Type} {n : Nat} {l : List α} (h : n = l.length) :
    lowest n l = l := by
  simp [lowest, h]

theorem Env.values_lowest {R : Runtime} (n : Nat) (env : Env R) :
    Env.values (lowest n env) = lowest n env.values := by
  simp [lowest, Env.values]

/-- Where control is after a form, with the places that the jumps out of the loop lead to. -/
def flowGoal {R : Runtime} (next depth : Nat) (target : LoopJump → Nat) :
    Flow R.Value × Env R → Goal R.Value
  | (.next, env) => .point next env.values
  | (.breakLoop, env) => .point (target .breakLoop) (lowest depth env.values)
  | (.continueLoop, env) => .point (target .continueLoop) (lowest depth env.values)
  | (.ret v, _) => .returned v

/-- The depth of the innermost loop, and where the labels of its jumps stand. -/
def Exits (F : CompiledFunction) (s : Assembly) (depth : Nat) (target : LoopJump → Nat) : Prop :=
  ∀ c rest, s.loops.loops = c :: rest → c.depth = depth ∧
    ∀ (j : LoopJump) (l : Label), j.label? c = some l →
      ∀ p, F.chunk.labelPosition? l = some p → p = target j

theorem Exits.of_keepsLoop {F : CompiledFunction} {s s' : Assembly} {depth : Nat}
    {target : LoopJump → Nat} (h : Exits F s' depth target) (hkeeps : s.KeepsLoop s') :
    Exits F s depth target := by
  intro c rest hloops
  obtain ⟨c', hloops', hdepth, hlabels⟩ := hkeeps c rest hloops
  obtain ⟨hdepth', htarget⟩ := h c' rest hloops'
  exact ⟨hdepth.symm.trans hdepth', fun j l hl => htarget j l (hlabels j l hl)⟩

/-- A part of a form that code treats as it is meant: a number that is loaded as it is written, or a
form that binds no variable where nothing drops it. -/
def Faithful (F : CompiledFunction) (R : Runtime) : Form → Prop
  | .float x => F.literal R (.float x) = R.constant (.float x)
  | f => f.isTidy = true

theorem Faithful.isTidy {F : CompiledFunction} {R : Runtime} {f : Form} (h : Faithful F R f) :
    f.isTidy = true := by
  cases f with
  | float x => rfl
  | _ => exact h

section Steps

variable {F : CompiledFunction} {R : Runtime} {functions : SignatureTable} {s s' t : Assembly}
  {env : Env R} {l : Label} {depth : Nat} {target : LoopJump → Nat}

theorem Closes.code (h : Closes s s') : s'.code = s.code := by
  obtain ⟨c, rest, -, ⟨-, rfl⟩ | ⟨l, -, hplace⟩⟩ := h
  · rfl
  · exact hplace.code

theorem Drops.contains {n : Nat} (h : Drops n s s') (hF : F.Contains s') : F.Contains s :=
  hF.of_grows (Assembly.Grows.stable.drops h)

theorem Drops.reaches {n : Nat} (h : Drops n s s') (hF : F.Contains s') {st : List R.Value}
    {w : World R} (hn : n ≤ st.length) :
    F.Reaches ⟨s.code.size, st, w⟩ ⟨s'.code.size, st.drop n, w⟩ := by
  obtain ⟨rfl, rfl⟩ | ⟨k, rfl, happ⟩ := h
  · exact .refl
  · exact happ.reaches hF rfl (perform_discard hn)

/-- The end of a block: its variables are dropped where control goes on. -/
theorem Drops.follows_endBlock {body : Block} {m : Machine R}
    {x : Run R (Flow R.Value × Env R)} (hdrop : Drops (Block.locals body) s s')
    (hF : F.Contains s') (hdepth : depth ≤ env.length)
    (hext : ∀ {w r w'}, x w = .ok r w' → Extends (boundNames body) env r)
    (hx : F.Follows m x (flowGoal s.code.size depth target)) :
    F.Follows m (endBlock env x) (flowGoal s'.code.size depth target) := by
  refine Follows.bind_continues hx fun r w hrun => ?_
  obtain ⟨flow, inner⟩ := r
  obtain ⟨extra, hextra⟩ := (hext hrun).names_suffix
  have hlength : env.length ≤ inner.length := by
    have := congrArg List.length hextra
    simp only [Env.names_length, List.length_append] at this
    omega
  have hlowest : lowest depth (Env.values (lowest env.length inner)) =
      lowest depth inner.values := by
    rw [Env.values_lowest, lowest_lowest hdepth (by simpa using hlength)]
  cases flow with
  | next =>
      -- exactly the variables of the block lie above those of the environment
      have hnames : inner.names = boundNames body ++ env.names := hext hrun
      have hlocals : inner.length = Block.locals body + env.length := by
        have := congrArg List.length hnames
        rwa [Env.names_length, List.length_append, boundNames_length, Env.names_length] at this
      show F.Reaches ⟨s.code.size, inner.values, w⟩
        ⟨s'.code.size, Env.values (lowest env.length inner), w⟩
      rw [Env.values_lowest, lowest, Env.values_length, hlocals, Nat.add_sub_cancel]
      exact hdrop.reaches hF (by simp [hlocals])
  | breakLoop =>
      show F.Reaches ⟨target .breakLoop, lowest depth inner.values, w⟩
        ⟨target .breakLoop, lowest depth (Env.values (lowest env.length inner)), w⟩
      rw [hlowest]
  | continueLoop =>
      show F.Reaches ⟨target .continueLoop, lowest depth inner.values, w⟩
        ⟨target .continueLoop, lowest depth (Env.values (lowest env.length inner)), w⟩
      rw [hlowest]
  | ret v => exact ⟨_, rfl, rfl⟩

/-- Variables in scope are read from their slots. -/
theorem readable_of_scoped {fs : List Form} (hfaithful : ∀ g ∈ fs, Faithful F R g)
    (hscoped : ∀ g ∈ fs, ∀ name, g = .var name → name ∈ env.names) :
    ∀ g ∈ fs, Readable (F.literal R) env.operands env g := by
  intro g hg
  cases g with
  | var name =>
      obtain ⟨v, hv⟩ := Env.lookup_of_mem (hscoped _ hg name rfl)
      exact ⟨v, by rw [Env.operands_lookup, hv], hv⟩
  | float x => exact hfaithful _ hg
  | _ => trivial

theorem Form.readsOnly_iff {scope : List String} {f : Form} :
    f.readsOnly scope = true ↔ ∀ g ∈ f.parts, ∀ name, g = .var name → name ∈ scope := by
  rw [readsOnly, List.all_eq_true]
  constructor
  · rintro h g hg name rfl
    simpa using h _ hg
  · intro h g hg
    cases g with
    | var name => simpa using h _ hg name rfl
    | _ => rfl

/-- Code for a value on top of operands among which every variable that it reads is visible. -/
theorem Code.follows_readable {f : Form} (h : Code functions (.value f) s s')
    (hF : F.Contains s') {σ : Operands R} (hnames : s.slots.names = σ.names)
    (hread : ∀ g ∈ f.parts, Readable (F.literal R) σ env g) (w : World R) :
    F.Follows ⟨s.code.size, σ.values, w⟩ (evalValue R env f)
      fun v => .point s'.code.size (v :: σ.values) :=
  (h.simulated hF σ w hnames).congr (stackValue_eq (F.literal_loadsExactly R) f hread w)

/-- Code for a value on top of the environment. -/
theorem Code.follows_value {f : Form} (h : Code functions (.value f) s s') (hF : F.Contains s')
    (hnames : s.slots.names = env.names.map some) (hscoped : f.readsOnly env.names = true)
    (hfaithful : ∀ g ∈ f.parts, Faithful F R g) (w : World R) :
    F.Follows ⟨s.code.size, env.values, w⟩ (evalValue R env f)
      fun v => .point s'.code.size (v :: env.values) := by
  have hread := readable_of_scoped hfaithful (Form.readsOnly_iff.1 hscoped)
  have hfollows := h.follows_readable hF (by rw [hnames, Env.operands_names]) hread w
  rwa [Env.operands_values] at hfollows

theorem stackResults_eq {lit : Constant → R.Value} (hlit : LoadsExactly lit) {σ : Operands R}
    {fs : List Form} (hread : ∀ g ∈ listParts fs, Readable lit σ env g) (vars : List String)
    (w : World R) :
    (do let _ ← stackResults R lit σ vars fs; return ()) w = evalResults R env vars fs w := by
  induction fs generalizing vars w with
  | nil => cases vars <;> rfl
  | cons f fs ih =>
      cases vars with
      | nil => rfl
      | cons var vars =>
          simp only [listParts, List.forall_mem_append] at hread
          simp only [stackResults, evalResults, bind_assoc, pure_bind]
          refine bind_congr_of_eq (stackValue_eq hlit f hread.1 w) fun v w' _ => ?_
          have hrest := fun w'' => ih hread.2 vars w''
          exact bind_congr_of_ok (x := Run.writeVar var v) fun _ w'' _ => hrest w''

/-- The test at a branch, after which the stack is as before. -/
theorem Code.follows_test {cond : Form} {kind : JumpKind} {taken : R.Value → Bool} {p : Nat}
    {α : Type} {y : R.Value → Run R α} {goal : α → Goal R.Value}
    (hkind : ∀ v st, decideJump kind (v :: st) = some (taken v, st))
    (hcond : Code functions (.value cond) s t) (hjump : Appends (.jump kind l) t s')
    (hF : F.Contains s') (hnames : s.slots.names = env.names.map some)
    (hscoped : cond.readsOnly env.names = true) (hfaithful : ∀ g ∈ cond.parts, Faithful F R g)
    (hplace : F.chunk.labelPosition? l = some p) (w : World R)
    (hy : ∀ v w', F.Follows ⟨if taken v then p else s'.code.size, env.values, w'⟩ (y v) goal) :
    F.Follows ⟨s.code.size, env.values, w⟩ (evalValue R env cond >>= y) goal := by
  refine Follows.bind (hcond.follows_value (hjump.contains hF) hnames hscoped hfaithful w)
    fun v w' _ => ?_
  exact (hy v w').after (hjump.reaches_jump hF hplace (hkind v env.values)) rfl

/-- Code that control goes on to from the end of other code. -/
theorem CompiledFunction.Follows.next {m : Machine R} {x : Run R (Flow R.Value × Env R)}
    {pc pc' : Nat} (h : F.Follows m x (flowGoal pc depth target))
    (hreach : ∀ (env : Env R) w, F.Reaches ⟨pc, env.values, w⟩ ⟨pc', env.values, w⟩) :
    F.Follows m x (flowGoal pc' depth target) := by
  unfold Follows at h ⊢
  split at h <;> rename_i hx
  · rename_i r w
    obtain ⟨flow, env⟩ := r
    cases flow with
    | next => exact Relation.ReflTransGen.trans h (hreach env w)
    | _ => exact h
  · exact h
  · trivial

/-- Where control does not get to the end, it does not matter where that is. -/
theorem CompiledFunction.Follows.of_ne_next {m : Machine R} {x : Run R (Flow R.Value × Env R)}
    {pc pc' : Nat} (h : F.Follows m x (flowGoal pc depth target))
    (hends : ∀ env w, x m.world ≠ .ok (.next, env) w) :
    F.Follows m x (flowGoal pc' depth target) := by
  refine h.mono fun r w hr => ?_
  obtain ⟨flow, env⟩ := r
  cases flow with
  | next => exact absurd hr (hends env w)
  | _ => rfl

/-- Rounds of a loop. The test stands behind the code that is run after the body; a `break` leads to
the exit and a `continue` to that code. -/
theorem follows_rounds {test : Env R → Run R R.Value}
    {body post : Env R → Run R (Flow R.Value × Env R)} {names : List String}
    (testPc bodyPc afterPc exitPc depth' : Nat) (target' : LoopJump → Nat)
    (htest : ∀ {env : Env R} {w} {y : R.Value → Run R (Flow R.Value × Env R)} {goal},
      env.names = names →
      (∀ v w', F.Follows ⟨if R.isNil v then exitPc else bodyPc, env.values, w'⟩ (y v) goal) →
      F.Follows ⟨testPc, env.values, w⟩ (test env >>= y) goal)
    (hbody : ∀ {env : Env R} {w}, env.names = names →
      F.Follows ⟨bodyPc, env.values, w⟩ (body env)
        (flowGoal afterPc env.length fun | .breakLoop => exitPc | .continueLoop => afterPc))
    (hbodyNames : ∀ {env : Env R} {w r w'}, body env w = .ok r w' → r.2.names = env.names)
    (hpost : ∀ {env : Env R} {w}, env.names = names →
      F.Follows ⟨afterPc, env.values, w⟩ (post env) (flowGoal testPc depth' target'))
    (hpostNames : ∀ {env : Env R} {w r w'}, post env w = .ok r w' → Extends [] env r)
    (rounds : Nat) {env : Env R} (hnames : env.names = names) (w : World R) :
    F.Follows ⟨testPc, env.values, w⟩ (execRounds test body post rounds env)
      (flowGoal exitPc depth target) := by
  induction rounds generalizing env w with
  | zero => trivial
  | succ rounds ih =>
      refine htest hnames fun v w' => ?_
      by_cases hv : R.isNil v = true
      · simp only [hv, if_true]
        exact Follows.pure .here
      · simp only [hv, Bool.false_eq_true, if_false]
        refine Follows.bind_continues (hbody hnames) fun r w₁ hrun => ?_
        obtain ⟨flow, env₁⟩ := r
        have hnames₁ : env₁.names = names := (hbodyNames hrun).trans hnames
        have hlowest : lowest env.length env₁.values = env₁.values := by
          refine lowest_of_length ?_
          rw [Env.values_length, ← Env.names_length, ← Env.names_length, hnames, hnames₁]
        -- what follows the body, whether control got to its end or not
        have hgoes : F.Follows ⟨afterPc, env₁.values, w₁⟩
            (finishRound post (execRounds test body post rounds) env₁)
            (flowGoal exitPc depth target) := by
          refine Follows.bind_continues (hpost hnames₁) fun r w₂ hrun₂ => ?_
          obtain ⟨flow, env₂⟩ := r
          cases flow with
          | next =>
              have hnames₂ : env₂.names = env₁.names := hpostNames hrun₂
              exact ih (hnames₂.trans hnames₁) w₂
          | ret v => exact ⟨_, rfl, rfl⟩
          | breakLoop => trivial
          | continueLoop => trivial
        cases flow with
        | next => exact hgoes
        | continueLoop =>
            show F.Follows ⟨afterPc, lowest env.length env₁.values, w₁⟩ _ _
            rw [hlowest]
            exact hgoes
        | breakLoop =>
            show F.Reaches ⟨exitPc, lowest env.length env₁.values, w₁⟩ ⟨exitPc, env₁.values, w₁⟩
            rw [hlowest]
        | ret v => exact ⟨_, rfl, rfl⟩

/-- A `break` leads behind its loop. -/
theorem Closes.break_position {c : LoopContext} {rest : List LoopContext} (h : Closes s s')
    (hF : F.Contains s') (hloops : s.loops.loops = c :: rest) (hl : c.breakLabel = some l) :
    F.chunk.labelPosition? l = some s'.code.size := by
  obtain ⟨c', rest', hloops', ⟨hnone, rfl⟩ | ⟨l', hl', hplace⟩⟩ := h
  · rw [hloops] at hloops'
    cases hloops'
    rw [hl] at hnone
    cases hnone
  · rw [hloops] at hloops'
    cases hloops'
    rw [hl] at hl'
    cases hl'
    rw [hplace.code]
    exact hplace.position hF

/-- A `continue` leads to the end of the body of its loop: to the test, if nothing comes before it,
or else to what does. -/
theorem Code.continue_position {post : Option Form} {d f g h : Assembly} {depth : Nat} {k : Label}
    {c : LoopContext} {rest : List LoopContext}
    (hkeeps : Assembly.KeepsLoop
      { d with loops := d.loops.enter depth (if post.isNone then some l else none) } f)
    (hpost : Code functions (.post post) f g) (hplace : Places l g h) (hF : F.Contains h)
    (hloops : f.loops.loops = c :: rest) (hl : c.continueLabel = some k) :
    F.chunk.labelPosition? k = some f.code.size := by
  cases hpost with
  | noPost =>
      obtain ⟨c', hloops', -, hlabels⟩ := hkeeps _ _ rfl
      rw [hloops] at hloops'
      cases hloops'
      have htest : c.continueLabel = some l := hlabels .continueLoop l rfl
      rw [hl] at htest
      cases htest
      exact hplace.position hF
  | post hnone _ => simp [LoopStack.current?, hloops, hl] at hnone
  | postAt hsome hplace' hafter =>
      simp only [LoopStack.current?, hloops, List.head?_cons, Option.bind_some, hl,
        Option.some.injEq] at hsome
      subst hsome
      exact hplace'.position ((hplace.contains hF).of_grows hafter.grows)

theorem Exits.exists_target (hdepth : ∀ c rest, s.loops.loops = c :: rest → c.depth = depth) :
    ∃ target, Exits F s depth target := by
  refine ⟨fun j => ((s.loops.loops.head?.bind j.label?).bind F.chunk.labelPosition?).getD 0,
    fun c rest hloops => ⟨hdepth c rest hloops, fun j l hl p hp => ?_⟩⟩
  simp [hloops, hl, hp]

theorem Appends.returns (h : Appends .ret s s') (hF : F.Contains s') (v : R.Value)
    (st : List R.Value) (w : World R) :
    F.Attains ⟨s.code.size, v :: st, w⟩ (.returned v) w :=
  ⟨_, .refl, by simp only [step, hF.fetch h.code]⟩

/-- Values above the depth of the loop are dropped before the jump. -/
theorem Leaves.reaches {n p : Nat} (h : Leaves n l s s') (hF : F.Contains s')
    (hplace : F.chunk.labelPosition? l = some p) {st : List R.Value}
    (hlength : st.length = s.slots.names.length) (w : World R) :
    F.Reaches ⟨s.code.size, st, w⟩ ⟨p, lowest n st, w⟩ := by
  obtain ⟨rfl, happ⟩ | ⟨k, hk, hlt, happ⟩ := h
  · rw [lowest_of_length hlength.symm]
    exact happ.reaches_jump hF hplace rfl
  · have hFt := happ.contains hF
    have hcount : k.toNat ≤ st.length := by omega
    have hdiscard := follows_perform (hFt.fetch rfl) rfl st w
    rw [perform_discard hcount] at hdiscard
    have hreach : F.Reaches ⟨s.code.size, st, w⟩ ⟨s.code.size + 1, st.drop k.toNat, w⟩ := hdiscard
    rw [lowest, hlength, ← hk]
    refine hreach.trans ?_
    rw [← Array.size_push]
    exact happ.reaches_jump hF hplace rfl

/-- A variable in scope is set in its slot. The slot may also be that of the new value itself, which
is then the value that the variable has. -/
theorem Appends.reaches_rebind {name : String} {value : Form} {n : UInt16} {v : R.Value}
    {w : World R} (h : Appends (.stackSet n) s s') (hF : F.Contains s')
    (hnames : s.slots.names = value.slotName :: env.names.map some)
    (hfind : s.slots.find? name = some n.toNat)
    (hslot : ∀ x, value.slotName = some x → env.lookup x = some v) :
    ∃ env', Env.update? name v env = some env' ∧
      F.Reaches ⟨s.code.size, v :: env.values, w⟩ ⟨s'.code.size, env'.values, w⟩ := by
  rw [Slots.find?, hnames, List.findIdx?_cons] at hfind
  by_cases hname : value.slotName = some name
  · simp only [hname, beq_self_eq_true, if_true, Option.some.injEq] at hfind
    refine ⟨env, Env.update?_of_lookup (hslot name hname), h.reaches hF rfl ?_⟩
    rw [perform_stackSet (by simp [← hfind])]
    simp [← hfind]
  · have hne : (value.slotName == some name) = false := by simpa using hname
    simp only [hne, Bool.false_eq_true, if_false, Option.map_eq_some_iff] at hfind
    obtain ⟨k, hk, hn⟩ := hfind
    obtain ⟨env', hupdate, -, hvalues, hlt⟩ := Env.update?_of_findIdx? v hk
    refine ⟨env', hupdate, h.reaches hF rfl ?_⟩
    rw [perform_stackSet (by simp [← hn, hlt])]
    simp [← hn, hvalues]

theorem Leaves.label_lt {n : Nat} (h : Leaves n l s s') : l.id < s.labels.size := by
  obtain ⟨-, happ⟩ | ⟨k, -, -, happ⟩ := h <;> exact happ.label_lt l rfl

theorem Leaves.loops {n : Nat} (h : Leaves n l s s') : s'.loops = s.loops := by
  obtain ⟨-, happ⟩ | ⟨k, -, -, happ⟩ := h <;> exact happ.loops

/-- After a jump its label is one of the loop. -/
theorem Finds.loops {j : LoopJump} {c : LoopContext} {rest : List LoopContext}
    (h : Finds j c rest l s s') (hloops : s.loops.loops = c :: rest) :
    ∃ c', s'.loops.loops = c' :: rest ∧ c'.depth = c.depth ∧ j.label? c' = some l := by
  obtain ⟨hl, rfl⟩ | ⟨-, -, rfl⟩ := h
  · exact ⟨c, hloops, rfl, hl⟩
  · exact ⟨_, rfl, by cases j <;> rfl, by cases j <;> rfl⟩

theorem execForm_of_loopJump? {f : Form} {j : LoopJump} (h : f.loopJump? = some j) {fuel : Nat} :
    execForm R fuel f env =
      pure (match j with | .breakLoop => .breakLoop | .continueLoop => .continueLoop, env) := by
  cases f with
  | breakLoop | continueLoop =>
      cases h
      rfl
  | _ => cases h

end Steps

/-! ### Code for effects -/

/-- What the code of forms has to do, with the values of the environment on the stack. -/
def Piece.Executed (F : CompiledFunction) (R : Runtime) (fuel : Nat) :
    Piece → Assembly → Assembly → Prop
  | .form f, s, s' => ∀ (env : Env R) (w : World R) (depth : Nat) (target : LoopJump → Nat),
      s.slots.names = env.names.map some → f.isScoped env.names = true →
      Exits F s' depth target → depth ≤ env.length →
      F.Follows ⟨s.code.size, env.values, w⟩ (execForm R fuel f env)
        (flowGoal s'.code.size depth target)
  | .forms fs, s, s' => ∀ (env : Env R) (w : World R) (depth : Nat) (target : LoopJump → Nat),
      s.slots.names = env.names.map some → areScoped env.names fs = true →
      Exits F s' depth target → depth ≤ env.length →
      F.Follows ⟨s.code.size, env.values, w⟩ (execForms R fuel fs env)
        (flowGoal s'.code.size depth target)
  | .post none, s, s' => s'.code = s.code
  | .post (some f), s, s' =>
      ∀ (env : Env R) (w : World R) (depth : Nat) (target : LoopJump → Nat),
      s.slots.names = env.names.map some → f.isScoped env.names = true →
      Exits F s' depth target → depth ≤ env.length →
      F.Follows ⟨s.code.size, env.values, w⟩ (execForm R fuel f env)
        (flowGoal s'.code.size depth target)
  | _, _, _ => True

section Execution

variable {F : CompiledFunction} {R : Runtime} {functions : SignatureTable} {fuel : Nat}

section Simple

variable {s t u v s' : Assembly}

theorem executed_retNil (hload : AppendsIndexed .constRef (.symbol Host.nil) s t)
    (hret : Appends .ret t s') (hF : F.Contains s') :
    (Piece.form (.ret [])).Executed F R fuel s s' := by
  intro env w depth target _ _ _ _
  have hnil := F.literal_loadsExactly R (.symbol Host.nil) (by simp)
  have hloaded := hload.reaches_load (R := R) (hret.contains hF) env.values w
  rw [hnil] at hloaded
  exact (hret.returns hF _ _ w).after hloaded

/-- A return. The first result stays on the stack while the others are evaluated and stored. -/
theorem executed_ret {first : Form} {rest : List Form} (hfirst : Code functions (.value first) s t)
    (hrest : Code functions (.results Host.resultVars rest) t u) (hret : Appends .ret u s')
    (hF : F.Contains s') (hfaithful : ∀ g ∈ listParts (first :: rest), Faithful F R g) :
    (Piece.form (.ret (first :: rest))).Executed F R fuel s s' := by
  simp only [listParts, List.forall_mem_append] at hfaithful
  intro env w depth target hnames hscoped _ _
  have hFu := hret.contains hF
  have hscoped' := Form.readsOnly_iff.1 hscoped
  simp only [Form.parts, listParts, List.forall_mem_cons, List.forall_mem_append] at hscoped'
  have hread := readable_of_scoped hfaithful.1 hscoped'.2.1
  have hreadRest := readable_of_scoped hfaithful.2 hscoped'.2.2
  have hnames_t : t.slots.names = first.slotName :: Operands.names env.operands := by
    rw [hfirst.names_of_isOperand rfl, hnames, Env.operands_names]
    rfl
  rw [← Env.operands_values]
  refine Follows.bind (hfirst.follows_readable (hFu.of_grows hrest.grows)
    (by rw [hnames, Env.operands_names]) hread w) fun v w' hv => ?_
  have hresults := hrest.simulated hFu ((first.slotName, v) :: env.operands) w' hnames_t
  have hstored : F.Follows ⟨t.code.size, v :: env.operands.values, w'⟩
      (evalResults R env Host.resultVars rest)
      fun _ => .point u.code.size (v :: env.operands.values) := by
    refine Follows.congr (hresults.bind fun _ w'' _ => ?_)
      (stackResults_eq (F.literal_loadsExactly R)
        (Readable.push hreadRest (Readable.slot hread hv)) Host.resultVars w')
    exact Follows.pure .here
  exact Follows.bind hstored fun _ w'' _ => hret.returns hF v _ w''

/-- A `break` or `continue` leads to the place that the loop has for it. -/
theorem executed_jump {f : Form} {j : LoopJump} {c : LoopContext} {rest : List LoopContext}
    {l : Label} (hf : f.loopJump? = some j) (hloops : s.loops.loops = c :: rest)
    (hfind : Finds j c rest l s t) (hleave : Leaves c.depth l t s') (hF : F.Contains s') :
    (Piece.form f).Executed F R fuel s s' := by
  intro env w depth target hnames _ hexits _
  have hFt : F.Contains t := hF.of_grows (Assembly.Grows.stable.leaves hleave)
  have hsize : t.code.size = s.code.size := by
    obtain ⟨-, rfl⟩ | ⟨-, -, rfl⟩ := hfind <;> rfl
  -- the label has a place because all labels of a finished function have one
  have hlt : l.id < F.chunk.labels.size := lt_of_lt_of_le hleave.label_lt hFt.labels
  obtain ⟨p, hp⟩ : ∃ p, F.chunk.labelPosition? l = some p :=
    ⟨_, Array.getElem?_eq_getElem hlt⟩
  obtain ⟨c', hloops', hdepth', hlabel⟩ := hfind.loops hloops
  obtain ⟨hdepth'', htarget⟩ := hexits c' rest (by rw [hleave.loops, hloops'])
  have hlength : env.values.length = t.slots.names.length := by
    rw [hfind.slots, hnames]
    simp
  have hreach := hleave.reaches hF hp hlength w
  rw [htarget j l hlabel p hp, ← hdepth', hdepth'', hsize] at hreach
  rw [execForm_of_loopJump? hf]
  cases j with
  | breakLoop => exact hreach
  | continueLoop => exact hreach

theorem executed_bind {name : String} {init : Form} (hinit : Code functions (.value init) s t)
    (hname : Relabels (some name) t s') (hF : F.Contains s')
    (hfaithful : ∀ g ∈ init.parts, Faithful F R g) :
    (Piece.form (.bind name init)).Executed F R fuel s s' := by
  intro env w depth target hnames hscoped _ _
  have hscoped' : init.readsOnly env.names = true :=
    Form.readsOnly_of_part hscoped fun p hp => by simp [Form.parts, hp]
  rw [hname.code]
  exact Follows.bind (hinit.follows_value (hname.contains hF) hnames hscoped' hfaithful w)
    fun v w' _ => Follows.pure .here

theorem executed_rebindSlot {name : String} {value : Form} {n : UInt16}
    (hvalue : Code functions (.value value) s t) (hfind : t.slots.find? name = some n.toNat)
    (hset : Appends (.stackSet n) t s') (hF : F.Contains s')
    (hfaithful : ∀ g ∈ value.parts, Faithful F R g) :
    (Piece.form (.rebind name value)).Executed F R fuel s s' := by
  intro env w depth target hnames hscoped _ _
  simp only [Form.isScoped, Bool.and_eq_true] at hscoped
  have hread := readable_of_scoped hfaithful (Form.readsOnly_iff.1 hscoped.2)
  refine Follows.bind (hvalue.follows_value (hset.contains hF) hnames hscoped.2 hfaithful w)
    fun v w' hv => ?_
  have hnames_t : t.slots.names = value.slotName :: env.names.map some := by
    rw [hvalue.names_of_isOperand rfl, hnames]
    rfl
  obtain ⟨env', hupdate, hreach⟩ :=
    hset.reaches_rebind (w := w') hF hnames_t hfind (Readable.slot hread hv)
  simp only [hupdate]
  exact Follows.pure hreach

/-- A variable in scope has a slot, so it is not set as a variable of the host. -/
theorem executed_rebindDynamic {name : String} {value : Form}
    (hvalue : Code functions (.value value) s t) (hfind : t.slots.find? name = none) :
    (Piece.form (.rebind name value)).Executed F R fuel s s' := by
  intro env w depth target hnames hscoped _ _
  simp only [Form.isScoped, Bool.and_eq_true, List.contains_iff_mem] at hscoped
  rw [Slots.find?, hvalue.names_of_isOperand rfl, hnames, List.findIdx?_eq_none_iff] at hfind
  have hmem : some name ∈ (Piece.value value).after (env.names.map some) := by
    simp [Piece.after, hscoped.1]
  simpa using hfind _ hmem

/-- A store into an array: each operand is evaluated on top of those before it. -/
theorem executed_set {array index value : Form} (htarget : Code functions (.value array) s t)
    (hindex : Code functions (.value index) t u) (hvalue : Code functions (.value value) u v)
    (hset : Appends .arraySet v s') (hF : F.Contains s')
    (hfaithful : ∀ g ∈ array.parts ++ (index.parts ++ value.parts), Faithful F R g) :
    (Piece.form (.set array index value)).Executed F R fuel s s' := by
  simp only [List.forall_mem_append] at hfaithful
  intro env w depth target hnames hscoped _ _
  have hFv := hset.contains hF
  have hFu := hFv.of_grows hvalue.grows
  have hscoped' := Form.readsOnly_iff.1 hscoped
  simp only [Form.parts, List.forall_mem_cons, List.forall_mem_append] at hscoped'
  have hreadArray := readable_of_scoped hfaithful.1 hscoped'.2.1
  have hreadIndex := readable_of_scoped hfaithful.2.1 hscoped'.2.2.1
  have hreadValue := readable_of_scoped hfaithful.2.2 hscoped'.2.2.2
  have hnames_s : s.slots.names = Operands.names env.operands := by
    rw [hnames, Env.operands_names]
  rw [← Env.operands_values]
  refine Follows.bind
    (htarget.follows_readable (hFu.of_grows hindex.grows) hnames_s hreadArray w)
    fun a w₁ ha => ?_
  have hslotArray := Readable.slot hreadArray ha
  refine Follows.bind (hindex.follows_readable hFu (σ := (array.slotName, a) :: env.operands)
    (by rw [htarget.names_of_isOperand rfl, hnames_s]; rfl)
    (Readable.push hreadIndex hslotArray) w₁) fun i w₂ hi => ?_
  have hslotIndex := Readable.slot hreadIndex hi
  refine Follows.bind (hvalue.follows_readable hFv
    (σ := (index.slotName, i) :: (array.slotName, a) :: env.operands)
    (by rw [hindex.names_of_isOperand rfl, htarget.names_of_isOperand rfl, hnames_s]; rfl)
    (Readable.push (Readable.push hreadValue hslotArray) hslotIndex) w₂) fun x w₃ _ => ?_
  refine Follows.bind (hset.follows hF rfl rfl) fun _ w₄ _ => ?_
  show F.Reaches ⟨s'.code.size, Operands.values env.operands, w₄⟩ ⟨s'.code.size, env.values, w₄⟩
  rw [Env.operands_values]

/-- The static stack after a call that never returns is of no account. -/
theorem executed_never (hnever : NeverReturns R functions) {name : String} {args : List Form}
    (hconvention : functions.convention name = .never)
    (hcall : Code functions (.value (.call name args)) s v) (hforget : Forgets 1 v s')
    (hF : F.Contains s') (hfaithful : ∀ g ∈ (Form.call name args).parts, Faithful F R g) :
    (Piece.form (.call name args)).Executed F R fuel s s' := by
  intro env w depth target hnames hscoped _ _
  have hFv := hF.of_grows (Assembly.Grows.stable.forgets hforget)
  refine Follows.bind_continues (hcall.follows_value hFv hnames hscoped hfaithful w) ?_
  exact fun v w' hv => absurd hv (hnever.evalValue hconvention)

/-- A value that is not needed is dropped. -/
theorem executed_effect {f : Form} (hf : Code functions (.value f) s t) (hdrop : Drops 1 t s')
    (hF : F.Contains s') (hfaithful : ∀ g ∈ f.parts, Faithful F R g) :
    (Piece.form f).Executed F R fuel s s' := by
  intro env w depth target hnames hscoped _ _
  rw [Form.isScoped_of_value hf.isStatement] at hscoped
  rw [execForm_of_isStatement hf.isStatement]
  refine Follows.bind (hf.follows_value (hdrop.contains hF) hnames hscoped hfaithful w)
    fun v w' _ => Follows.pure ?_
  exact hdrop.reaches hF (by simp)

end Simple

section Branch

variable {cond : Form} {body : Block} {l : Label} {s a b c d e : Assembly}

/-- A branch whose label stands at `p`, if the two ways behind the test lead to the same end. -/
theorem follows_branch {p pc depth : Nat} {target : LoopJump → Nat} {env : Env R}
    {y : Run R (Flow R.Value × Env R)} (hlabel : Creates l s a)
    (hcond : Code functions (.value cond) a b) (hjump : Appends (.jump .ifNil l) b c)
    (hbody : Code functions (.forms body) c d) (hdrop : Drops body.locals d e)
    (hF : F.Contains e) (hplace : F.chunk.labelPosition? l = some p)
    (hfaithful : ∀ g ∈ cond.parts, Faithful F R g) (htidy : ∀ g ∈ listParts body, g.isTidy = true)
    (hexecuted : (Piece.forms body).Executed F R fuel c d)
    (hnames : s.slots.names = env.names.map some) (hscopedCond : cond.readsOnly env.names = true)
    (hscopedBody : areScoped env.names body = true) (hexits : Exits F e depth target)
    (hdepth : depth ≤ env.length) (w : World R)
    (hthen : ∀ {m : Machine R}, F.Follows m (endBlock env (execForms R fuel body env))
        (flowGoal e.code.size depth target) →
      F.Follows m (endBlock env (execForms R fuel body env)) (flowGoal pc depth target))
    (helse : ∀ w', F.Follows ⟨p, env.values, w'⟩ y (flowGoal pc depth target)) :
    F.Follows ⟨s.code.size, env.values, w⟩ (do
        let v ← evalValue R env cond
        if R.isNil v then y else endBlock env (execForms R fuel body env))
      (flowGoal pc depth target) := by
  have hFd := hdrop.contains hF
  have hnames_a : a.slots.names = env.names.map some := by rw [hlabel.slots, hnames]
  have hnames_c : c.slots.names = env.names.map some := by
    rw [hjump.names_of_jump hcond rfl, hnames_a]
  have hexits_d := hexits.of_keepsLoop (Assembly.KeepsLoop.stable.drops hdrop)
  rw [← hlabel.code]
  refine hcond.follows_test (fun _ _ => rfl) hjump (hFd.of_grows hbody.grows) hnames_a hscopedCond
    hfaithful hplace w fun v w' => ?_
  by_cases hv : R.isNil v = true
  · simp only [hv, if_true]
    exact helse w'
  · simp only [hv, Bool.false_eq_true, if_false]
    exact hthen (hdrop.follows_endBlock hF hdepth (execForms_extends body htidy)
      (hexecuted env w' depth target hnames_c hscopedBody hexits_d hdepth))

variable {m : Label} {other : Form} {f g h k s' : Assembly}

theorem executed_branch (hlabel : Creates l s a) (hcond : Code functions (.value cond) a b)
    (hjump : Appends (.jump .ifNil l) b c) (hbody : Code functions (.forms body) c d)
    (hdrop : Drops body.locals d e) (hplace : Places l e s') (hF : F.Contains s')
    (hfaithful : ∀ g ∈ (Form.branch cond body none).parts, Faithful F R g)
    (hexecuted : (Piece.forms body).Executed F R fuel c d) :
    (Piece.form (.branch cond body none)).Executed F R fuel s s' := by
  simp only [Form.parts, List.forall_mem_cons, List.forall_mem_append] at hfaithful
  intro env w depth target hnames hscoped hexits hdepth
  simp only [Form.isScoped, Bool.and_eq_true] at hscoped
  have hexits_e := hexits.of_keepsLoop (Assembly.KeepsLoop.stable.places hplace)
  unfold execForm
  rw [hplace.code]
  exact follows_branch hlabel hcond hjump hbody hdrop (hplace.contains hF) (hplace.position hF)
    hfaithful.2.1 (fun g hg => (hfaithful.2.2.1 g hg).isTidy) hexecuted hnames hscoped.1.1
    hscoped.1.2 hexits_e hdepth w id fun w' => Follows.pure .here

/-- A branch whose body ends the flow of control. What is behind the body is the other way. -/
theorem executed_branchElse (hnever : NeverReturns R functions)
    (hends : lastTerminates functions body = true) (hlabel : Creates l s a)
    (hcond : Code functions (.value cond) a b) (hjump : Appends (.jump .ifNil l) b c)
    (hbody : Code functions (.forms body) c d) (hdrop : Drops body.locals d e)
    (hplace : Places l e f) (hother : Code functions (.form other) f s') (hF : F.Contains s')
    (hfaithful : ∀ g ∈ (Form.branch cond body (some other)).parts, Faithful F R g)
    (hexecuted : (Piece.forms body).Executed F R fuel c d)
    (hexecutedOther : (Piece.form other).Executed F R fuel f s') :
    (Piece.form (.branch cond body (some other))).Executed F R fuel s s' := by
  simp only [Form.parts, List.forall_mem_cons, List.forall_mem_append] at hfaithful
  intro env w depth target hnames hscoped hexits hdepth
  simp only [Form.isScoped, isScoped?, Bool.and_eq_true] at hscoped
  have hFf := hF.of_grows hother.grows
  have hexits_e := (hexits.of_keepsLoop hother.keepsLoop).of_keepsLoop
    (Assembly.KeepsLoop.stable.places hplace)
  have htidy := fun g hg => (hfaithful.2.2.1 g hg).isTidy
  have hnames_f : f.slots.names = env.names.map some := by
    rw [hplace.slots, names_of_branch hlabel hcond hjump hbody hdrop htidy, hnames]
  unfold execForm
  refine follows_branch hlabel hcond hjump hbody hdrop (hplace.contains hFf) (hplace.position hFf)
    hfaithful.2.1 htidy hexecuted hnames hscoped.1.1 hscoped.1.2 hexits_e hdepth w ?_ fun w' => ?_
  · intro m hthen
    refine Follows.of_ne_next hthen ?_
    intro env' w'' h
    obtain ⟨⟨flow, inner⟩, w₁, hrun, h⟩ := bind_eq_ok.1 h
    cases h
    exact execForms_ne_next hnever body hends hrun
  · rw [← hplace.code]
    exact hexecutedOther env w' depth target hnames_f hscoped.2 hexits hdepth

/-- A branch with two ways. Behind the body a jump leads around the other way. -/
theorem executed_branchJoin (hlabel : Creates l s a) (hcond : Code functions (.value cond) a b)
    (hjump : Appends (.jump .ifNil l) b c) (hbody : Code functions (.forms body) c d)
    (hdrop : Drops body.locals d e) (hdone : Creates m e f) (hskip : Appends (.jump .always m) f g)
    (hplace : Places l g h) (hother : Code functions (.form other) h k) (hjoin : Places m k s')
    (hF : F.Contains s')
    (hfaithful : ∀ g ∈ (Form.branch cond body (some other)).parts, Faithful F R g)
    (hexecuted : (Piece.forms body).Executed F R fuel c d)
    (hexecutedOther : (Piece.form other).Executed F R fuel h k) :
    (Piece.form (.branch cond body (some other))).Executed F R fuel s s' := by
  simp only [Form.parts, List.forall_mem_cons, List.forall_mem_append] at hfaithful
  intro env w depth target hnames hscoped hexits hdepth
  simp only [Form.isScoped, isScoped?, Bool.and_eq_true] at hscoped
  have hFh := (hjoin.contains hF).of_grows hother.grows
  have hFg := hplace.contains hFh
  have hexits_k := hexits.of_keepsLoop (Assembly.KeepsLoop.stable.places hjoin)
  have hexits_e := (((hexits_k.of_keepsLoop hother.keepsLoop).of_keepsLoop
    (Assembly.KeepsLoop.stable.places hplace)).of_keepsLoop
    (Assembly.KeepsLoop.stable.appends hskip)).of_keepsLoop
    (Assembly.KeepsLoop.stable.creates hdone)
  have htidy := fun g hg => (hfaithful.2.2.1 g hg).isTidy
  have hnames_h : h.slots.names = env.names.map some := by
    rw [hplace.slots, hskip.names, hdone.slots,
      names_of_branch hlabel hcond hjump hbody hdrop htidy, hnames]
    rfl
  unfold execForm
  refine follows_branch hlabel hcond hjump hbody hdrop (hdone.contains (hskip.contains hFg))
    (hplace.position hFh) hfaithful.2.1 htidy hexecuted hnames hscoped.1.1 hscoped.1.2 hexits_e
    hdepth w ?_ fun w' => ?_
  · intro m hthen
    refine Follows.next hthen fun env' w'' => ?_
    rw [← hdone.code, hjoin.code]
    exact hskip.reaches_jump hFg (hjoin.position hF) rfl
  · rw [← hplace.code, hjoin.code]
    exact hexecutedOther env w' depth target hnames_h hscoped.2 hexits_k hdepth

end Branch

section Loop

variable {cond : Form} {body : Block} {post : Option Form} {l m : Label}
  {s a b c d e f g h k n s' : Assembly} {depth : Nat}

/-- At the end of the body of a loop, `break` leads behind the loop and `continue` to the place
itself. -/
theorem Code.exits_of_loop (hkeeps : Assembly.KeepsLoop
      { d with loops := d.loops.enter depth (if post.isNone then some l else none) } f)
    (hpost : Code functions (.post post) f g) (hplace : Places l g h) (hFh : F.Contains h)
    (hkeeps' : f.KeepsLoop n) (hclose : Closes n s') (hF : F.Contains s') :
    Exits F f depth fun | .breakLoop => s'.code.size | .continueLoop => f.code.size := by
  obtain ⟨c, hloops, hdepth, -⟩ := hkeeps _ _ rfl
  intro c' rest hloops'
  rw [hloops] at hloops'
  cases hloops'
  refine ⟨hdepth, fun j k hk p hp => ?_⟩
  cases j with
  | breakLoop =>
      obtain ⟨c_n, hloops_n, -, hlabels⟩ := hkeeps' _ _ hloops
      have hplaced := hclose.break_position hF hloops_n (hlabels .breakLoop k hk)
      exact Option.some.inj (hp.symm.trans hplaced)
  | continueLoop =>
      have hplaced := hpost.continue_position hkeeps hplace hFh hloops hk
      exact Option.some.inj (hp.symm.trans hplaced)

/-- Jumps in what follows the body of a loop have no meaning, so any place will do for them. -/
theorem Code.exists_exits_of_post (hexits : ∀ c rest, f.loops.loops = c :: rest → c.depth = depth)
    (hopen : f.loops.loops ≠ []) (hpost : Code functions (.post post) f g) :
    ∃ target, Exits F g depth target := by
  refine Exits.exists_target fun c rest hloops => ?_
  obtain ⟨c_f, rest_f, hloops_f⟩ := List.exists_cons_of_ne_nil hopen
  obtain ⟨c_g, hloops_g, hdepth_g, -⟩ := hpost.keepsLoop _ _ hloops_f
  rw [hloops_g] at hloops
  cases hloops
  rw [hdepth_g, hexits _ _ hloops_f]

/-- A loop, if its parts do what they mean. A round takes the test, then the body and what follows
it, each with the variables from before the loop. -/
theorem executed_loop (htest : Creates l s a) (hstart : Creates m a b)
    (hjump : Appends (.jump .always l) b c) (hplace : Places m c d)
    (hbody : Code functions (.forms body)
      { d with loops := d.loops.enter d.slots.depth (if post.isNone then some l else none) } e)
    (hdrop : Drops body.locals e f) (hpost : Code functions (.post post) f g)
    (hplaceTest : Places l g h) (hcond : Code functions (.value cond) h k)
    (hagain : Appends (.jump .ifNotNil m) k n) (hclose : Closes n s') (hF : F.Contains s')
    (hfaithful : ∀ g ∈ (Form.loop cond body post).parts, Faithful F R g)
    (hexecuted : (Piece.forms body).Executed F R fuel
      { d with loops := d.loops.enter d.slots.depth (if post.isNone then some l else none) } e)
    (hexecutedPost : (Piece.post post).Executed F R fuel f g) :
    (Piece.form (.loop cond body post)).Executed F R fuel s s' := by
  intro env w depth target hnames hscoped hexits hdepth
  simp only [Form.isScoped, Bool.and_eq_true] at hscoped
  obtain ⟨hnames_d, hnames_f, hnames_g⟩ := names_of_loop htest hstart hjump hplace hbody hdrop hpost
    fun p hp => (hfaithful p hp).isTidy
  simp only [Form.parts, List.forall_mem_cons, List.forall_mem_append] at hfaithful
  have htidy := fun g hg => (hfaithful.2.2.1 g hg).isTidy
  have hFn := hF.of_grows (.of_closes hclose)
  have hFh := (hagain.contains hFn).of_grows hcond.grows
  have hFf := (hplaceTest.contains hFh).of_grows hpost.grows
  have hFd : F.Contains d := ((hdrop.contains hFf).of_grows hbody.grows).of_grows (.of_loops d _)
  have hlength : d.slots.depth = env.length := by
    rw [d.slots.depth_eq, hnames_d, hnames]
    simp
  have hkeeps_f := hbody.keepsLoop.trans (Assembly.KeepsLoop.stable.drops hdrop)
  have hkeeps_n : f.KeepsLoop n := hpost.keepsLoop.trans
    ((Assembly.KeepsLoop.stable.places hplaceTest).trans (hcond.keepsLoop.trans
      (Assembly.KeepsLoop.stable.appends hagain)))
  -- jumps in the body are jumps of this loop, so `target` plays no part
  have hexits_f := hpost.exits_of_loop hkeeps_f hplaceTest hFh hkeeps_n hclose hF
  rw [hlength] at hexits_f
  have hexits_e := hexits_f.of_keepsLoop (Assembly.KeepsLoop.stable.drops hdrop)
  obtain ⟨target_g, hexits_g⟩ : ∃ target, Exits F g env.length target := by
    obtain ⟨c_f, hloops_f, -, -⟩ := hkeeps_f _ _ rfl
    exact hpost.exists_exits_of_post (fun c' rest hloops => (hexits_f c' rest hloops).1)
      (by simp [hloops_f])
  have htestAt : h.code.size = g.code.size := by rw [hplaceTest.code]
  have hexitAt : s'.code.size = n.code.size := by rw [hclose.code]
  have hstartAt : F.Reaches ⟨s.code.size, env.values, w⟩ ⟨h.code.size, env.values, w⟩ := by
    rw [← htest.code, ← hstart.code, htestAt]
    exact hjump.reaches_jump (hplace.contains hFd) (hplaceTest.position hFh) rfl
  unfold execForm
  refine Follows.after ?_ hstartAt rfl
  -- what is left: the test, the body, its variables, what follows the body, its variables
  refine follows_rounds h.code.size d.code.size f.code.size s'.code.size env.length target_g
    ?_ ?_ ?_ ?_ ?_ fuel (rfl : env.names = env.names) w
  · intro env' w' y goal hnames' hy
    have hnames_h : h.slots.names = env'.names.map some := by
      rw [hplaceTest.slots, hnames_g, hnames, hnames']
    refine hcond.follows_test (fun _ _ => rfl) hagain hFn hnames_h (hnames' ▸ hscoped.1.1)
      hfaithful.2.1 (hplace.position hFd) w' fun v w'' => ?_
    have hnext := hy v w''
    rw [hexitAt, hplace.code] at hnext
    cases hv : R.isNil v <;> simpa [hv] using hnext
  · intro env' w' hnames'
    have hlength' : env'.length = env.length := by
      rw [← Env.names_length, hnames', Env.names_length]
    rw [hlength']
    refine hdrop.follows_endBlock hFf hlength'.ge (execForms_extends body htidy) ?_
    exact hexecuted env' w' env.length _ (by rw [hnames', ← hnames]; exact hnames_d)
      (hnames'.symm ▸ hscoped.1.2) hexits_e hlength'.ge
  · intro env' w' r w'' hrun
    exact endBlock_names (execForms_extends body htidy) hrun
  · intro env' w' hnames'
    have hlength' : env'.length = env.length := by
      rw [← Env.names_length, hnames', Env.names_length]
    rw [htestAt]
    cases post with
    | none =>
        rw [show g.code = f.code from hexecutedPost]
        exact Follows.pure .here
    | some after =>
        exact hexecutedPost env' w' env.length target_g (by rw [hnames', ← hnames, hnames_f])
          (hnames'.symm ▸ hscoped.2) hexits_g hlength'.ge
  · intro env' w' r w'' hrun
    cases post with
    | none =>
        cases hrun
        exact .of_names rfl
    | some after =>
        have hbind : after.isBind = false := by simpa [Form.isTidy] using hfaithful.1.isTidy
        have hext := execForm_extends after (fun p hp => (hfaithful.2.2.2 p hp).isTidy) hrun
        rwa [Form.bound_of_isBind hbind] at hext

end Loop

/-- Forms in order. Where control gets past the first one, the others find the variables that it
has bound. -/
theorem executed_formsCons {f : Form} {fs : List Form} {s t s' : Assembly}
    (hf : Code functions (.form f) s t) (hfs : Code functions (.forms fs) t s')
    (htidy : ∀ g ∈ f.parts, g.isTidy = true) (hexecuted : (Piece.form f).Executed F R fuel s t)
    (hexecutedRest : (Piece.forms fs).Executed F R fuel t s') :
    (Piece.forms (f :: fs)).Executed F R fuel s s' := by
  intro env w depth target hnames hscoped hexits hdepth
  simp only [areScoped, Bool.and_eq_true] at hscoped
  refine Follows.bind_continues (hexecuted env w depth target hnames hscoped.1
    (hexits.of_keepsLoop hfs.keepsLoop) hdepth) fun r w' hrun => ?_
  obtain ⟨flow, env'⟩ := r
  cases flow with
  | next =>
      have hnames' : env'.names = f.bound ++ env.names := execForm_extends f htidy hrun
      have hlength : env.length ≤ env'.length := by
        have := congrArg List.length hnames'
        simp only [Env.names_length, List.length_append] at this
        omega
      refine hexecutedRest env' w' depth target ?_ (hnames' ▸ hscoped.2) hexits
        (hdepth.trans hlength)
      rw [hf.names htidy, hnames, hnames', List.map_append]
      rfl
  | ret v => exact ⟨_, rfl, rfl⟩
  | breakLoop => exact Follows.pure .here
  | continueLoop => exact Follows.pure .here

/-- Code for effects does what the forms mean. -/
theorem Code.executed (hnever : NeverReturns R functions) {p : Piece} {s s' : Assembly}
    (h : Code functions p s s') (hF : F.Contains s')
    (hfaithful : ∀ g ∈ p.parts, Faithful F R g) : p.Executed F R fuel s s' := by
  induction h with
  | block hbody hdrop ih =>
      simp only [Piece.parts, Form.parts, List.forall_mem_cons] at hfaithful
      intro env w depth target hnames hscoped hexits hdepth
      have hexits_t := hexits.of_keepsLoop (Assembly.KeepsLoop.stable.drops hdrop)
      have htidy := fun g hg => (hfaithful.2 g hg).isTidy
      exact hdrop.follows_endBlock hF hdepth (execForms_extends _ htidy)
        (ih (hdrop.contains hF) hfaithful.2 env w depth target hnames hscoped hexits_t hdepth)
  | branch hlabel hcond hjump hbody hdrop hplace _ ihbody =>
      have hparts := hfaithful
      simp only [Piece.parts, Form.parts, List.forall_mem_cons, List.forall_mem_append] at hparts
      have hFd := hdrop.contains (hplace.contains hF)
      exact executed_branch hlabel hcond hjump hbody hdrop hplace hF hfaithful
        (ihbody hFd hparts.2.2.1)
  | branchElse hends hlabel hcond hjump hbody hdrop hplace hother _ ihbody ihother =>
      have hparts := hfaithful
      simp only [Piece.parts, Form.parts, optionParts, List.forall_mem_cons,
        List.forall_mem_append] at hparts
      have hFd := hdrop.contains (hplace.contains (hF.of_grows hother.grows))
      exact executed_branchElse hnever hends hlabel hcond hjump hbody hdrop hplace hother hF
        hfaithful (ihbody hFd hparts.2.2.1) (ihother hF hparts.2.2.2)
  | branchJoin hlabel hcond hjump hbody hdrop hdone hskip hplace hother hjoin _ ihbody ihother =>
      have hparts := hfaithful
      simp only [Piece.parts, Form.parts, optionParts, List.forall_mem_cons,
        List.forall_mem_append] at hparts
      have hFk := hjoin.contains hF
      have hFe := hdone.contains (hskip.contains (hplace.contains (hFk.of_grows hother.grows)))
      exact executed_branchJoin hlabel hcond hjump hbody hdrop hdone hskip hplace hother hjoin hF
        hfaithful (ihbody (hdrop.contains hFe) hparts.2.2.1) (ihother hFk hparts.2.2.2)
  | loop htest hstart hjump hplace hbody hdrop hpost hplaceTest hcond hagain hclose ihbody ihpost
      _ =>
      have hparts := hfaithful
      simp only [Piece.parts, Form.parts, List.forall_mem_cons, List.forall_mem_append] at hparts
      have hFk := hagain.contains (hF.of_grows (.of_closes hclose))
      have hFg := hplaceTest.contains (hFk.of_grows hcond.grows)
      have hFe := hdrop.contains (hFg.of_grows hpost.grows)
      exact executed_loop htest hstart hjump hplace hbody hdrop hpost hplaceTest hcond hagain hclose
        hF hfaithful (ihbody hFe hparts.2.2.1) (ihpost hFg hparts.2.2.2)
  | noPost => rfl
  | post _ _ ih => exact ih hF hfaithful
  | postAt _ hplace _ ih =>
      intro env w depth target hnames hscoped hexits hdepth
      rw [← hplace.code]
      exact ih hF hfaithful env w depth target (by rw [hplace.slots, hnames]) hscoped hexits hdepth
  | retNil hload hret => exact executed_retNil hload hret hF
  | ret hfirst hrest hret =>
      simp only [Piece.parts, Form.parts, List.forall_mem_cons] at hfaithful
      exact executed_ret hfirst hrest hret hF hfaithful.2
  | jump hf hloops hfind hleave => exact executed_jump hf hloops hfind hleave hF
  | bind hinit hname =>
      simp only [Piece.parts, Form.parts, List.forall_mem_cons] at hfaithful
      exact executed_bind hinit hname hF hfaithful.2
  | rebindSlot hvalue hfind hset =>
      simp only [Piece.parts, Form.parts, List.forall_mem_cons] at hfaithful
      exact executed_rebindSlot hvalue hfind hset hF hfaithful.2
  | rebindDynamic hvalue hfind _ => exact executed_rebindDynamic hvalue hfind
  | set htarget hindex hvalue hset =>
      simp only [Piece.parts, Form.parts, List.forall_mem_cons] at hfaithful
      exact executed_set htarget hindex hvalue hset hF hfaithful.2
  | never hconvention hemit hload hargs hn hcall hforget =>
      exact executed_never hnever hconvention (.application rfl hload hargs hn hcall) hforget hF
        hfaithful
  | effect hf hdrop => exact executed_effect hf hdrop hF hfaithful
  | noForms => exact fun env w depth target _ _ _ _ => Follows.pure .here
  | formsCons hf hfs ihf ihfs =>
      simp only [Piece.parts, listParts, List.forall_mem_append] at hfaithful
      exact executed_formsCons hf hfs (fun g hg => (hfaithful.1 g hg).isTidy)
        (ihf (hF.of_grows hfs.grows) hfaithful.1) (ihfs hF hfaithful.2)
  | _ => trivial

end Execution

end StackCompiler
