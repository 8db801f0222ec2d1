import StackCompiler.Proofs.FormCode

/-!
Compiled functions do what their bodies mean. A run of the machine returns what the body evaluates
to, or ends with the error that the evaluation ends with; in both cases the host has been called in
the same way and is left in the same state.

There is one exception. Constants that are equal as numbers share one place in the pool, so the two
zeros are loaded alike. The theorem asks that the host tells literals apart only if the pool does.
-/

namespace StackCompiler

open CompiledFunction

/-! ### Floating point literals -/

/-- All floating point numbers that get into the pool are literals of the given forms. -/
def FloatsWithin (fs : List Form) (s s' : Assembly) : Prop :=
  ∀ x, .float x ∈ s'.pool.entries → .float x ∈ s.pool.entries ∨ .float x ∈ fs

theorem FloatsWithin.of_eq {fs : List Form} {s s' : Assembly} (h : s'.pool = s.pool) :
    FloatsWithin fs s s' :=
  fun _ hx => .inl (h ▸ hx)

theorem FloatsWithin.stable (fs : List Form) : Stable (FloatsWithin fs) where
  refl _ := .of_eq rfl
  trans h₁ h₂ := by
    intro x hx
    obtain hx | hx := h₂ x hx
    · exact h₁ x hx
    · exact .inr hx
  appends h := .of_eq h.pool
  discard _ _ := .of_eq rfl
  addConstant s c hc := by
    intro x hx
    obtain hx | hx := Pool.mem_add hx
    · exact .inl hx
    · exact absurd hx.symm (hc x)
  forgets h := by
    obtain ⟨slots, rfl, -⟩ := h
    exact .of_eq rfl
  relabels h := by
    obtain ⟨slots, old, rest, rfl, -⟩ := h
    exact .of_eq rfl
  creates h := by
    obtain ⟨name, -, rfl⟩ := h
    exact .of_eq rfl
  places h := by
    obtain ⟨labels, rfl, -⟩ := h
    exact .of_eq rfl
  finds _ h := by
    obtain ⟨-, rfl⟩ | ⟨-, -, rfl⟩ := h <;> exact .of_eq rfl
  loop h hclose := by
    obtain ⟨c, rest, -, ⟨-, rfl⟩ | ⟨l, -, labels, rfl, -⟩⟩ := hclose <;> exact h

/-- Code loads no floating point number that is not written in it. -/
theorem Code.floatsWithin {functions : SignatureTable} {p : Piece} {s s' : Assembly}
    (h : Code functions p s s') : FloatsWithin p.parts s s' := by
  refine (FloatsWithin.stable p.parts).code h fun x hx t y hy => ?_
  obtain hy | hy := Pool.mem_add hy
  · exact .inl hy
  · cases hy
    exact .inr hx

/-! ### Bodies -/

section

variable {R : Runtime} {functions : SignatureTable} {fuel : Nat}

theorem Env.ofArgs_names {params : List String} {args : List R.Value}
    (h : args.length = params.length) : (Env.ofArgs params args).names = params.reverse := by
  rw [Env.names, Env.ofArgs, List.map_reverse, List.map_fst_zip h.ge]

theorem Env.ofArgs_values {params : List String} {args : List R.Value}
    (h : args.length = params.length) : (Env.ofArgs params args).values = args.reverse := by
  rw [Env.values, Env.ofArgs, List.map_reverse, List.map_snd_zip h.le]

theorem lastTerminates_of_endsInReturn {body : Block} (h : endsInReturn body = true) :
    lastTerminates functions body = true := by
  induction body with
  | nil => cases h
  | cons f rest ih =>
      cases rest with
      | nil => cases f <;> simp_all [endsInReturn, Form.isReturn, lastTerminates, Form.terminates]
      | cons g rest => exact ih (by simpa [endsInReturn] using h)

/-- The return that is added to a body returns what control getting past the body means. -/
theorem evalBody_eq (hnever : NeverReturns R functions) (params : List String) (body : Block)
    (args : List R.Value) (w : World R) :
    evalBody R fuel params body args w = (do
      match ← execForms R fuel body.withReturn (Env.ofArgs params args) with
      | (.ret v, _) => return v
      | _ => throw .stuck : Run R R.Value) w := by
  unfold evalBody Block.withReturn
  split
  · rename_i hends
    refine bind_congr_of_ok fun r w' hr => ?_
    obtain ⟨flow, env⟩ := r
    cases flow with
    | next => exact absurd hr (execForms_ne_next hnever body (lastTerminates_of_endsInReturn hends))
    | _ => rfl
  · rw [execForms_append, bind_assoc]
    refine bind_congr_of_ok fun r w' _ => ?_
    obtain ⟨flow, env⟩ := r
    cases flow <;> rfl

theorem areScoped_append {scope : List String} {fs gs : List Form} :
    areScoped scope (fs ++ gs) =
      (areScoped scope fs && areScoped (boundNames fs ++ scope) gs) := by
  induction fs generalizing scope with
  | nil => rfl
  | cons f fs ih => simp [areScoped, boundNames, ih, Bool.and_assoc]

theorem areScoped_withReturn {scope : List String} {body : Block}
    (h : areScoped scope body = true) : areScoped scope body.withReturn = true := by
  unfold Block.withReturn
  split
  · exact h
  · rw [areScoped_append, h]
    rfl

/-- Literals that are equal as numbers are the same value to the host. -/
def FloatsAgree (R : Runtime) (body : Block) : Prop :=
  ∀ x y, .float x ∈ listParts body → .float y ∈ listParts body → x.canonical = y.canonical →
    R.constant (.float x) = R.constant (.float y)

/-- Then every literal is loaded as it is written. -/
theorem FloatsAgree.literal {F : CompiledFunction} {body : Block}
    (hfloats : FloatsAgree R body)
    (hwithin : ∀ x, .float x ∈ F.constants → .float x ∈ listParts body) {x : Binary64}
    (hx : .float x ∈ listParts body) : F.literal R (.float x) = R.constant (.float x) := by
  unfold CompiledFunction.literal CompiledFunction.resolve
  cases hfind : F.constants.find? (·.key == (Constant.float x).key) with
  | none => rfl
  | some d =>
      have hkey : d.key = (Constant.float x).key := by simpa using Array.find?_some hfind
      have hmem := Array.mem_of_find?_eq_some hfind
      cases d with
      | float y =>
          have hcanonical : y.canonical = x.canonical := by simpa [Constant.key] using hkey
          exact hfloats y x (hwithin y hmem) hx hcanonical
      | _ => simp [Constant.key] at hkey

/-- The machine follows the evaluation of the body. -/
theorem follows_evalBody (fuel : Nat) {name : String} {params : List String} {body : Block}
    {F : CompiledFunction} (hcompile : ofBlock functions name params body = .ok F)
    (hscoped : areScoped params.reverse body = true)
    (htidy : ∀ g ∈ listParts body, g.isTidy = true) (hnever : NeverReturns R functions)
    (hfloats : FloatsAgree R body) {args : List R.Value} (hargs : args.length = params.length)
    (w : World R) :
    F.Follows (start args w) (evalBody R fuel params body args) fun v => .returned v := by
  obtain ⟨s, hcode, hfinish⟩ := ofBlock_ok hcompile
  have hF := hfinish.contains
  have hwithin : ∀ x, .float x ∈ F.constants → .float x ∈ listParts body := by
    intro x hx
    rw [hfinish.constants] at hx
    obtain hx | hx := hcode.floatsWithin x hx
    · simp [Assembly.ofParams, Pool.empty] at hx
    · exact (mem_parts_withReturn hx).resolve_right (by simp)
  have hfaithful : ∀ g ∈ listParts body.withReturn, Faithful F R g := by
    intro g hg
    obtain hg | rfl := mem_parts_withReturn hg
    · cases g with
      | float x => exact hfloats.literal hwithin hg
      | _ => exact htidy _ hg
    · rfl
  have hnames : (Assembly.ofParams params).slots.names =
      (Env.ofArgs params args).names.map some := by
    rw [Assembly.ofParams_names, Env.ofArgs_names hargs]
  have hscoped' : areScoped (Env.ofArgs params args).names body.withReturn = true := by
    rw [Env.ofArgs_names hargs]
    exact areScoped_withReturn hscoped
  -- no loop is open around the body, so there is nothing to jump out of
  have hexits : Exits F s 0 fun _ => 0 := by
    intro c rest hloops
    rw [hfinish.loops] at hloops
    cases hloops
  have hrun : F.Follows ⟨0, (Env.ofArgs params args).values, w⟩
      (execForms R fuel body.withReturn (Env.ofArgs params args))
      (flowGoal s.code.size 0 fun _ => 0) :=
    hcode.executed hnever hF hfaithful _ w 0 _ hnames hscoped' hexits (Nat.zero_le _)
  rw [Env.ofArgs_values hargs] at hrun
  refine Follows.congr ?_ (evalBody_eq hnever params body args w).symm
  refine Follows.bind_continues hrun fun r w' _ => ?_
  obtain ⟨flow, env⟩ := r
  cases flow with
  | ret v => exact ⟨v, rfl, rfl⟩
  | _ => trivial

/-- Every finite evaluation of a body is matched by a run of the compiled function: it returns the
same value or ends with the same error, after the same calls and with the same variables and
heap. -/
theorem run_matches_evaluation {name : String} {params : List String} {body : Block}
    {F : CompiledFunction} (hcompile : ofBlock functions name params body = .ok F)
    (hscoped : areScoped params.reverse body = true)
    (htidy : ∀ g ∈ listParts body, g.isTidy = true) (hnever : NeverReturns R functions)
    (hfloats : FloatsAgree R body) {args : List R.Value} (hargs : args.length = params.length)
    (w : World R) :
    (∀ v w', evalBody R fuel params body args w = .ok v w' →
      ∃ n, F.run n (start args w) = .returned v w') ∧
    ∀ w', evalBody R fuel params body args w = .error .panic w' →
      ∃ n, F.run n (start args w) = .raised w' := by
  have hfollows := follows_evalBody fuel hcompile hscoped htidy hnever hfloats hargs w
  exact ⟨fun v w' h => (hfollows.attains h).run_eq_returned,
    fun w' h => (hfollows.raises h).run_eq_raised⟩

end

/-! ### A host for examples -/

/-- A host that knows little more than integers, their sum and their order. Everything else raises
an error, all calls included. -/
def Runtime.integers : Runtime where
  Value := Constant
  Heap := Unit
  constant c := c
  isNil v := v == .symbol Host.nil
  isNil_iff := Constant.beq_nil_iff
  unary _ _ := throw ()
  binary
    | .plus, .int a, .int b => return .int (a + b)
    | .lss, .int a, .int b => return .symbol (if a < b then Host.truth else Host.nil)
    | _, _, _ => throw ()
  concat _ := throw ()
  arrayRef _ _ := throw ()
  arraySet _ _ _ := throw ()
  call _ _ := throw ()

def World.integers : World Runtime.integers :=
  ⟨⟨fun _ => .symbol Host.nil, ()⟩, []⟩

/-- Adds up the numbers from zero to `n`, and leaves the loop by a `break`. -/
def sumBody : Block :=
  [.bind "i" (.int 0), .bind "sum" (.int 0),
    .loop (.bool true)
      [.branch (.op .less .int [.var "n", .var "i"]) [.breakLoop] none,
        .bind "next" (.op .add .int [.var "sum", .var "i"]),
        .rebind "sum" (.var "next")]
      (some (.rebind "i" (.op .add .int [.var "i", .int 1]))),
    .ret [.var "sum"]]

theorem run_matches_evaluation_sumBody :
    ∃ F, ofBlock .empty "sum" ["n"] sumBody = .ok F ∧
      evalBody Runtime.integers 5 ["n"] sumBody [Constant.int 3] World.integers =
        .ok (Constant.int 6) World.integers ∧
      ∃ n, F.run n (start (R := Runtime.integers) [Constant.int 3] World.integers) =
        .returned (Constant.int 6) World.integers := by
  have hok : (ofBlock .empty "sum" ["n"] sumBody).isOk = true := by decide +kernel
  have heval : evalBody Runtime.integers 5 ["n"] sumBody [Constant.int 3] World.integers =
      .ok (Constant.int 6) World.integers := by rfl
  cases hcompile : ofBlock .empty "sum" ["n"] sumBody with
  | error e =>
      rw [hcompile] at hok
      cases hok
  | ok F =>
      refine ⟨F, rfl, heval, (run_matches_evaluation hcompile ?_ ?_ ?_ ?_ ?_ _).1 _ _ heval⟩
      · decide
      · decide
      · intro name hname
        simp [SignatureTable.convention, SignatureTable.get?, SignatureTable.empty] at hname
      · intro x y hx
        simp [sumBody, listParts, Form.parts, optionParts] at hx
      · rfl

/-- Two zeros, which are equal as numbers and are different values. -/
def zerosBody : Block :=
  [.bind "x" (.float .zero), .ret [.float (-.zero)]]

/-- Where the host tells literals apart and the pool does not, code may load another literal than
the one that is written. -/
theorem run_confuses_zeros :
    ∃ F, ofBlock .empty "f" [] zerosBody = .ok F ∧
      evalBody Runtime.integers 0 [] zerosBody [] World.integers =
        .ok (Constant.float (-.zero)) World.integers ∧
      F.run 3 (start (R := Runtime.integers) [] World.integers) =
        .returned (Constant.float .zero) World.integers ∧
      Constant.float (-.zero) ≠ Constant.float .zero := by
  have hcompiled : (ofBlock .empty "f" [] zerosBody).toOption =
      some ⟨"f", [], ⟨#[.constRef 0, .constRef 0, .ret], #[], 2⟩, #[.float .zero]⟩ := by
    decide +kernel
  cases hcompile : ofBlock .empty "f" [] zerosBody with
  | error e =>
      rw [hcompile] at hcompiled
      cases hcompiled
  | ok F =>
      rw [hcompile] at hcompiled
      cases hcompiled
      exact ⟨_, rfl, rfl, rfl, by decide⟩

end StackCompiler
