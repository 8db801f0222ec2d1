import StackCompiler.Proofs.ExprMeaning

/-!
Forms that do what a piece of source does. The blocks of the source keep their variables apart,
while forms have them all in one environment: it is the blocks one after the other, the innermost
first, and leaving a block drops as many variables as it has declared.

`Matches` compares whole computations, so that also errors and calls are the same on both sides. It
is kept by every way to put statements together: one after the other, a block, a choice, a loop.
-/

namespace StackCompiler

open Source

/-! ### Variables -/

theorem update?_append {R : Runtime} (name : String) (v : R.Value) (scope env : Env R) :
    Env.update? name v (scope ++ env) =
      match Env.update? name v scope with
      | some scope => some (scope ++ env)
      | none => (Env.update? name v env).map (scope ++ ·) := by
  induction scope with
  | nil => simp [Env.update?]
  | cons x rest ih =>
      obtain ⟨y, old⟩ := x
      by_cases hname : y = name
      · simp [Env.update?, hname]
      · simp only [List.cons_append, Env.update?, if_neg hname, ih]
        cases Env.update? name v rest <;> simp [Function.comp_def]

theorem Source.Scopes.update?_flatten {R : Runtime} (name : String) (v : R.Value)
    (vars : Scopes R.Value) :
    Env.update? name v vars.flatten = (vars.set? name v).map List.flatten := by
  induction vars with
  | nil => rfl
  | cons scope outer ih =>
      rw [List.flatten_cons, update?_append, ih, Scopes.set?]
      cases Env.update? name v scope <;> simp [Function.comp_def]

namespace ScalarHost

variable {R : Runtime} {H : ScalarHost R}

theorem Holds.length_flatten {known : Scopes Scalar} {vars : Scopes R.Value}
    (h : H.Holds known vars) : vars.flatten.length = known.flatten.length := by
  induction h with
  | nil => rfl
  | cons hscope _ ih => rw [List.flatten_cons, List.flatten_cons, List.length_append,
      List.length_append, hscope.length_eq, ih]

/-- A variable that is declared may hold what it should. -/
theorem Holds.declare {outer : Scopes Scalar} {scope scope' : List (String × Scalar)}
    {vars : Scopes R.Value} (h : H.Holds (scope :: outer) vars) {name : String} {kind : Kind}
    (hscope : declare? scope name kind = some scope') {v : R.Value}
    (hv : kind = .string → H.isString v) :
    H.Holds (scope' :: outer) (vars.declare name v) := by
  obtain _ | ⟨hvalues, houter⟩ := h
  cases kind with
  | scalar s =>
      simp only [declare?] at hscope
      by_cases hname : name = blank
      · simp only [if_pos hname] at hscope
        cases hscope
        simpa only [Scopes.declare, if_pos hname] using .cons hvalues houter
      · simp only [if_neg hname] at hscope
        cases hscope
        simp only [Scopes.declare, if_neg hname]
        exact .cons (.cons ⟨rfl, fun h => hv (congrArg Kind.scalar h)⟩ hvalues) houter
  | _ => cases hscope

theorem update?_of_forall₂ {scope : List (String × Scalar)} {values : List (String × R.Value)}
    (h : List.Forall₂ H.HoldsVar scope values) {name : String} {v : R.Value}
    (hv : ∀ s, scope.lookup name = some s → s = .string → H.isString v) :
    (scope.lookup name = none ∧ Env.update? name v values = none) ∨
      ∃ s values', scope.lookup name = some s ∧ Env.update? name v values = some values' ∧
        List.Forall₂ H.HoldsVar scope values' := by
  induction h with
  | nil => exact .inl ⟨rfl, rfl⟩
  | cons hkv hrest ih =>
      rename_i k a scope values
      obtain ⟨x, s⟩ := k
      obtain ⟨y, old⟩ := a
      obtain ⟨rfl, hstring⟩ := hkv
      by_cases hname : name = x
      · subst hname
        refine .inr ⟨s, (name, v) :: values, by simp, by simp [Env.update?], ?_⟩
        exact .cons ⟨rfl, hv s (by simp)⟩ hrest
      · have hne : (name == x) = false := by simpa using hname
        simp only [List.lookup_cons, hne] at hv ⊢
        simp only [Env.update?, if_neg (Ne.symm hname)]
        obtain ⟨hnone, hnone'⟩ | ⟨s', values', hsome, hsome', hvalues⟩ := ih hv
        · exact .inl ⟨hnone, by simp [hnone']⟩
        · exact .inr ⟨s', (x, old) :: values', hsome, by simp [hsome'],
            .cons ⟨rfl, hstring⟩ hvalues⟩

/-- A variable that is known may get another value. -/
theorem Holds.set? {known : Scopes Scalar} {vars : Scopes R.Value} (h : H.Holds known vars)
    {name : String} {s : Scalar} (hs : known.get? name = some s) {v : R.Value}
    (hv : s = .string → H.isString v) :
    ∃ vars', vars.set? name v = some vars' ∧ H.Holds known vars' := by
  induction h with
  | nil => cases hs
  | cons hscope houter ih =>
      rename_i scope values outer vars
      simp only [Scopes.get?] at hs
      have hv' : ∀ s', scope.lookup name = some s' → s' = .string → H.isString v := by
        intro s' hs'
        rw [hs'] at hs
        cases hs
        exact hv
      obtain ⟨hnone, hnone'⟩ | ⟨s', values', -, hsome, hvalues⟩ := update?_of_forall₂ hscope hv'
      · rw [hnone] at hs
        obtain ⟨vars', hvars', hholds⟩ := ih hs
        exact ⟨values :: vars', by simp [Scopes.set?, hnone', hvars'], .cons hscope hholds⟩
      · exact ⟨values' :: vars, by simp [Scopes.set?, hsome], .cons hvalues houter⟩

variable (H)

/-- Control goes on, and `known` is declared. -/
def Next (known : Scopes Scalar) (r : Outcome R) : Prop :=
  r.1 = .next ∧ H.Holds known r.2

def Always (known : Scopes Scalar) (r : Outcome R) : Prop :=
  H.Holds known r.2

/-- The blocks around this one keep their variables. If control goes on, `scope` is declared. -/
def Within (outer : Scopes Scalar) (scope : List (String × Scalar)) (r : Outcome R) : Prop :=
  ∃ inner, H.Holds (inner :: outer) r.2 ∧ (r.1 = .next → inner = scope)

end ScalarHost

/-! ### Control -/

/-- Forms do what source does where `known` is declared, and `after` holds in the end. -/
structure Matches {R : Runtime} (H : ScalarHost R) (known : Scopes Scalar)
    (after : Outcome R → Prop) (run : Scopes R.Value → Run R (Outcome R))
    (exec : Env R → Run R (Flow R.Value × Env R)) : Prop where
  eq : ∀ {vars}, H.Holds known vars →
    exec vars.flatten = (do let r ← run vars; return (r.1, r.2.flatten))
  after : ∀ {vars w r w'}, H.Holds known vars → run vars w = .ok r w' → after r

namespace Matches

variable {R : Runtime} {H : ScalarHost R} {known outer : Scopes Scalar}
  {scope scope' : List (String × Scalar)} {run run' : Scopes R.Value → Run R (Outcome R)}
  {exec exec' : Env R → Run R (Flow R.Value × Env R)}

theorem mono {p q : Outcome R → Prop} (h : Matches H known p run exec) (hpq : ∀ r, p r → q r) :
    Matches H known q run exec :=
  ⟨h.eq, fun hvars hr => hpq _ (h.after hvars hr)⟩

theorem within_of_next (h : Matches H known (H.Next (scope :: outer)) run exec) :
    Matches H known (H.Within outer scope) run exec :=
  h.mono fun _ hr => ⟨scope, hr.2, fun _ => rfl⟩

theorem within_of_always (h : Matches H known (H.Always (scope :: outer)) run exec) :
    Matches H known (H.Within outer scope) run exec :=
  h.mono fun _ hr => ⟨scope, hr, fun _ => rfl⟩

/-- Nothing at all. -/
theorem nothing (known : Scopes Scalar) :
    Matches H known (H.Next known) (fun vars => return (.next, vars))
      (fun env => return (.next, env)) where
  eq _ := by simp
  after hvars hr := by
    obtain ⟨rfl, -⟩ := pure_eq_ok.1 hr
    exact ⟨rfl, hvars⟩

/-- One after the other, as long as control goes on. -/
theorem andThen (h : Matches H known (H.Within outer scope) run exec)
    (h' : Matches H (scope :: outer) (H.Within outer scope') run' exec') :
    Matches H known (H.Within outer scope')
      (fun vars => do
        match ← run vars with
        | (.next, vars) => run' vars
        | (flow, vars) => return (flow, vars))
      (fun env => do
        match ← exec env with
        | (.next, env) => exec' env
        | (flow, env) => return (flow, env)) where
  eq := by
    intro vars hvars
    funext w
    simp only [h.eq hvars, bind_assoc, pure_bind]
    refine bind_congr_of_ok fun r w' hr => ?_
    obtain ⟨flow, vars'⟩ := r
    obtain ⟨inner, hinner, hnext⟩ := h.after hvars hr
    cases flow with
    | next =>
        cases hnext rfl
        exact congrFun (h'.eq hinner) w'
    | _ => rfl
  after := by
    intro vars w r w' hvars hr
    obtain ⟨⟨flow, vars'⟩, w₁, hfirst, hr⟩ := bind_eq_ok.1 hr
    obtain ⟨inner, hinner, hnext⟩ := h.after hvars hfirst
    cases flow with
    | next =>
        cases hnext rfl
        exact h'.after hinner hr
    | breakLoop | continueLoop | ret v =>
        obtain ⟨rfl, -⟩ := pure_eq_ok.1 hr
        exact ⟨inner, hinner, by simp⟩

theorem always_inBlock (h : Matches H ([] :: known) (H.Within known scope) run exec)
    {vars : Scopes R.Value} {w w' : World R} {r : Outcome R} (hvars : H.Holds known vars)
    (hr : inBlock run vars w = .ok r w') : H.Always known r := by
  obtain ⟨⟨flow, vars'⟩, w₁, hrun, hr⟩ := bind_eq_ok.1 hr
  obtain ⟨rfl, -⟩ := pure_eq_ok.1 hr
  obtain ⟨inner, hinner, -⟩ := h.after (.cons .nil hvars) hrun
  obtain _ | ⟨-, houter⟩ := hinner
  exact houter

/-- The variables of a block end with it. -/
theorem block (h : Matches H ([] :: known) (H.Within known scope) run exec) :
    Matches H known (H.Always known) (inBlock run) (fun env => endBlock env (exec env)) where
  eq := by
    intro vars hvars
    have hinner : H.Holds ([] :: known) ([] :: vars) := .cons .nil hvars
    have hexec := h.eq hinner
    rw [List.flatten_cons, List.nil_append] at hexec
    funext w
    simp only [endBlock, inBlock, hexec, bind_assoc, pure_bind]
    refine bind_congr_of_ok fun r w' hr => ?_
    obtain ⟨inner, hinner, -⟩ := h.after hinner hr
    obtain ⟨flow, vars'⟩ := r
    obtain _ | ⟨hvalues, houter⟩ := hinner
    rename_i values vars'
    have hlength : vars.flatten.length = vars'.flatten.length := by
      rw [hvars.length_flatten, ScalarHost.Holds.length_flatten houter]
    have hlowest : lowest vars.flatten.length (values :: vars').flatten = vars'.flatten := by
      rw [hlength, lowest, List.flatten_cons, List.length_append, Nat.add_sub_cancel,
        List.drop_left]
    rw [hlowest]
    rfl
  after := h.always_inBlock

/-- A block that declares nothing needs no end. -/
theorem inBlock_of_always (h : Matches H ([] :: known) (H.Always ([] :: known)) run exec) :
    Matches H known (H.Always known) (inBlock run) exec where
  eq := by
    intro vars hvars
    have hinner : H.Holds ([] :: known) ([] :: vars) := .cons .nil hvars
    have hexec := h.eq hinner
    rw [List.flatten_cons, List.nil_append] at hexec
    funext w
    simp only [inBlock, hexec, bind_assoc, pure_bind]
    refine bind_congr_of_ok fun r w' hr => ?_
    have hr := h.after hinner hr
    obtain ⟨flow, vars'⟩ := r
    obtain _ | ⟨hvalues, houter⟩ := hr
    cases hvalues
    rfl
  after := h.within_of_always.always_inBlock

/-- Rounds of a loop. The induction is on their number; a round starts with what is declared before
the loop, however the body of the last one has ended. -/
theorem rounds (test : Env R → Run R R.Value) {holds : Scopes R.Value → Run R Bool}
    (htest : ∀ {vars}, H.Holds known vars →
      holds vars = (do let c ← test vars.flatten; return !R.isNil c))
    (hbody : Matches H known (H.Always known) run exec)
    (hpost : Matches H known (H.Next known) run' exec') (n : Nat) :
    Matches H known (H.Always known) (Source.rounds holds run run' n)
      (execRounds test exec exec' n) := by
  induction n with
  | zero => exact ⟨fun _ => rfl, fun _ hr => absurd hr throw_ne_ok⟩
  | succ n ih =>
      constructor
      · intro vars hvars
        funext w
        simp only [execRounds, Source.rounds, htest hvars, bind_assoc, pure_bind]
        refine bind_congr_of_ok fun c w₁ _ => ?_
        cases R.isNil c with
        | true => simp
        | false =>
            simp only [Bool.false_eq_true, if_false, Bool.not_false, if_true, hbody.eq hvars,
              bind_assoc, pure_bind]
            refine bind_congr_of_ok fun r w₂ hr => ?_
            have hvars' := hbody.after hvars hr
            obtain ⟨flow, vars'⟩ := r
            cases flow with
            | ret v => rfl
            | breakLoop => rfl
            | next | continueLoop =>
                simp only [hpost.eq hvars', bind_assoc, pure_bind]
                refine bind_congr_of_ok fun r' w₃ hr' => ?_
                -- what stands after the body always goes on to the next round
                obtain ⟨hnext, hknown⟩ := hpost.after hvars' hr'
                obtain ⟨flow', vars''⟩ := r'
                cases hnext
                exact congrFun (ih.eq hknown) w₃
      · intro vars w r w' hvars hr
        simp only [Source.rounds] at hr
        obtain ⟨go, w₁, -, hr⟩ := bind_eq_ok.1 hr
        cases go with
        | false =>
            obtain ⟨rfl, -⟩ := pure_eq_ok.1 hr
            exact hvars
        | true =>
            obtain ⟨⟨flow, vars'⟩, w₂, hrun, hr⟩ := bind_eq_ok.1 hr
            have hvars' := hbody.after hvars hrun
            cases flow with
            | ret v | breakLoop =>
                obtain ⟨rfl, -⟩ := pure_eq_ok.1 hr
                exact hvars'
            | next | continueLoop =>
                obtain ⟨r', w₃, hafter, hr⟩ := bind_eq_ok.1 hr
                exact ih.after (hpost.after hvars' hafter).2 hr

end Matches

/-! ### Values and stores -/

section

variable {R : Runtime} {fuel : Nat} {f : Form} {vars : Env R} {x : Run R R.Value}

theorem execForms_singleton (f : Form) (vars : Env R) :
    execForms R fuel [f] vars = execForm R fuel f vars := by
  rw [execForms]
  refine (bind_congr ?_).trans (bind_pure _)
  rintro ⟨flow, vars'⟩
  cases flow <;> rfl

theorem Computes.execForms_singleton (h : Computes vars f x) :
    execForms R fuel [f] vars = (do let _ ← x; return (.next, vars)) := by
  rw [StackCompiler.execForms_singleton, execForm_of_isStatement h.isStatement, h.eval]

/-- A form that has no effect by its shape has none. -/
theorem Computes.bind_of_isPure (h : Computes vars f x) (hpure : f.isPure = true) {α : Type}
    (a : α) : (do let _ ← x; return a) = (return a : Run R α) := by
  rw [← h.eval]
  cases f with
  | var name =>
      rw [evalValue]
      cases vars.lookup name <;> rfl
  | resultRef index => exact absurd rfl (h.ne_resultRef index)
  | bool _ | char _ | int _ | float _ | str _ | symbol _ => rfl
  | _ => cases hpure

/-- A value that is stored nowhere. -/
theorem Computes.execForms_blank (h : Computes vars f x) {env : Environment} {fs : List Form}
    (hfs : Target.blank.store env f = .ok fs) :
    execForms R fuel fs vars = (do let _ ← x; return (.next, vars)) := by
  cases hpure : f.isPure with
  | true =>
      simp only [Target.store, hpure, if_true] at hfs
      cases hfs
      exact (h.bind_of_isPure hpure (Flow.next, vars)).symm
  | false =>
      simp only [Target.store, hpure] at hfs
      cases hfs
      exact h.execForms_singleton

end

theorem Matches.append {R : Runtime} {H : ScalarHost R} {known outer : Scopes Scalar}
    {scope scope' : List (String × Scalar)} {run run' : Scopes R.Value → Run R (Outcome R)}
    {fuel : Nat} {fs gs : List Form}
    (h : Matches H known (H.Within outer scope) run (execForms R fuel fs))
    (h' : Matches H (scope :: outer) (H.Within outer scope') run' (execForms R fuel gs)) :
    Matches H known (H.Within outer scope')
      (fun vars => do
        match ← run vars with
        | (.next, vars) => run' vars
        | (flow, vars) => return (flow, vars))
      (execForms R fuel (fs ++ gs)) := by
  rw [funext (execForms_append fs gs)]
  exact h.andThen h'

/-- A form has the value that source computes where `known` is declared, and the value is a string
if its kind says so. -/
structure ValueMatches {R : Runtime} (H : ScalarHost R) (known : Scopes Scalar) (kind : Kind)
    (x : Scopes R.Value → Run R R.Value) (f : Form) : Prop where
  computes : ∀ {vars}, H.Holds known vars → Computes vars.flatten f (x vars)
  string : kind = .string → ∀ {vars w v w'}, H.Holds known vars → x vars w = .ok v w' →
    H.isString v

namespace ValueMatches

variable {R : Runtime} {H : ScalarHost R} {known outer : Scopes Scalar} {kind : Kind}
  {scope scope' : List (String × Scalar)} {x : Scopes R.Value → Run R R.Value} {f : Form}
  {env : Environment} {fs : List Form} {name : String} {fuel : Nat}

theorem of_agrees {e : Expr}
    (h : ∀ {vars : Scopes R.Value}, H.Holds known vars → ExprAgrees H vars e f) :
    ValueMatches H known e.kind (fun vars => e.eval R vars) f :=
  ⟨fun hvars => (h hvars).toComputes, fun hkind _ _ _ _ hvars => (h hvars).string hkind _ _ _⟩

theorem of_expr {d : Declared} (hcalls : H.CallsReturn d.results) {e : Expr}
    (hf : Form.ofExpr env e = .ok f) (htyped : e.isTyped d known = true) :
    ValueMatches H known e.kind (fun vars => e.eval R vars) f :=
  of_agrees fun hvars => agrees_ofExpr hcalls hvars e hf htyped

/-- A value that only has to be computed. -/
theorem run (h : ValueMatches H known kind x f) (fuel : Nat) :
    Matches H known (H.Next known) (fun vars => do let _ ← x vars; return (.next, vars))
      (execForms R fuel [f]) where
  eq hvars := by simp [(h.computes hvars).execForms_singleton]
  after hvars hr := by
    obtain ⟨v, w₁, -, hr⟩ := bind_eq_ok.1 hr
    obtain ⟨rfl, -⟩ := pure_eq_ok.1 hr
    exact ⟨rfl, hvars⟩

/-- A value that a new variable starts with. -/
theorem declare (h : ValueMatches H (scope :: outer) kind x f)
    (hscope : declare? scope name kind = some scope')
    (hfs : (Target.ofName name).store env f = .ok fs) :
    Matches H (scope :: outer) (H.Next (scope' :: outer))
      (fun vars => do let v ← x vars; return (.next, vars.declare name v))
      (execForms R fuel fs) where
  eq := by
    intro vars hvars
    have hf := h.computes hvars
    obtain _ | ⟨_, _⟩ := hvars
    unfold Target.ofName at hfs
    split at hfs
    · rename_i hblank
      rw [hf.execForms_blank hfs]
      simp [Scopes.declare, hblank]
    · rename_i hblank
      cases hfs
      rw [execForms_singleton, execForm, hf.eval]
      simp [Scopes.declare, hblank]
  after := by
    intro vars w r w' hvars hr
    obtain ⟨v, w₁, hv, hr⟩ := bind_eq_ok.1 hr
    obtain ⟨rfl, -⟩ := pure_eq_ok.1 hr
    exact ⟨rfl, hvars.declare hscope fun hkind => h.string hkind hvars hv⟩

/-- A value that a known variable gets. -/
theorem assign (h : ValueMatches H known kind x f)
    (hname : name = blank ∨ ∃ s, known.get? name = some s ∧ kind = .scalar s)
    (hfs : (if name = blank then Target.blank else .assign name).store env f = .ok fs) :
    Matches H known (H.Next known) (fun vars => do let v ← x vars; assignTo name v vars)
      (execForms R fuel fs) := by
  by_cases hblank : name = blank
  · simp only [if_pos hblank] at hfs
    simp only [assignTo, if_pos hblank]
    exact ⟨fun hvars => by simp [(h.computes hvars).execForms_blank hfs],
      (h.run fuel).after⟩
  · obtain ⟨s, hs, hkind⟩ := hname.resolve_left hblank
    simp only [if_neg hblank] at hfs
    cases hfs
    -- the variable is there whatever value it gets, so that no dynamic variable is written
    have hset : ∀ {vars w v w'}, H.Holds known vars → x vars w = .ok v w' →
        ∃ vars', vars.set? name v = some vars' ∧ H.Holds known vars' := fun hvars hv =>
      hvars.set? hs fun hstring => h.string (by rw [hkind, hstring]) hvars hv
    constructor
    · intro vars hvars
      funext w
      simp only [execForms_singleton, execForm, (h.computes hvars).eval, assignTo, if_neg hblank,
        Scopes.update?_flatten, bind_assoc]
      refine bind_congr_of_ok fun v w₁ hv => ?_
      obtain ⟨vars', hvars', -⟩ := hset hvars hv
      simp [hvars']
    · intro vars w r w' hvars hr
      obtain ⟨v, w₁, hv, hr⟩ := bind_eq_ok.1 hr
      obtain ⟨vars', hvars', hholds⟩ := hset hvars hv
      simp only [assignTo, if_neg hblank, hvars'] at hr
      obtain ⟨rfl, -⟩ := pure_eq_ok.1 hr
      exact ⟨rfl, hholds⟩

end ValueMatches

/-! ### Branches and loops -/

namespace Matches

variable {R : Runtime} {H : ScalarHost R} {known outer : Scopes Scalar}
  {own scope scope' : List (String × Scalar)} {p : Outcome R → Prop}
  {run run' : Scopes R.Value → Run R (Outcome R)}
  {exec exec' : Env R → Run R (Flow R.Value × Env R)} {fuel : Nat}

theorem congr (h : Matches H known p run exec) (hrun : ∀ vars, run' vars = run vars)
    (hexec : ∀ env, exec' env = exec env) : Matches H known p run' exec' := by
  rwa [funext hrun, funext hexec]

/-- A choice between two ways. -/
theorem branch {kind : Kind} {x : Scopes R.Value → Run R R.Value} {f : Form}
    (hcond : ValueMatches H known kind x f) (hthen : Matches H known p run exec)
    (helse : Matches H known p run' exec') :
    Matches H known p (fun vars => do let c ← x vars; if R.isNil c then run' vars else run vars)
      (fun env => do let c ← evalValue R env f; if R.isNil c then exec' env else exec env) where
  eq := by
    intro vars hvars
    simp only [(hcond.computes hvars).eval, bind_assoc]
    refine bind_congr fun c => ?_
    split
    · exact helse.eq hvars
    · exact hthen.eq hvars
  after := by
    intro vars w r w' hvars hr
    obtain ⟨c, w₁, -, hr⟩ := bind_eq_ok.1 hr
    split at hr
    · exact helse.after hvars hr
    · exact hthen.after hvars hr

/-- What stands after the body of a loop is one form. It declares nothing, so that it makes no
difference whether that form is a block. -/
theorem asOne {gs : List Form} (h : Matches H known (H.Next known) run (execForms R fuel gs)) :
    Matches H known (H.Next known) run (execForm R fuel (asOne gs)) where
  eq := by
    intro vars hvars
    unfold StackCompiler.asOne
    split
    · rw [← execForms_singleton]
      exact h.eq hvars
    · funext w
      simp only [execForm, endBlock, h.eq hvars, bind_assoc, pure_bind]
      refine bind_congr_of_ok fun r w' hr => ?_
      have hlength : vars.flatten.length = r.2.flatten.length := by
        rw [hvars.length_flatten, (h.after hvars hr).2.length_flatten]
      rw [hlength, lowest, Nat.sub_self, List.drop_zero]
  after := h.after

def Prepares (H : ScalarHost R) (known : Scopes Scalar) (own : List (String × Scalar)) (fuel : Nat)
    (run : Scopes R.Value → Run R (Outcome R)) : Option (List Form) → Prop
  | none => own = [] ∧ ∀ vars, run vars = return (.next, vars)
  | some forms => Matches H ([] :: known) (H.Within known own) run (execForms R fuel forms)

theorem withInit {prepared : Option (List Form)} {loop : Form}
    (hinit : Prepares H known own fuel run prepared)
    (hloop : Matches H (own :: known) (H.Always (own :: known)) run' (execForm R fuel loop)) :
    Matches H known (H.Always known)
      (inBlock fun vars => do
        match ← run vars with
        | (.next, vars) => run' vars
        | (flow, vars) => return (flow, vars))
      (execForm R fuel (withInit prepared loop)) := by
  cases prepared with
  | none =>
      obtain ⟨rfl, hrun⟩ := hinit
      simp only [hrun, pure_bind]
      exact hloop.inBlock_of_always
  | some forms =>
      have hloop : Matches H (own :: known) (H.Within known own) run' (execForms R fuel [loop]) :=
        hloop.within_of_always.congr (fun _ => rfl) (execForms_singleton loop)
      exact (Matches.append hinit hloop).block.congr (fun _ => rfl)
        fun env => by rw [StackCompiler.withInit, execForm]

end Matches

end StackCompiler
