import StackCompiler.Proofs.BlockMeaning
import StackCompiler.Source.Build

/-!
The block of a function means what the function means. Each kind of statement is matched by its
forms, and `evalBody_ofFunction` follows for every function by going through its statements.
-/

namespace StackCompiler

open Source

/-! ### Assignments and declarations -/

section

variable {R : Runtime} {H : ScalarHost R} {d : Declared} {env : Environment} {outer : Scopes Scalar}
  {scope scope' : List (String × Scalar)} {fs : List Form} {span : Span}

theorem assignValues_single {t : Target} {value : Expr}
    (hscalar : value.kind.scalar?.isSome = true)
    (h : assignValues env [t] [value] span = .ok fs) :
    ∃ f, Form.ofExpr env value = .ok f ∧ t.store env f = .ok fs := by
  have hpairs : assignPairwise env [t] [value] = .ok fs := h
  obtain ⟨forms, hforms, hpairs⟩ := lower_bind_ok hpairs
  obtain ⟨f, hf, hforms⟩ := lower_bind_ok hforms
  cases hforms
  have hstores : storeEach env [(t, asStored value f)] = .ok fs := hpairs
  rw [asStored_of_scalar hscalar] at hstores
  obtain ⟨first, hfirst, hstores⟩ := lower_bind_ok hstores
  cases hstores
  exact ⟨f, hf, by rw [hfirst, List.append_nil]⟩

/-- An assignment with an operator stores the value of the operator. -/
theorem execAssign_binary {op : AssignOp} {binary : BinaryOp} (hop : op.binary? = some binary)
    (vars : Scopes R.Value) (name : String) (defines : Bool) (kind kind' : Kind)
    (v : Option Literal) (span span' : Span) (value : Expr) :
    execAssign R vars (.ident name defines kind v span) op value = (do
      let u ← (Expr.binary binary (.ident name defines kind v span) value kind' span').eval R vars
      assignTo name u vars) := by
  cases op <;> cases hop <;> simp [execAssign, AssignOp.binary?, Expr.eval, Expr.kind]

theorem checkAssign_binary {op : AssignOp} {binary : BinaryOp} (hop : op.binary? = some binary)
    {name : String} {defines : Bool} {kind : Kind} {v : Option Literal} {value : Expr}
    (h : checkAssign d outer scope (.ident name defines kind v span) op value = some scope') :
    value.isTyped d (scope :: outer) = true ∧ defines = false ∧
      (Expr.ident name defines kind v span).isTyped d (scope :: outer) = true ∧
      value.kind = kind ∧ binary.isDefinedOnKind kind = true ∧ scope = scope' := by
  have hall : value.isTyped d (scope :: outer) = true ∧ (((defines = false ∧
      (Expr.ident name defines kind v span).isTyped d (scope :: outer) = true) ∧
      value.kind = kind) ∧ binary.isDefinedOnKind kind = true) ∧ scope = scope' := by
    cases op <;> cases hop <;> simpa [checkAssign, AssignOp.binary?] using h
  obtain ⟨hvalue, ⟨⟨⟨hdefines, htarget⟩, hkind⟩, hdefined⟩, hscope⟩ := hall
  exact ⟨hvalue, hdefines, htarget, hkind, hdefined, hscope⟩

theorem Source.BinaryOp.eq_of_isDefinedOnKind {op : BinaryOp} {kind : Kind}
    (h : op.isDefinedOnKind kind = true) : ∃ s, kind = .scalar s ∧ op.isDefinedOn s = true := by
  cases kind with
  | scalar s => exact ⟨s, rfl, h⟩
  | _ => cases h

theorem scalar?_of_declare? {name : String} {kind : Kind}
    (h : declare? scope name kind = some scope') : kind.scalar?.isSome = true := by
  cases kind with
  | scalar s => rfl
  | _ => cases h

theorem known_of_isTyped {known : Scopes Scalar} {name : String} {defines : Bool} {s : Scalar}
    {v : Option Literal}
    (h : (Expr.ident name defines (.scalar s) v span).isTyped d known = true) :
    known.get? name = some s := by
  simp only [Expr.isTyped, Bool.and_eq_true, decide_eq_true_eq] at h
  exact h.2

/-- The value of an operator between a variable and another value, which the variable gets. -/
theorem valueMatches_compound (hcalls : H.CallsReturn d.results) {known : Scopes Scalar}
    {target value : Expr} {binary : BinaryOp} {s : Scalar} {current operand f : Form}
    (hcurrent : Form.ofExpr env target = .ok current) (htarget : target.isTyped d known = true)
    (hoperand : Form.ofExpr env value = .ok operand) (hvalue : value.isTyped d known = true)
    (hkind : target.kind = .scalar s) (hkind' : value.kind = .scalar s)
    (hdefined : binary.isDefinedOn s = true) (hyields : binary.yieldsBool = false)
    (hf : Form.ofBinary binary s.family? current operand span = .ok f) :
    ValueMatches H known (.scalar s)
      (fun vars => (Expr.binary binary target value (.scalar s) span).eval R vars) f := by
  refine ValueMatches.of_agrees (e := .binary binary target value (.scalar s) span) fun hvars => ?_
  have hagrees := (agrees_ofExpr hcalls hvars target hcurrent htarget).of_binary
    (agrees_ofExpr hcalls hvars value hoperand hvalue) hkind hkind' hdefined hf span
  rwa [hyields] at hagrees

/-- An assignment to one name. -/
theorem matches_assignForms (hcalls : H.CallsReturn d.results) {target value : Expr} {op : AssignOp}
    (hfs : assignForms env [target] op [value] span = .ok fs)
    (hcheck : checkAssign d outer scope target op value = some scope') (fuel : Nat) :
    Matches H (scope :: outer) (H.Next (scope' :: outer))
      (fun vars => execAssign R vars target op value) (execForms R fuel fs) := by
  cases target with
  | ident name defines kind v ispan =>
      obtain ⟨targets, htargets, hfs⟩ := lower_bind_ok hfs
      cases htargets
      cases hop : op.binary? with
      | some binary =>
          obtain ⟨hvalue, rfl, htarget, hkind, hdefined, rfl⟩ := checkAssign_binary hop hcheck
          obtain ⟨s, rfl, hdefined⟩ := BinaryOp.eq_of_isDefinedOnKind hdefined
          rw [hop] at hfs
          obtain ⟨current, hcurrent, hfs⟩ := lower_bind_ok hfs
          obtain ⟨operand, hoperand, hfs⟩ := lower_bind_ok hfs
          obtain ⟨f, hf, hfs⟩ := lower_bind_ok hfs
          have hyields : binary.yieldsBool = false := by
            cases op <;> cases hop <;> rfl
          have hcompound := valueMatches_compound hcalls hcurrent htarget hoperand hvalue rfl hkind
            hdefined hyields hf
          exact (hcompound.assign (.inr ⟨s, known_of_isTyped htarget, rfl⟩) hfs).congr
            (fun vars => execAssign_binary hop vars name false _ _ v ispan span value) fun _ => rfl
      | none =>
          rw [hop] at hfs
          cases op with
          | define =>
              obtain ⟨hvalue, ⟨rfl, rfl⟩, hscope⟩ : value.isTyped d (scope :: outer) = true ∧
                  (defines = true ∧ value.kind = kind) ∧
                  declare? scope name kind = some scope' := by
                simpa [checkAssign] using hcheck
              obtain ⟨f, hf, hfs⟩ := assignValues_single (scalar?_of_declare? hscope) hfs
              exact (ValueMatches.of_expr hcalls hf hvalue).declare hscope hfs
          | assign =>
              obtain ⟨hvalue, ⟨⟨rfl, hscalar⟩, hname⟩, rfl⟩ :
                  value.isTyped d (scope :: outer) = true ∧
                  ((defines = false ∧ value.kind.scalar?.isSome = true) ∧ (name = blank ∨
                    (Expr.ident name defines kind v ispan).isTyped d (scope :: outer) = true ∧
                    value.kind = kind)) ∧ scope = scope' := by
                simpa [checkAssign, AssignOp.binary?] using hcheck
              obtain ⟨f, hf, hfs⟩ := assignValues_single hscalar hfs
              obtain ⟨s, hs⟩ := Kind.eq_of_scalar? hscalar
              refine (ValueMatches.of_expr hcalls hf hvalue).assign (hname.imp_right ?_) hfs
              rintro ⟨htarget, rfl⟩
              rw [hs] at htarget
              exact ⟨s, known_of_isTyped htarget, hs⟩
          | _ => cases hop
  | _ => cases hcheck

/-- The number one of a family is the same number in forms and in source. -/
theorem eval_unit {s : Scalar} {family : Family} {one : Form}
    (h : unit? (.scalar s) = some (family, one)) (vars : Env R) :
    s.family? = some family ∧ s ≠ .string ∧
      evalValue R vars one = pure (if s.family? = some .float then R.constant (.float .one)
        else R.constant (.int 1)) := by
  cases s <;> cases h <;> exact ⟨rfl, by simp, rfl⟩

def Source.Step.sign : Step → BinaryOp
  | .up => .add
  | .down => .sub

/-- A step of a variable up or down by one. -/
theorem matches_stepForms (hcalls : H.CallsReturn d.results) {direction : Step} {target : Expr}
    (hfs : stepForms env direction target span = .ok fs)
    (hcheck : checkStep d outer scope target = some scope') (fuel : Nat) :
    Matches H (scope :: outer) (H.Next (scope' :: outer))
      (fun vars => execStep R vars direction target) (execForms R fuel fs) := by
  cases target with
  | ident name defines kind v ispan =>
      obtain ⟨⟨⟨rfl, htarget⟩, hsub⟩, rfl⟩ : ((defines = false ∧
          (Expr.ident name defines kind v ispan).isTyped d (scope :: outer) = true) ∧
          BinaryOp.sub.isDefinedOnKind kind = true) ∧ scope = scope' := by
        simpa [checkStep] using hcheck
      obtain ⟨s, rfl, hsub⟩ := BinaryOp.eq_of_isDefinedOnKind hsub
      obtain ⟨family, one, hunit, hfs⟩ : ∃ family one, unit? (.scalar s) = some (family, one) ∧
          (do
            let current ← Form.ofExpr env (.ident name false (.scalar s) v ispan)
            (if name = blank then Target.blank else .assign name).store env
              (.op direction.opKind family [current, one])) = .ok fs := by
        unfold stepForms at hfs
        split at hfs
        · cases hfs
        · exact ⟨_, _, ‹_›, hfs⟩
      obtain ⟨current, hcurrent, hfs⟩ := lower_bind_ok hfs
      obtain ⟨hfamily, hstring, -⟩ := eval_unit (R := R) hunit []
      have hop : direction.sign.opKind? = some direction.opKind := by cases direction <;> rfl
      -- what can be lowered by one can be raised by one
      have hdefined : direction.sign.isDefinedOn s = true := by
        cases direction with
        | up => simp_all [Step.sign, BinaryOp.isDefinedOn]
        | down => exact hsub
      have hvalues : ValueMatches H (scope :: outer) (.scalar s) (fun vars => do
          let x ← (Expr.ident name false (.scalar s) v ispan).eval R vars
          direction.sign.apply R (.scalar s) x
            (if s.family? = some .float then R.constant (.float .one) else R.constant (.int 1)))
          (.op direction.opKind family [current, one]) := by
        refine ⟨fun hvars => ⟨?_, rfl, by simp⟩, fun h => absurd (Kind.scalar.inj h) hstring⟩
        rw [evalValue_op_pair (direction.sign.operation?_ne_none hdefined hop hfamily),
          (agrees_ofExpr hcalls hvars _ hcurrent htarget).eval]
        simp only [(eval_unit hunit _).2.2, pure_bind, direction.sign.apply_eq hop hfamily]
      exact (hvalues.assign (.inr ⟨s, known_of_isTyped htarget, rfl⟩) hfs).congr
        (fun _ => (bind_assoc _ _ _).symm) fun _ => rfl
  | _ => cases hcheck

theorem computes_zero (s : Scalar) (vars : Env R) : Computes vars s.zero (pure (s.initial R)) := by
  cases s <;> exact ⟨rfl, rfl, fun _ h => by cases h⟩

/-- What a declaration without a value binds is stored like a value. -/
theorem bindZeros_single (env : Environment) {s : Scalar} {name : String}
    (h : bindZeros (.scalar s) span [name] = .ok fs) :
    (Target.ofName name).store env s.zero = .ok fs := by
  by_cases hblank : name = blank
  · simp only [bindZeros, if_pos hblank] at h
    cases h
    cases s <;> simp [Target.ofName, Target.store, hblank, Scalar.zero, Form.isPure, Form.isAtom]
  · simp only [bindZeros, if_neg hblank] at h
    cases h
    simp [Target.ofName, Target.store, hblank]

/-- The declaration of one name. -/
theorem matches_specForms (hcalls : H.CallsReturn d.results) {spec : ValueSpec}
    (hfs : specForms env spec = .ok fs) (hcheck : checkSpec d outer scope spec = some scope')
    (fuel : Nat) :
    Matches H (scope :: outer) (H.Next (scope' :: outer))
      (fun vars => do let vars ← execSpec R vars spec; return (.next, vars))
      (execForms R fuel fs) := by
  obtain ⟨names, kind, values, span⟩ := spec
  unfold checkSpec at hcheck
  split at hcheck
  · rename_i name hnames hvalues
    cases hnames
    cases hvalues
    cases kind with
    | scalar s =>
        have hzero : ValueMatches H (scope :: outer) (.scalar s) (fun _ => pure (s.initial R))
            s.zero := by
          refine ⟨fun _ => computes_zero s _, fun hkind _ _ v _ _ hv => ?_⟩
          obtain ⟨rfl, -⟩ := pure_eq_ok.1 hv
          cases hkind
          exact H.isString_str ""
        simpa only [execSpec, pure_bind] using hzero.declare hcheck (bindZeros_single env hfs)
    | _ => cases hcheck
  · rename_i name value hnames hvalues
    cases hnames
    cases hvalues
    obtain ⟨⟨hvalue, hkind⟩, hscope⟩ : (value.isTyped d (scope :: outer) = true ∧
        value.kind = kind) ∧ declare? scope name kind = some scope' := by
      simpa using hcheck
    rw [← hkind] at hscope
    have hassign : assignValues env [Target.ofName name] [value] span = .ok fs := hfs
    obtain ⟨f, hf, hstore⟩ := assignValues_single (scalar?_of_declare? hscope) hassign
    have hrun : ∀ vars : Scopes R.Value, execSpec R vars ⟨[name], kind, [value], span⟩ = (do
        let v ← value.eval R vars
        return vars.declare name v) := fun _ => by cases kind <;> rfl
    simpa only [hrun, bind_assoc, pure_bind] using
      (ValueMatches.of_expr hcalls hf hvalue).declare hscope hstore
  · cases hcheck

/-- Declarations, in order. -/
theorem matches_specsForms (hcalls : H.CallsReturn d.results) {specs : List ValueSpec}
    (hfs : specsForms env specs = .ok fs) (hcheck : checkSpecs d outer specs scope = some scope')
    (fuel : Nat) :
    Matches H (scope :: outer) (H.Within outer scope')
      (fun vars => do let vars ← execSpecs R specs vars; return (.next, vars))
      (execForms R fuel fs) := by
  induction specs generalizing scope fs with
  | nil =>
      cases hfs
      cases hcheck
      simpa only [execSpecs, pure_bind, execForms] using
        (Matches.nothing (scope' :: outer)).within_of_next
  | cons spec rest ih =>
      obtain ⟨first, hfirst, hfs⟩ := lower_bind_ok hfs
      obtain ⟨others, hothers, hfs⟩ := lower_bind_ok hfs
      cases hfs
      simp only [checkSpecs] at hcheck
      split at hcheck
      · rename_i scope₁ hspec
        have hspec := (matches_specForms hcalls hfirst hspec fuel).within_of_next
        simpa only [execSpecs, bind_assoc, pure_bind] using hspec.append (ih hothers hcheck)
      · cases hcheck

end

/-! ### Statements -/

section

variable {R : Runtime} {H : ScalarHost R} {d : Declared} {env : Environment} {inLoop : Bool}
  {outer : Scopes Scalar} {scope scope' : List (String × Scalar)} {fs : List Form} {span : Span}

def Form.ofCondition (env : Environment) : Option Expr → Lower Form
  | none => .ok (.bool true)
  | some e => Form.ofExpr env e

def Block.ofOption (env : Environment) (inLoop : Bool) : Option Stmt → Lower (Option (List Form))
  | none => .ok none
  | some s => do
    let fs ← Block.ofStmt env inLoop s
    return some fs

theorem lower_ok_bind {α β : Type} (a : α) (f : α → Lower β) : (.ok a >>= f : Lower β) = f a := rfl

theorem ofStmt_branch (cond : Expr) (body : List Stmt) (els : Option Stmt) (span : Span) :
    Block.ofStmt env inLoop (.branch none cond body els span) = (do
      let c ← Form.ofExpr env cond
      let fs ← Block.ofStmts env inLoop body
      let other ← Block.ofOption env inLoop els
      return [.branch c fs (other.map asOne)]) := by
  rw [Block.ofStmt]
  cases els <;> simp only [Block.ofOption, lower_ok_bind, bind_assoc, pure_bind, Option.map_none,
    Option.map_some]

theorem ofStmt_loop (init : Option Stmt) (cond : Option Expr) (post : Option Stmt)
    (body : List Stmt) (span : Span) :
    Block.ofStmt env inLoop (.loop init cond post body span) = (do
      let prepared ← Block.ofOption env inLoop init
      let c ← Form.ofCondition env cond
      let fs ← Block.ofStmts env true body
      let after ← Block.ofOption env inLoop post
      return [withInit prepared (.loop c fs (after.map asOne))]) := by
  unfold Block.ofStmt
  cases init <;> cases cond <;> cases post <;>
    simp only [Block.ofOption, Form.ofCondition, lower_ok_bind, bind_assoc, pure_bind,
      Option.map_none, Option.map_some]

/-- Whether control goes on to what follows the statement. -/
def Source.Stmt.isSimple : Stmt → Bool
  | .expr _ _ | .assign _ _ _ _ | .step _ _ _ => true
  | _ => false

theorem matches_simple (hcalls : H.CallsReturn d.results) {s : Stmt} (hsimple : s.isSimple = true)
    (hfs : Block.ofStmt env inLoop s = .ok fs) (hcheck : s.check d outer scope = some scope')
    (fuel : Nat) :
    Matches H (scope :: outer) (H.Next (scope' :: outer)) (s.exec R fuel)
      (execForms R fuel fs) := by
  cases s with
  | expr e span =>
      obtain ⟨f, hf, hfs⟩ := lower_bind_ok hfs
      cases hfs
      obtain ⟨htyped, rfl⟩ : e.isTyped d (scope :: outer) = true ∧ scope = scope' := by
        simpa [Stmt.check] using hcheck
      exact ((ValueMatches.of_expr hcalls hf htyped).run fuel).congr (fun _ => rfl) fun _ => rfl
  | assign targets op values span =>
      match targets, values with
      | [target], [value] =>
          exact (matches_assignForms hcalls hfs hcheck fuel).congr (fun _ => rfl) fun _ => rfl
  | step direction target span =>
      exact (matches_stepForms hcalls hfs hcheck fuel).congr (fun _ => rfl) fun _ => rfl
  | _ => cases hsimple

/-- What stands after the condition of a loop declares nothing. -/
theorem check_of_isPost {s : Stmt} (hpost : s.isPost = true)
    (hcheck : s.check d outer scope = some scope') : scope' = scope ∧ s.isSimple = true := by
  cases s with
  | expr e span =>
      simp only [Stmt.check, Option.ite_none_right_eq_some, Option.some.injEq] at hcheck
      exact ⟨hcheck.2.symm, rfl⟩
  | step direction target span =>
      refine ⟨?_, rfl⟩
      simp only [Stmt.check, checkStep] at hcheck
      split at hcheck
      · simp only [Option.ite_none_right_eq_some, Option.some.injEq] at hcheck
        exact hcheck.2.symm
      · cases hcheck
  | assign targets op values span =>
      refine ⟨?_, rfl⟩
      match targets, values with
      | [target], [value] =>
          cases target with
          | ident name defines kind v ispan =>
              cases op <;> simp_all [Stmt.check, checkAssign, AssignOp.binary?, Stmt.isPost]
          | _ => cases hcheck
  | _ => cases hpost

/-- A statement after `else` is one form, and declares nothing in the block around it. -/
theorem ofStmt_of_isElse {s : Stmt} (helse : s.isElse = true)
    (hfs : Block.ofStmt env inLoop s = .ok fs) (hcheck : s.check d outer scope = some scope') :
    scope' = scope ∧ ∃ f, fs = [f] := by
  cases s with
  | block body span =>
      obtain ⟨gs, -, hfs⟩ := lower_bind_ok hfs
      cases hfs
      simp only [Stmt.check, Option.ite_none_right_eq_some, Option.some.injEq] at hcheck
      exact ⟨hcheck.2.symm, _, rfl⟩
  | branch init cond body els span =>
      cases init with
      | some s => cases hcheck
      | none =>
          rw [ofStmt_branch] at hfs
          obtain ⟨c, -, hfs⟩ := lower_bind_ok hfs
          obtain ⟨gs, -, hfs⟩ := lower_bind_ok hfs
          obtain ⟨other, -, hfs⟩ := lower_bind_ok hfs
          cases hfs
          simp only [Stmt.check, Option.ite_none_right_eq_some, Option.some.injEq] at hcheck
          exact ⟨hcheck.2.symm, _, rfl⟩
  | _ => cases helse

theorem matches_returnForms (hcalls : H.CallsReturn d.results) {result : Expr}
    (hfs : returnForms env [result] span = .ok fs)
    (htyped : result.isTyped d (scope :: outer) = true)
    (hscalar : result.kind.scalar?.isSome = true) (fuel : Nat) :
    Matches H (scope :: outer) (H.Always (scope :: outer))
      (fun vars => do let v ← result.eval R vars; return (.ret v, vars))
      (execForms R fuel fs) := by
  obtain ⟨s, hs⟩ := Kind.eq_of_scalar? hscalar
  simp only [returnForms, returnsTuple, hs, Kind.isTuple, Bool.false_eq_true, if_false] at hfs
  obtain ⟨forms, hforms, hfs⟩ := lower_bind_ok hfs
  obtain ⟨f, hf, hforms⟩ := lower_bind_ok hforms
  cases hforms
  cases hfs
  constructor
  · intro vars hvars
    have heval := (agrees_ofExpr hcalls hvars result hf htyped).eval
    simp [execForms_singleton, execForm, asStored_of_scalar hscalar, heval, evalResults]
  · intro vars w r w' hvars hr
    obtain ⟨v, w₁, -, hr⟩ := bind_eq_ok.1 hr
    obtain ⟨rfl, -⟩ := pure_eq_ok.1 hr
    exact hvars

/-- A statement that only says where control goes. -/
theorem matches_leave (flow : Flow R.Value) {f : Form} {fuel : Nat}
    (hexec : ∀ vars, execForm R fuel f vars = return (flow, vars)) :
    Matches H (scope :: outer) (H.Within outer scope) (fun vars => return (flow, vars))
      (execForms R fuel [f]) where
  eq hvars := by simp [execForms_singleton, hexec]
  after hvars hr := by
    obtain ⟨rfl, -⟩ := pure_eq_ok.1 hr
    exact ⟨scope, hvars, fun _ => rfl⟩

/-- The condition of a loop is tested as it is meant. -/
theorem holds_eq (hcalls : H.CallsReturn d.results) {known : Scopes Scalar} {cond : Option Expr}
    {c : Form} (hc : Form.ofCondition env cond = .ok c)
    (htyped : cond.all (fun e => e.isTyped d known && e.kind = .bool) = true)
    {vars : Scopes R.Value} (hvars : H.Holds known vars) :
    holds cond vars = (do let v ← evalValue R vars.flatten c; return !R.isNil v) := by
  cases cond with
  | none =>
      cases hc
      simp [holds, evalValue, H.isNil_truth]
  | some e =>
      simp only [Option.all_some, Bool.and_eq_true] at htyped
      rw [holds, (agrees_ofExpr hcalls hvars e hc htyped.1).eval]

/-- What stands after the body of a loop, if anything does. -/
theorem matches_post (hcalls : H.CallsReturn d.results) {post : Option Stmt}
    {after : Option (List Form)} (hfs : Block.ofOption env inLoop post = .ok after)
    (hpost : post.all Stmt.isPost = true)
    (hcheck : (Stmt.checkOption d outer post scope).isSome = true) (fuel : Nat) :
    Matches H (scope :: outer) (H.Next (scope :: outer)) (Stmt.execOption R fuel post)
      (fun vars =>
        match after.map asOne with
        | none => return (.next, vars)
        | some f => execForm R fuel f vars) := by
  cases post with
  | none =>
      cases hfs
      exact (Matches.nothing _).congr (fun _ => rfl) fun _ => rfl
  | some s =>
      obtain ⟨gs, hgs, hfs⟩ := lower_bind_ok hfs
      cases hfs
      obtain ⟨scope₁, hscope₁⟩ := Option.isSome_iff_exists.1 hcheck
      obtain ⟨rfl, hsimple⟩ := check_of_isPost hpost hscope₁
      exact (matches_simple hcalls hsimple hgs hscope₁ fuel).asOne.congr (fun _ => rfl) fun _ => rfl

mutual
/-- The forms of a statement do what the statement does. -/
theorem matches_ofStmt (hcalls : H.CallsReturn d.results) (fuel : Nat) (s : Stmt) {inLoop : Bool}
    {outer : Scopes Scalar} {scope scope' : List (String × Scalar)} {fs : List Form}
    (hfs : Block.ofStmt env inLoop s = .ok fs) (hcheck : s.check d outer scope = some scope') :
    Matches H (scope :: outer) (H.Within outer scope') (s.exec R fuel) (execForms R fuel fs) := by
  cases s with
  | expr e span | assign targets op values span | step direction target span =>
      exact (matches_simple hcalls rfl hfs hcheck fuel).within_of_next
  | decl keyword specs span =>
      cases keyword with
      | var => exact (matches_specsForms hcalls hfs hcheck fuel).congr (fun _ => rfl) fun _ => rfl
      | _ => cases hcheck
  | ret results span =>
      match results with
      | [] =>
          cases hfs
          simp only [Stmt.check, Option.ite_none_right_eq_some, Option.some.injEq] at hcheck
          obtain ⟨-, rfl⟩ := hcheck
          exact (matches_leave _ fun _ => rfl).congr (fun _ => rfl) fun _ => rfl
      | [result] =>
          obtain ⟨⟨⟨htyped, hscalar⟩, -⟩, rfl⟩ :
              ((result.isTyped d (scope :: outer) = true ∧ result.kind.scalar?.isSome = true) ∧
                d.returns = [result.kind]) ∧ scope = scope' := by
            simpa [Stmt.check] using hcheck
          exact (matches_returnForms hcalls hfs htyped hscalar fuel).within_of_always.congr
            (fun _ => rfl) fun _ => rfl
  | block body span =>
      obtain ⟨gs, hgs, hfs⟩ := lower_bind_ok hfs
      cases hfs
      obtain ⟨hbody, rfl⟩ : (Stmt.checkAll d (scope :: outer) body []).isSome = true ∧
          scope = scope' := by
        simpa [Stmt.check] using hcheck
      obtain ⟨inner, hinner⟩ := Option.isSome_iff_exists.1 hbody
      exact (matches_ofStmts hcalls fuel body hgs hinner).block.within_of_always.congr
        (fun _ => rfl) fun vars => execForms_singleton _ vars
  | branch init cond body els span =>
      cases init with
      | some s => cases hcheck
      | none =>
          rw [ofStmt_branch] at hfs
          obtain ⟨c, hc, hfs⟩ := lower_bind_ok hfs
          obtain ⟨gs, hgs, hfs⟩ := lower_bind_ok hfs
          obtain ⟨other, hother, hfs⟩ := lower_bind_ok hfs
          cases hfs
          obtain ⟨⟨⟨⟨⟨hcond, -⟩, hbody⟩, helse⟩, hels⟩, rfl⟩ :
              ((((cond.isTyped d (scope :: outer) = true ∧ cond.kind = .bool) ∧
                (Stmt.checkAll d (scope :: outer) body []).isSome = true) ∧
                els.all Stmt.isElse = true) ∧ (Stmt.checkOption d outer els scope).isSome = true) ∧
                scope = scope' := by
            simpa [Stmt.check] using hcheck
          obtain ⟨inner, hinner⟩ := Option.isSome_iff_exists.1 hbody
          have hvalue := ValueMatches.of_expr (R := R) hcalls hc hcond
          have hthen := (matches_ofStmts hcalls fuel body hgs hinner).block.within_of_always
          cases els with
          | none =>
              cases hother
              exact (Matches.branch hvalue hthen (Matches.nothing _).within_of_next).congr
                (fun _ => rfl) fun vars => by
                  rw [execForms_singleton, Option.map_none, execForm]
          | some s =>
              obtain ⟨hs, hhs, hother⟩ := lower_bind_ok hother
              cases hother
              obtain ⟨scope₁, hscope₁⟩ := Option.isSome_iff_exists.1 hels
              -- what stands after `else` is a single form, which gets no block of its own
              obtain ⟨rfl, f, rfl⟩ := ofStmt_of_isElse helse hhs hscope₁
              have helse := matches_ofStmt hcalls fuel s hhs hscope₁
              refine (Matches.branch hvalue hthen helse).congr (fun _ => rfl) fun vars => ?_
              rw [execForms_singleton, Option.map_some, execForm]
              simp only [execForms_singleton, asOne]
  | loop init cond post body span =>
      rw [ofStmt_loop] at hfs
      obtain ⟨prepared, hprepared, hfs⟩ := lower_bind_ok hfs
      obtain ⟨c, hc, hfs⟩ := lower_bind_ok hfs
      obtain ⟨gs, hgs, hfs⟩ := lower_bind_ok hfs
      obtain ⟨after, hafter, hfs⟩ := lower_bind_ok hfs
      cases hfs
      simp only [Stmt.check] at hcheck
      split at hcheck
      · cases hcheck
      · rename_i own hown
        obtain ⟨⟨⟨⟨hcond, hbody⟩, hpost⟩, hown'⟩, rfl⟩ :
            (((cond.all (fun e => e.isTyped d (own :: scope :: outer) && e.kind = .bool) = true ∧
              (Stmt.checkAll d (own :: scope :: outer) body []).isSome = true) ∧
              post.all Stmt.isPost = true) ∧
              (Stmt.checkOption d (scope :: outer) post own).isSome = true) ∧ scope = scope' := by
          simpa only [Option.ite_none_right_eq_some, Bool.and_eq_true, Option.some.injEq]
            using hcheck
        obtain ⟨inner, hinner⟩ := Option.isSome_iff_exists.1 hbody
        -- the loop owns what it starts with, so its rounds are matched one scope further in
        have hinit : Matches.Prepares H (scope :: outer) own fuel
            (Stmt.execOption R fuel init) prepared := by
          cases init with
          | none =>
              cases hprepared
              cases hown
              exact ⟨rfl, fun _ => rfl⟩
          | some first =>
              obtain ⟨forms, hforms, hprepared⟩ := lower_bind_ok hprepared
              cases hprepared
              exact (matches_ofStmt hcalls fuel first hforms hown).congr (fun _ => rfl) fun _ => rfl
        have hblock := (matches_ofStmts hcalls fuel body hgs hinner).block
        have hrounds := Matches.rounds (fun vars => evalValue R vars c)
          (fun hvars => holds_eq hcalls hc hcond hvars) hblock
          (matches_post hcalls hafter hpost hown' fuel) fuel
        have hloop : Matches H (own :: scope :: outer) (H.Always (own :: scope :: outer)) _
            (execForm R fuel (.loop c gs (after.map asOne))) :=
          hrounds.congr (fun _ => rfl) fun _ => by cases after <;> rfl
        exact (Matches.withInit hinit hloop).within_of_always.congr (fun _ => rfl)
          (execForms_singleton _)
  | breakLoop span =>
      cases hcheck
      simp only [Block.ofStmt] at hfs
      split at hfs <;> cases hfs
      exact (matches_leave _ fun _ => rfl).congr (fun _ => rfl) fun _ => rfl
  | continueLoop span =>
      cases hcheck
      simp only [Block.ofStmt] at hfs
      split at hfs <;> cases hfs
      exact (matches_leave _ fun _ => rfl).congr (fun _ => rfl) fun _ => rfl

theorem matches_ofStmts (hcalls : H.CallsReturn d.results) (fuel : Nat) (ss : List Stmt)
    {inLoop : Bool} {outer : Scopes Scalar} {scope scope' : List (String × Scalar)} {fs : List Form}
    (hfs : Block.ofStmts env inLoop ss = .ok fs)
    (hcheck : Stmt.checkAll d outer ss scope = some scope') :
    Matches H (scope :: outer) (H.Within outer scope') (Stmt.execAll R fuel ss)
      (execForms R fuel fs) := by
  cases ss with
  | nil =>
      cases hfs
      cases hcheck
      exact (Matches.nothing _).within_of_next.congr (fun _ => rfl) fun _ => rfl
  | cons s rest =>
      obtain ⟨first, hfirst, hfs⟩ := lower_bind_ok hfs
      obtain ⟨others, hothers, hfs⟩ := lower_bind_ok hfs
      cases hfs
      simp only [Stmt.checkAll] at hcheck
      split at hcheck
      · rename_i scope₁ hs
        exact ((matches_ofStmt hcalls fuel s hfirst hs).append
          (matches_ofStmts hcalls fuel rest hothers hcheck)).congr
          (fun _ => rfl) fun _ => rfl
      · cases hcheck
end

end

/-! ### Functions -/

/-- Arguments for parameters, where a parameter that should hold a string does. -/
def ScalarHost.Accepts {R : Runtime} (H : ScalarHost R) (params : List Param)
    (args : List R.Value) : Prop :=
  List.Forall₂ (fun p v => p.kind = .string → H.isString v) params args

theorem ScalarHost.Accepts.holds {R : Runtime} {H : ScalarHost R} {params : List Param}
    {args : List R.Value} (h : H.Accepts params args) {scope : List (String × Scalar)}
    (hscope : paramScope? params = some scope) :
    List.Forall₂ H.HoldsVar scope ((params.map Param.name).zip args) := by
  induction h generalizing scope with
  | nil =>
      cases hscope
      exact .nil
  | cons hv _ ih =>
      simp only [paramScope?] at hscope
      split at hscope
      · rename_i s rest hs hrest
        cases hscope
        exact .cons ⟨rfl, fun h => hv (hs.trans (congrArg Kind.scalar h))⟩ (ih hrest)
      · cases hscope

/-- The block of a function returns what the function returns, and it does the same on the way: it
makes the same calls, raises the same errors and goes through as many rounds of its loops. -/
theorem evalBody_ofFunction {R : Runtime} (H : ScalarHost R) {env : Environment}
    {results : String → Kind} {f : Function} {body : Block}
    (hbody : Block.ofFunction env f = .ok body) (htyped : f.isTyped results = true)
    (hcalls : H.CallsReturn results) {args : List R.Value} (hargs : H.Accepts f.params args)
    (fuel : Nat) :
    evalBody R fuel (f.params.map Param.name) body args = f.eval R fuel args := by
  unfold Function.isTyped at htyped
  split at htyped
  · rename_i scope hscope
    obtain ⟨inner, hinner⟩ := Option.isSome_iff_exists.1 htyped
    have hvars : H.Holds [scope.reverse] [((f.params.map Param.name).zip args).reverse] :=
      .cons (List.forall₂_reverse_iff.2 (hargs.holds hscope)) .nil
    have hblock := (matches_ofStmts hcalls fuel f.body hbody hinner).eq hvars
    rw [List.flatten_singleton] at hblock
    unfold evalBody Source.Function.eval Env.ofArgs
    rw [hblock, bind_assoc]
    refine bind_congr fun r => ?_
    obtain ⟨flow, vars⟩ := r
    cases flow <;> rfl
  · cases htyped

/-! ### A host for examples -/

def Constant.join (vs : List Constant) : Constant :=
  .str (String.join (vs.map letters))

theorem Constant.join_append (vs : List Constant) (y : Constant) :
    join (vs ++ [y]) = join [join vs, y] := by
  simp [join, String.join, letters]

/-- A host that knows numbers and strings. Its functions all return the same string. -/
abbrev Runtime.words : Runtime where
  Value := Constant
  Heap := Unit
  constant c := c
  isNil v := v == .symbol Host.nil
  isNil_iff := Constant.beq_nil_iff
  unary
    | .negate, .int a => return .int (-a)
    | .negate, .float x => return .float (-x)
    | .negate, _ => throw ()
    | .not, v => return .symbol (if v = .symbol Host.nil then Host.truth else Host.nil)
  binary
    | .plus, .int a, .int b => return .int (a + b)
    | .lss, .int a, .int b => return .symbol (if a < b then Host.truth else Host.nil)
    | .numEq, .int a, .int b => return .symbol (if a = b then Host.truth else Host.nil)
    | _, _, _ => throw ()
  concat vs := return .join vs
  arrayRef _ _ := throw ()
  arraySet _ _ _ := throw ()
  call _ _ := return .str "!"

def World.words : World Runtime.words :=
  ⟨⟨fun _ => .symbol Host.nil, ()⟩, []⟩

def ScalarHost.words : ScalarHost Runtime.words where
  isString v := ∃ s, v = Constant.str s
  join := Constant.join
  isString_str s := ⟨s, rfl⟩
  isString_join _ _ := ⟨_, rfl⟩
  concat_eq _ _ := rfl
  join_append vs y _ _ _ := Constant.join_append vs y
  negate_int _ _ := rfl
  negate_float _ := rfl
  isNil_truth := by decide

/-- Adds a marked word to a text for each number below `n` other than one. The marked word takes the
name of the parameter for the rest of the round. -/
def markedText : Function where
  name := "marked-text"
  params := [⟨"word", .string⟩, ⟨"n", .int⟩]
  results := [.string]
  body :=
    [.assign [.ofDefinition "text" .string] .define [.ofLiteral (.str "")] {},
      .loop (some (.assign [.ofDefinition "i" .int] .define [.ofLiteral (.int 0)] {})) none
        (some (.step .up (.ofName "i" .int) {}))
        [.branch none
            (.ofUnary .not (.paren (.ofBinary .less (.ofName "i" .int) (.ofName "n" .int)) {}))
            [.breakLoop {}] none {},
          .branch none (.ofBinary .eq (.ofName "i" .int) (.ofLiteral (.int 1)))
            [.continueLoop {}] none {},
          .assign [.ofDefinition "word" .string] .define
            [.ofBinary .add (.ofBinary .add (.ofName "word" .string) (.ofLiteral (.str "-")))
              (.call (.function "mark") [.ofName "i" .int] .string {})] {},
          .assign [.ofName "text" .string] .add [.ofName "word" .string] {}] {},
      .ret [.ofName "text" .string] {}]

theorem evalBody_ofFunction_markedText :
    ∃ body w', Block.ofFunction ⟨⟨[(.ofName "mark", ⟨"mark", .value⟩)]⟩, .empty⟩ markedText =
        .ok body ∧
      evalBody Runtime.words 5 ["word", "n"] body [Constant.str "a", Constant.int 3] World.words =
        .ok (Constant.str "a-!a-!") w' ∧
      w'.calls = [(Constant.symbol "mark", [Constant.int 0]),
        (Constant.symbol "mark", [Constant.int 2])] := by
  have hok : (Block.ofFunction ⟨⟨[(.ofName "mark", ⟨"mark", .value⟩)]⟩, .empty⟩
      markedText).isOk = true := by decide +kernel
  cases hbody : Block.ofFunction ⟨⟨[(.ofName "mark", ⟨"mark", .value⟩)]⟩, .empty⟩ markedText with
  | error e =>
      rw [hbody] at hok
      cases hok
  | ok body =>
      have htyped : markedText.isTyped (fun _ => .string) = true := by decide
      have hargs : ScalarHost.words.Accepts markedText.params
          [Constant.str "a", Constant.int 3] :=
        .cons (fun _ => ⟨"a", rfl⟩) (.cons (fun h => by cases h) .nil)
      have heval := evalBody_ofFunction ScalarHost.words hbody htyped
        (fun _ _ _ _ v _ hv => ⟨"!", by cases hv; rfl⟩) hargs 5
      have hrun : (match markedText.eval Runtime.words 5 [Constant.str "a", Constant.int 3]
            World.words with
          | .ok v w => decide (v = Constant.str "a-!a-!" ∧
            w.calls = [(Constant.symbol "mark", [Constant.int 0]),
              (Constant.symbol "mark", [Constant.int 2])])
          | .error _ _ => false) = true := by decide +kernel
      split at hrun
      · rename_i v w hvw
        obtain ⟨rfl, hcalls⟩ := of_decide_eq_true hrun
        exact ⟨body, w, rfl, (congrFun heval World.words).trans hvw, hcalls⟩
      · cases hrun

end StackCompiler