import Mathlib.Data.List.Forall2
import StackCompiler.Proofs.SourceTyping

/-!
The form of an expression means what the expression means. A chain of one operator has become one
operation on all operands, which is the same for numbers because operands are combined from the left
anyway. It is the same for strings because joining strings has no effect and does not depend on how
they are grouped. The sign of a literal has become part of it.
-/

namespace StackCompiler

open Source

/-- What a host has to know of scalars: which values are strings, that joining them has no effect
and does not depend on the grouping, that negation of a number is the negated number, and that the
two truth values differ. -/
structure ScalarHost (R : Runtime) where
  isString : R.Value → Prop
  join : List R.Value → R.Value
  isString_str : ∀ s, isString (R.constant (.str s))
  isString_join : ∀ vs, (∀ v ∈ vs, isString v) → isString (join vs)
  concat_eq : ∀ vs, (∀ v ∈ vs, isString v) → R.concat vs = pure (join vs)
  join_append : ∀ vs y, vs ≠ [] → (∀ v ∈ vs, isString v) → isString y →
    join (vs ++ [y]) = join [join vs, y]
  negate_int : ∀ v, v ≠ Int64.minValue →
    R.unary .negate (R.constant (.int v)) = pure (R.constant (.int (-v)))
  negate_float : ∀ x, R.unary .negate (R.constant (.float x)) = pure (R.constant (.float (-x)))
  isNil_truth : R.isNil (R.constant (.symbol Host.truth)) = false

namespace ScalarHost

variable {R : Runtime} (H : ScalarHost R)

def CallsReturn (results : String → Kind) : Prop :=
  ∀ name, results name = .string → ∀ args store v store',
    R.call (R.constant (.symbol name)) args store = .ok v store' → H.isString v

/-- A variable is the one that is known, and it holds a string if it should. -/
def HoldsVar (k : String × Scalar) (v : String × R.Value) : Prop :=
  k.1 = v.1 ∧ (k.2 = .string → H.isString v.2)

def Holds (known : Scopes Scalar) (vars : Scopes R.Value) : Prop :=
  List.Forall₂ (List.Forall₂ H.HoldsVar) known vars

variable {H}

theorem lookup_of_forall₂ {scope : List (String × Scalar)} {values : List (String × R.Value)}
    (h : List.Forall₂ H.HoldsVar scope values) (name : String) :
    (scope.lookup name = none ∧ values.lookup name = none) ∨
      ∃ s v, scope.lookup name = some s ∧ values.lookup name = some v ∧
        (s = .string → H.isString v) := by
  induction h with
  | nil => exact .inl ⟨rfl, rfl⟩
  | cons hkv hrest ih =>
      rename_i k v scope values
      obtain ⟨x, s⟩ := k
      obtain ⟨y, a⟩ := v
      obtain ⟨rfl, hstring⟩ := hkv
      by_cases hname : name = x
      · rw [hname]
        exact .inr ⟨s, a, by simp, by simp, hstring⟩
      · have hne : (name == x) = false := by simpa using hname
        simpa [List.lookup_cons, hne] using ih

/-- A name that is known has a value. -/
theorem Holds.get? {known : Scopes Scalar} {vars : Scopes R.Value} (h : H.Holds known vars)
    {name : String} {s : Scalar} (hs : known.get? name = some s) :
    ∃ v, vars.get? name = some v ∧ (s = .string → H.isString v) := by
  induction h with
  | nil => cases hs
  | cons hscope _ ih =>
      simp only [Scopes.get?] at hs ⊢
      obtain ⟨hnone, hnone'⟩ | ⟨s', v, hsome, hsome', hstring⟩ := lookup_of_forall₂ hscope name
      · rw [hnone] at hs
        rw [hnone']
        exact ih hs
      · rw [hsome] at hs
        cases hs
        exact ⟨v, by rw [hsome'], hstring⟩

end ScalarHost

theorem Source.Scopes.lookup_flatten {α : Type} (vars : Scopes α) (name : String) :
    vars.flatten.lookup name = vars.get? name := by
  induction vars with
  | nil => rfl
  | cons scope outer ih =>
      rw [List.flatten_cons, List.lookup_append, ih, Scopes.get?]
      cases scope.lookup name <;> rfl

/-! ### Operators -/

section

variable {R : Runtime} {env : Env R}

theorem Run.primitive_pure {α : Type} (a : α) :
    Run.primitive (pure a : Action R.Value R.Heap α) = (pure a : Run R α) := rfl

theorem evalValues_append (fs gs : List Form) :
    evalValues R env (fs ++ gs) = (do
      let vs ← evalValues R env fs
      let us ← evalValues R env gs
      return vs ++ us) := by
  induction fs with
  | nil => simp [evalValues]
  | cons f fs ih => simp [evalValues, ih]

theorem evalValues_length {fs : List Form} {w w' : World R} {vs : List R.Value}
    (h : evalValues R env fs w = .ok vs w') : vs.length = fs.length := by
  induction fs generalizing w w' vs with
  | nil =>
      obtain ⟨rfl, -⟩ := pure_eq_ok.1 h
      rfl
  | cons f fs ih =>
      obtain ⟨v, w₁, -, h⟩ := bind_eq_ok.1 h
      obtain ⟨us, w₂, hus, h⟩ := bind_eq_ok.1 h
      obtain ⟨rfl, -⟩ := pure_eq_ok.1 h
      rw [List.length_cons, List.length_cons, ih hus]

theorem evalChainRest_concat (i : BinaryInstr) (fs : List Form) (g : Form) (left : R.Value) :
    evalChainRest R env i left (fs ++ [g]) = (do
      let v ← evalChainRest R env i left fs
      let right ← evalValue R env g
      Run.primitive (R.binary i v right)) := by
  induction fs generalizing left with
  | nil => simp [evalChainRest]
  | cons f fs ih => simp [evalChainRest, ih]

theorem evalChain_concat (i : BinaryInstr) {fs : List Form} (hfs : fs ≠ []) (g : Form) :
    evalChain R env i (fs ++ [g]) = (do
      let v ← evalChain R env i fs
      let right ← evalValue R env g
      Run.primitive (R.binary i v right)) := by
  cases fs with
  | nil => exact absurd rfl hfs
  | cons f fs => simp [evalChain, evalChainRest_concat]

/-- An operation on two operands. -/
theorem evalValue_op_pair {kind : OpKind} {family : Family}
    (hdefined : kind.operation? family ≠ none) (f g : Form) :
    evalValue R env (.op kind family [f, g]) = (do
      let x ← evalValue R env f
      let y ← evalValue R env g
      kind.apply R family x y) := by
  cases hplan : kind.operation? family with
  | none => exact absurd hplan hdefined
  | some plan =>
      cases plan <;>
        simp [evalValue, evalValues, evalChain, evalChainRest, OpKind.apply, hplan]

/-- One more operand of numbers. -/
theorem evalValue_op_fold {kind : OpKind} {family : Family} {i : BinaryInstr}
    (hplan : kind.operation? family = some (.fold i)) {args : List Form} (hargs : args ≠ [])
    (g : Form) :
    evalValue R env (.op kind family (args ++ [g])) = (do
      let x ← evalValue R env (.op kind family args)
      let y ← evalValue R env g
      kind.apply R family x y) := by
  simp only [evalValue, hplan, OpKind.apply, evalChain_concat i hargs]

/-- One more string that is joined to others. -/
theorem evalValue_op_concat (H : ScalarHost R) {args : List Form} (hargs : args ≠ []) {g : Form}
    (hstrings : ∀ w vs w', evalValues R env args w = .ok vs w' → ∀ v ∈ vs, H.isString v)
    (hstring : ∀ w v w', evalValue R env g w = .ok v w' → H.isString v) :
    evalValue R env (.op .add .string (args ++ [g])) = (do
      let x ← evalValue R env (.op .add .string args)
      let y ← evalValue R env g
      OpKind.add.apply R .string x y) := by
  have hplan : OpKind.operation? .add .string = some .concat := rfl
  simp only [evalValue, hplan, OpKind.apply, evalValues_append, evalValues, bind_assoc, pure_bind]
  funext w
  refine bind_congr_of_ok fun vs w' hvs => ?_
  have hall := hstrings w vs w' hvs
  have hsome : vs ≠ [] := by
    rintro rfl
    exact hargs (List.length_eq_zero_iff.1 (evalValues_length hvs).symm)
  rw [H.concat_eq vs hall, Run.primitive_pure, pure_bind]
  refine bind_congr_of_ok fun y w'' hy => ?_
  have hy := hstring w' y w'' hy
  have hjoin := H.isString_join vs hall
  rw [H.concat_eq (vs ++ [y])
      (List.forall_mem_append.2 ⟨hall, List.forall_mem_singleton.2 hy⟩),
    H.concat_eq [H.join vs, y] (by simpa using ⟨hjoin, hy⟩), H.join_append vs y hsome hall hy]

end

/-! ### Expressions -/

theorem lower_bind_ok {α β : Type} {x : Lower α} {f : α → Lower β} {b : β}
    (h : (x >>= f) = .ok b) : ∃ a, x = .ok a ∧ f a = .ok b := by
  cases x with
  | error e => cases h
  | ok a => exact ⟨a, rfl, h⟩

/-- A form has the value that a computation yields, which is none of the results that a call leaves
elsewhere. -/
structure Computes {R : Runtime} (env : Env R) (f : Form) (x : Run R R.Value) : Prop where
  eval : evalValue R env f = x
  isStatement : f.isStatement = false
  ne_resultRef : ∀ index, f ≠ .resultRef index

/-- Whether a form is neither an operation nor a further result of a call. -/
def Form.isSimple : Form → Bool
  | .op _ _ _ | .resultRef _ => false
  | _ => true

/-- A form does what an expression does. Where it joins strings, all operands are strings. -/
structure ExprAgrees {R : Runtime} (H : ScalarHost R) (vars : Scopes R.Value) (e : Expr)
    (f : Form) : Prop extends Computes vars.flatten f (e.eval R vars) where
  string : e.kind = .string → ∀ w v w', e.eval R vars w = .ok v w' → H.isString v
  operands : ∀ kind family args, f = .op kind family args → args ≠ []
  strings : ∀ args, f = .op .add .string args → ∀ w vs w',
    evalValues R vars.flatten args w = .ok vs w' → ∀ v ∈ vs, H.isString v

namespace ExprAgrees

variable {R : Runtime} {H : ScalarHost R} {vars : Scopes R.Value} {left right : Expr} {f g : Form}

/-- A form that is no operation. -/
theorem of_eval {e : Expr} (heval : evalValue R vars.flatten f = e.eval R vars)
    (hstring : e.kind = .string → ∀ w v w', e.eval R vars w = .ok v w' → H.isString v)
    (hstatement : f.isStatement = false) (hsimple : f.isSimple = true) :
    ExprAgrees H vars e f := by
  have hresult : ∀ index, f ≠ .resultRef index := by
    rintro index rfl
    cases hsimple
  have hop : ∀ kind family args, f ≠ .op kind family args := by
    rintro kind family args rfl
    cases hsimple
  exact ⟨⟨heval, hstatement, hresult⟩, hstring, fun _ _ _ h => absurd h (hop _ _ _),
    fun _ h => absurd h (hop _ _ _)⟩

/-- An operator that repeats is applied to all operands of the chain, whatever they are. -/
theorem evalValue_applyOp (hf : ExprAgrees H vars left f) (hg : ExprAgrees H vars right g)
    {kind : OpKind} {family : Family} (hdefined : kind.operation? family ≠ none)
    (hstring : family = .string → right.kind = .string) :
    evalValue R vars.flatten (.applyOp kind family f g) = (do
      let x ← left.eval R vars
      let y ← right.eval R vars
      kind.apply R family x y) := by
  rw [← hf.eval, ← hg.eval]
  unfold Form.applyOp
  split
  · rename_i kind' family' args
    split
    · rename_i hchain
      simp only [Bool.and_eq_true, decide_eq_true_eq] at hchain
      obtain ⟨⟨hvariadic, rfl⟩, rfl⟩ := hchain
      have hargs := hf.operands _ _ _ rfl
      cases hplan : kind'.operation? family' with
      | none => exact absurd hplan hdefined
      | some plan =>
          cases plan with
          | fold i => exact evalValue_op_fold hplan hargs _
          | concat =>
              obtain ⟨rfl, rfl⟩ : kind' = .add ∧ family' = .string := by
                cases kind' <;> cases family' <;> simp_all [OpKind.operation?, OpKind.onNumbers?,
                  OpKind.onStrings?]
              refine evalValue_op_concat H hargs (hf.strings _ rfl) fun w v w' hv => ?_
              rw [hg.eval] at hv
              exact hg.string (hstring rfl) w v w' hv
          | host name | foldNot i =>
              -- an operator that repeats is neither a call nor negated
              cases kind' <;> cases family' <;> cases hvariadic <;> cases hplan
    · exact evalValue_op_pair hdefined _ _
  · exact evalValue_op_pair hdefined _ _

theorem evalValues_singleton (hf : ExprAgrees H vars left f) (hkind : left.kind = .string)
    {w w' : World R} {vs : List R.Value} (h : evalValues R vars.flatten [f] w = .ok vs w') :
    ∀ v ∈ vs, H.isString v := by
  obtain ⟨v, w₁, hv, h⟩ := bind_eq_ok.1 h
  rw [hf.eval] at hv
  cases h
  exact List.forall_mem_singleton.2 (hf.string hkind _ _ _ hv)

/-- What is joined when strings are added is all strings. -/
theorem applyOp_strings (hf : ExprAgrees H vars left f) (hg : ExprAgrees H vars right g)
    {kind : OpKind} {family : Family}
    (hstring : family = .string → left.kind = .string ∧ right.kind = .string) {args : List Form}
    (hargs : Form.applyOp kind family f g = .op .add .string args) {w w' : World R}
    {vs : List R.Value} (hvs : evalValues R vars.flatten args w = .ok vs w') :
    ∀ v ∈ vs, H.isString v := by
  have hleft : family = .string → ∀ w vs w', evalValues R vars.flatten [f] w = .ok vs w' →
      ∀ v ∈ vs, H.isString v :=
    fun h _ _ _ => hf.evalValues_singleton (hstring h).1
  have hright : family = .string → ∀ w vs w', evalValues R vars.flatten [g] w = .ok vs w' →
      ∀ v ∈ vs, H.isString v :=
    fun h _ _ _ => hg.evalValues_singleton (hstring h).2
  have hsplit : ∀ fs, args = fs ++ [g] → family = .string →
      (∀ w vs w', evalValues R vars.flatten fs w = .ok vs w' → ∀ v ∈ vs, H.isString v) →
      ∀ v ∈ vs, H.isString v := by
    rintro fs rfl hfamily hfs
    rw [evalValues_append] at hvs
    obtain ⟨us, w₁, hus, hvs⟩ := bind_eq_ok.1 hvs
    obtain ⟨ys, w₂, hys, hvs⟩ := bind_eq_ok.1 hvs
    obtain ⟨rfl, -⟩ := pure_eq_ok.1 hvs
    exact List.forall_mem_append.2 ⟨hfs _ _ _ hus, hright hfamily _ _ _ hys⟩
  unfold Form.applyOp at hargs
  split at hargs
  · rename_i kind' family' args'
    split at hargs
    · rename_i hchain
      simp only [Bool.and_eq_true, decide_eq_true_eq] at hchain
      obtain ⟨⟨-, rfl⟩, rfl⟩ := hchain
      cases hargs
      exact hsplit args' rfl rfl (hf.strings args' rfl)
    · cases hargs
      exact hsplit [_] rfl rfl (hleft rfl)
  · cases hargs
    exact hsplit [_] rfl rfl (hleft rfl)

theorem applyOp (hf : ExprAgrees H vars left f) (hg : ExprAgrees H vars right g) {e : Expr}
    {kind : OpKind} {family : Family} (hdefined : kind.operation? family ≠ none)
    (hstring : family = .string → left.kind = .string ∧ right.kind = .string)
    (heval : e.eval R vars = (do
      let x ← left.eval R vars
      let y ← right.eval R vars
      kind.apply R family x y))
    (hkind : e.kind = .string → kind = .add ∧ family = .string) :
    ExprAgrees H vars e (.applyOp kind family f g) where
  eval := by rw [hf.evalValue_applyOp hg hdefined fun h => (hstring h).2, heval]
  string := by
    intro hstr w v w' hv
    obtain ⟨rfl, rfl⟩ := hkind hstr
    rw [heval] at hv
    obtain ⟨x, w₁, hx, hv⟩ := bind_eq_ok.1 hv
    obtain ⟨y, w₂, hy, hv⟩ := bind_eq_ok.1 hv
    have hx := hf.string (hstring rfl).1 w x w₁ hx
    have hy := hg.string (hstring rfl).2 w₁ y w₂ hy
    have hboth : ∀ v ∈ [x, y], H.isString v := by simpa using ⟨hx, hy⟩
    -- the only operator that yields a string joins two of them
    change Run.primitive (R.concat [x, y]) w₂ = .ok v w' at hv
    rw [H.concat_eq _ hboth, Run.primitive_pure] at hv
    obtain ⟨rfl, -⟩ := pure_eq_ok.1 hv
    exact H.isString_join _ hboth
  isStatement := by
    unfold Form.applyOp
    split
    · split <;> rfl
    · rfl
  ne_resultRef index := by
    unfold Form.applyOp
    split
    · split <;> simp
    · simp
  operands k fam args h := by
    unfold Form.applyOp at h
    split at h
    · split at h <;> cases h <;> simp
    · cases h
      simp
  strings args h w vs w' hvs := hf.applyOp_strings hg hstring h hvs

end ExprAgrees

namespace Source.BinaryOp

variable {R : Runtime} {op : BinaryOp} {kind : OpKind} {s : Scalar} {family : Family}

/-- An operator that values have is one that forms have. -/
theorem operation?_ne_none (hdefined : op.isDefinedOn s = true) (hkind : op.opKind? = some kind)
    (hfamily : s.family? = some family) : kind.operation? family ≠ none := by
  cases op <;> cases hkind <;> cases s <;> cases hfamily <;>
    simp_all [isDefinedOn, OpKind.operation?, OpKind.onNumbers?, OpKind.onStrings?]

theorem apply_eq (hkind : op.opKind? = some kind) (hfamily : s.family? = some family)
    (x y : R.Value) : op.apply R (.scalar s) x y = kind.apply R family x y := by
  cases op <;> cases hkind <;>
    simp only [BinaryOp.apply, Kind.equal, Kind.family?, hfamily, opKind?]
  cases family <;> rfl

/-- Only strings that are added make a string. -/
theorem add_of_string (hdefined : op.isDefinedOn .string = true) (hbool : op.yieldsBool = false) :
    op = .add := by
  cases op <;> simp_all [isDefinedOn, yieldsBool]

end Source.BinaryOp

namespace ExprAgrees

variable {R : Runtime} {H : ScalarHost R} {vars : Scopes R.Value} {left right : Expr} {f g : Form}

theorem of_lit (v : Literal) (span : Span) :
    ExprAgrees H vars (.lit v v.kind span) (.ofLiteral v v.kind) := by
  cases v with
  | str s =>
      refine of_eval rfl (fun _ w u w' h => ?_) rfl rfl
      obtain ⟨rfl, -⟩ := pure_eq_ok.1 h
      exact H.isString_str s
  | _ => exact of_eval rfl (fun h => by cases h) rfl rfl

theorem of_ident {known : Scopes Scalar} (hvars : H.Holds known vars) {name : String} {s : Scalar}
    (hs : known.get? name = some s) (defines : Bool) (span : Span) :
    ExprAgrees H vars (.ident name defines (.scalar s) none span) (.var name) := by
  obtain ⟨v, hv, hstring⟩ := hvars.get? hs
  have heval : (Expr.ident name defines (.scalar s) none span).eval R vars = pure v := by
    simp only [Expr.eval, hv]
  refine of_eval ?_ (fun hkind w u w' h => ?_) rfl rfl
  · rw [heval, evalValue, Scopes.lookup_flatten, hv]
  · rw [heval] at h
    obtain ⟨rfl, -⟩ := pure_eq_ok.1 h
    exact hstring (Kind.scalar.inj hkind)

/-- An operator that needs both operands, between operands of one kind that has it. -/
theorem of_apply (hf : ExprAgrees H vars left f) (hg : ExprAgrees H vars right g) {op : BinaryOp}
    {s : Scalar} (hleft : left.kind = .scalar s) (hright : right.kind = .scalar s)
    (hdefined : op.isDefinedOn s = true) {e : Expr}
    (heval : e.eval R vars = (do
      let x ← left.eval R vars
      let y ← right.eval R vars
      op.apply R (.scalar s) x y))
    (hkind : e.kind = if op.yieldsBool then .bool else .scalar s)
    (hand : op ≠ .logicalAnd) (hor : op ≠ .logicalOr) {span : Span} {r : Form}
    (hr : Form.ofBinary op s.family? f g span = .ok r) : ExprAgrees H vars e r := by
  obtain ⟨kind, hop, hsome, hnone⟩ : ∃ kind, op.opKind? = some kind ∧
      (∀ family, s.family? = some family → r = .applyOp kind family f g) ∧
      (s.family? = none → Form.ofIdentityTest op kind f g span = .ok r) := by
    unfold Form.ofBinary at hr
    split at hr
    · exact absurd rfl hand
    · exact absurd rfl hor
    · split at hr
      · cases hr
      · refine ⟨_, ‹_›, fun family h => ?_, fun h => ?_⟩
        · rw [h] at hr
          cases hr
          rfl
        · rwa [h] at hr
  cases hfamily : s.family? with
  | some family =>
      obtain rfl := hsome family hfamily
      have hfamilyString : family = .string → s = .string := by
        rintro rfl
        cases s <;> cases hfamily
        rfl
      refine hf.applyOp hg (op.operation?_ne_none hdefined hop hfamily) (fun h => ?_) ?_ ?_
      · rw [hleft, hright, hfamilyString h]
        exact ⟨rfl, rfl⟩
      · rw [heval]
        simp only [op.apply_eq hop hfamily]
      · intro hstring
        cases hbool : op.yieldsBool with
        | true => simp [hkind, hbool] at hstring
        | false =>
            obtain rfl : s = .string := by simpa [hkind, hbool] using hstring
            cases op.add_of_string hdefined hbool
            cases hop
            cases hfamily
            exact ⟨rfl, rfl⟩
  | none =>
      have hr := hnone hfamily
      -- only truth values are left, which are compared as objects
      obtain ⟨rfl, hop'⟩ : s = .bool ∧ (op = .eq ∨ op = .notEq) := by
        cases op <;> cases s <;> simp_all [BinaryOp.isDefinedOn, Scalar.family?]
      obtain rfl | rfl := hop' <;> cases hop <;> cases hr
      all_goals
        refine of_eval ?_ (by simp [hkind, BinaryOp.yieldsBool]) rfl rfl
        simp [heval, evalValue, evalValues, hf.eval, hg.eval, BinaryOp.apply, Kind.equal,
          Kind.family?, hfamily]

theorem of_binary (hf : ExprAgrees H vars left f) (hg : ExprAgrees H vars right g) {op : BinaryOp}
    {s : Scalar} (hleft : left.kind = .scalar s) (hright : right.kind = .scalar s)
    (hdefined : op.isDefinedOn s = true) {span : Span} {r : Form}
    (hr : Form.ofBinary op s.family? f g span = .ok r) (span' : Span) :
    ExprAgrees H vars (.binary op left right (if op.yieldsBool then .bool else .scalar s) span')
      r := by
  by_cases hand : op = .logicalAnd
  · subst hand
    cases hr
    refine of_eval ?_ (fun h => by cases h) rfl rfl
    simp only [evalValue, Expr.eval, hf.eval, hg.eval]
  by_cases hor : op = .logicalOr
  · subst hor
    cases hr
    refine of_eval ?_ (fun h => by cases h) rfl rfl
    simp only [evalValue, Expr.eval, hf.eval, hg.eval]
  refine hf.of_apply hg hleft hright hdefined ?_ rfl hand hor hr
  rw [Expr.eval, hleft]
  · exact hand
  · exact hor

/-- A literal, perhaps in parentheses, is evaluated to itself. -/
theorem eval_of_literal? {d : Declared} {known : Scopes Scalar} (vars : Scopes R.Value) (e : Expr)
    (htyped : e.isTyped d known = true) {v : Literal} (hv : e.literal? = some v) :
    e.eval R vars = pure (v.value R) ∧ e.kind = v.kind := by
  induction e using Expr.literal?.induct with
  | case1 u kind span =>
      cases hv
      exact ⟨rfl, by simpa [Expr.isTyped, Expr.kind] using htyped⟩
  | case2 name defines kind value span =>
      cases hv
      simp [Expr.isTyped] at htyped
  | case3 inner span ih => exact ih htyped hv
  | case4 => simp_all [Expr.literal?]

/-- A sign that is neither part of a literal nor dropped. -/
theorem of_sign {operand : Expr} (hf : ExprAgrees H vars operand f) {s : Scalar}
    (hkind : operand.kind = .scalar s) {op : UnaryOp} {sign : UnaryKind} {family : Family}
    (hop : unaryKind? op s.family? = some (sign, family)) (span : Span) :
    ExprAgrees H vars (.unary op operand (.scalar s) span) (.unary sign family f) := by
  have hfamily : s.family? = some family ∧ family ≠ .string := by
    cases op <;> cases s <;> cases hop <;> exact ⟨rfl, by simp⟩
  refine of_eval ?_ (fun hstring => ?_) rfl rfl
  · rw [Expr.eval, hkind]
    simp only [UnaryOp.apply, Kind.family?]
    rw [hfamily.1] at hop ⊢
    cases op <;> cases family <;> cases hop <;> simp only [evalValue, hf.eval]
  · cases hstring
    cases hfamily.1
    exact absurd rfl hfamily.2

/-- How an expression with a sign gets its form: the sign becomes part of a literal, or it is an
operation. -/
theorem ofExpr_unary_cases {env : Environment} {op : UnaryOp} {operand : Expr} {kind : Kind}
    {span : Span} {r : Form} (hr : Form.ofExpr env (.unary op operand kind span) = .ok r)
    (hplus : op ≠ .plus) (hnot : op ≠ .not) :
    (∃ v, op = .neg ∧ operand.literal? = some (.int v) ∧ v ≠ Int64.minValue ∧ r = .int (-v)) ∨
    (∃ x, op = .neg ∧ operand.literal? = some (.float x) ∧ r = .float (-x)) ∨
    ∃ sign family f, unaryKind? op operand.kind.family? = some (sign, family) ∧
      Form.ofExpr env operand = .ok f ∧ r = .unary sign family f := by
  have hoperation : ∀ sign family, unaryKind? op operand.kind.family? = some (sign, family) →
      (do
        let f ← Form.ofExpr env operand
        return Form.unary sign family f) = Except.ok r →
      ∃ sign family f, unaryKind? op operand.kind.family? = some (sign, family) ∧
        Form.ofExpr env operand = .ok f ∧ r = .unary sign family f := by
    intro sign family hsign h
    obtain ⟨f, hf, h⟩ := lower_bind_ok h
    cases h
    exact ⟨sign, family, f, hsign, hf, rfl⟩
  unfold Form.ofExpr at hr
  cases op with
  | plus => exact absurd rfl hplus
  | not => exact absurd rfl hnot
  | neg =>
      dsimp only at hr
      split at hr
      · split at hr
        · cases hr
        · cases hr
          exact .inl ⟨_, rfl, ‹_›, ‹_›, rfl⟩
      · cases hr
        exact .inr (.inl ⟨_, rfl, ‹_›, rfl⟩)
      · split at hr
        · cases hr
        · exact .inr (.inr (hoperation _ _ ‹_› hr))
  | bitNot =>
      dsimp only at hr
      split at hr
      · cases hr
      · exact .inr (.inr (hoperation _ _ ‹_› hr))

theorem of_unary {env : Environment} {d : Declared} {known : Scopes Scalar} {op : UnaryOp}
    {operand : Expr} {s : Scalar} {span : Span} (htyped : operand.isTyped d known = true)
    (hkind : operand.kind = .scalar s) (hdefined : op.isDefinedOn s = true)
    (hoperand : ∀ f, Form.ofExpr env operand = .ok f → ExprAgrees H vars operand f) {r : Form}
    (hr : Form.ofExpr env (.unary op operand (.scalar s) span) = .ok r) :
    ExprAgrees H vars (.unary op operand (.scalar s) span) r := by
  by_cases hplus : op = .plus
  · subst hplus
    have hf := hoperand r hr
    have heval : (Expr.unary .plus operand (.scalar s) span).eval R vars = operand.eval R vars := by
      simp [Expr.eval, UnaryOp.apply]
    refine ⟨?_, ?_, hf.operands, hf.strings⟩
    · rw [heval]
      exact hf.toComputes
    · rw [heval, ← hkind]
      exact hf.string
  by_cases hnot : op = .not
  · subst hnot
    obtain ⟨f, hf, hr⟩ := lower_bind_ok hr
    cases hr
    refine of_eval ?_ (fun hstring => ?_) rfl rfl
    · simp [evalValue, Expr.eval, UnaryOp.apply, (hoperand f hf).eval]
    · cases hstring
      cases hdefined
  obtain ⟨v, rfl, hv, hmin, rfl⟩ | ⟨x, rfl, hv, rfl⟩ | ⟨sign, family, f, hop, hf, rfl⟩ :=
    ofExpr_unary_cases hr hplus hnot
  · obtain ⟨heval, hlit⟩ := eval_of_literal? vars operand htyped hv
    cases hkind.symm.trans hlit
    refine of_eval ?_ (fun h => by cases h) rfl rfl
    simp [evalValue, Expr.eval, heval, hkind, UnaryOp.apply, Kind.family?, Scalar.family?,
      Literal.value, H.negate_int v hmin, Run.primitive_pure]
  · obtain ⟨heval, hlit⟩ := eval_of_literal? vars operand htyped hv
    cases hkind.symm.trans hlit
    refine of_eval ?_ (fun h => by cases h) rfl rfl
    simp [evalValue, Expr.eval, heval, hkind, UnaryOp.apply, Kind.family?, Scalar.family?,
      Literal.value, H.negate_float x, Run.primitive_pure]
  · rw [hkind] at hop
    exact (hoperand f hf).of_sign hkind hop span

/-- A call of a function that is declared. -/
theorem of_call {d : Declared} (hcalls : H.CallsReturn d.results) {name : String} {args : List Expr}
    {fs : List Form} (hargs : evalValues R vars.flatten fs = Expr.evalAll R vars args)
    (span : Span) :
    ExprAgrees H vars (.call (.function name) args (d.results name) span) (.call name fs) := by
  refine of_eval ?_ (fun hstring w v w' h => ?_) rfl rfl
  · rw [evalValue, Expr.eval, hargs]
  · obtain ⟨vs, w₁, -, h⟩ := bind_eq_ok.1 h
    obtain ⟨store, hcall⟩ : ∃ store, R.call (R.constant (.symbol name)) vs w₁.store =
        .ok v store := by
      simp only [Run.callNamed, Run.call, Run.primitive] at h
      split at h
      · rename_i u store hu
        cases h
        exact ⟨store, hu⟩
      · cases h
    exact hcalls name hstring vs w₁.store v store hcall

end ExprAgrees

theorem Source.Kind.eq_of_scalar? {kind : Kind} (h : kind.scalar?.isSome = true) :
    ∃ s, kind = .scalar s := by
  cases kind with
  | scalar s => exact ⟨s, rfl⟩
  | _ => cases h

theorem asStored_of_scalar {e : Expr} (h : e.kind.scalar?.isSome = true) (f : Form) :
    asStored e f = f := by
  obtain ⟨s, hs⟩ := Kind.eq_of_scalar? h
  simp [asStored, hs, Kind.isArray]

section

variable {R : Runtime} {H : ScalarHost R} {d : Declared} {env : Environment}
  {known : Scopes Scalar} {vars : Scopes R.Value}

mutual
/-- The form of an expression does what the expression does. -/
theorem agrees_ofExpr (hcalls : H.CallsReturn d.results) (hvars : H.Holds known vars) (e : Expr)
    {f : Form} (hf : Form.ofExpr env e = .ok f) (htyped : e.isTyped d known = true) :
    ExprAgrees H vars e f := by
  cases e with
  | lit v kind span =>
      obtain rfl : kind = v.kind := by simpa [Expr.isTyped] using htyped
      cases hf
      exact .of_lit v span
  | ident name defines kind value span =>
      simp only [Expr.isTyped, Bool.and_eq_true, decide_eq_true_eq, Option.isNone_iff_eq_none]
        at htyped
      obtain ⟨⟨rfl, hscalar⟩, hknown⟩ := htyped
      obtain ⟨s, rfl⟩ := Kind.eq_of_scalar? hscalar
      simp only [Form.ofExpr] at hf
      split at hf
      · cases hf
      · cases hf
        exact .of_ident hvars hknown defines span
  | binary op left right kind span =>
      simp only [Expr.isTyped, Bool.and_eq_true, decide_eq_true_eq] at htyped
      obtain ⟨⟨⟨⟨hleft, hright⟩, hkinds⟩, hdefined⟩, rfl⟩ := htyped
      obtain ⟨l, hl, hf⟩ := lower_bind_ok hf
      obtain ⟨r, hr, hf⟩ := lower_bind_ok hf
      obtain ⟨s, hs⟩ : ∃ s, left.kind = .scalar s := by
        unfold BinaryOp.isDefinedOnKind at hdefined
        split at hdefined
        · exact ⟨_, ‹_›⟩
        · cases hdefined
      rw [hs] at hdefined hkinds ⊢
      -- operands of one kind leave no choice between their families
      have hfamily : (left.kind.family? <|> right.kind.family?) = s.family? := by
        rw [hs, ← hkinds]
        cases hfamily : s.family? <;> simp [Kind.family?, hfamily]
      rw [hfamily] at hf
      exact (agrees_ofExpr hcalls hvars left hl hleft).of_binary
        (agrees_ofExpr hcalls hvars right hr hright) hs hkinds.symm hdefined hf span
  | unary op operand kind span =>
      simp only [Expr.isTyped, Bool.and_eq_true, decide_eq_true_eq] at htyped
      obtain ⟨⟨hoperand, hdefined⟩, rfl⟩ := htyped
      obtain ⟨s, hs⟩ : ∃ s, operand.kind = .scalar s := by
        unfold UnaryOp.isDefinedOnKind at hdefined
        split at hdefined
        · exact ⟨_, ‹_›⟩
        · cases hdefined
      rw [hs] at hdefined hf ⊢
      exact .of_unary hoperand hs hdefined
        (fun g hg => agrees_ofExpr hcalls hvars operand hg hoperand) hf
  | call callee args kind span =>
      cases callee with
      | intrinsic name => cases htyped
      | function name =>
          simp only [Expr.isTyped, Bool.and_eq_true, decide_eq_true_eq] at htyped
          obtain ⟨⟨⟨hpanic, hlen⟩, hargs⟩, rfl⟩ := htyped
          simp only [Form.ofExpr] at hf
          split at hf
          · cases hf
          · obtain ⟨host, hhost, hf⟩ := lower_bind_ok hf
            obtain ⟨fs, hfs, hf⟩ := lower_bind_ok hf
            cases hf
            obtain rfl : host = name := by
              simp only [resolveFunction, hpanic, hlen, if_false] at hhost
              split at hhost <;> cases hhost
              rfl
            exact .of_call hcalls (evalValues_ofStoredList hcalls hvars args hfs hargs) span
  | paren inner span =>
      have hinner := agrees_ofExpr hcalls hvars inner hf htyped
      exact ⟨hinner.toComputes, hinner.string, hinner.operands, hinner.strings⟩
  | method _ _ _ _ _ | index _ _ _ _ | array _ _ _ => cases htyped

theorem evalValues_ofStoredList (hcalls : H.CallsReturn d.results) (hvars : H.Holds known vars)
    (es : List Expr) {fs : List Form} (hfs : Form.ofStoredList env es = .ok fs)
    (htyped : Expr.areTyped d known es = true) :
    evalValues R vars.flatten fs = Expr.evalAll R vars es := by
  cases es with
  | nil =>
      cases hfs
      rfl
  | cons e es =>
      simp only [Expr.areTyped, Bool.and_eq_true] at htyped
      obtain ⟨⟨he, hscalar⟩, hes⟩ := htyped
      obtain ⟨g, hg, hfs⟩ := lower_bind_ok hfs
      obtain ⟨gs, hgs, hfs⟩ := lower_bind_ok hfs
      cases hfs
      rw [asStored_of_scalar hscalar, evalValues, Expr.evalAll,
        (agrees_ofExpr hcalls hvars e hg he).eval,
        evalValues_ofStoredList hcalls hvars es hgs hes]
end

end

end StackCompiler
