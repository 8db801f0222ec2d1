import StackCompiler.Proofs.StmtMeaning

/-!
Parentheses. Whatever looks at the shape of an expression looks through the parentheses around it,
so that source has the same forms without them. One place does not: an assignment of the results of
a call does not find the call in parentheses and is refused. `ofStmt_bare` holds a statement against
the same statement without parentheses, and shows that nothing else can come between them.
-/

namespace StackCompiler

open Source

/-! ### Source without parentheses -/

namespace Source

mutual
/-- The expression without parentheses. -/
def Expr.bare : Expr → Expr
  | .lit v kind span => .lit v kind span
  | .ident name defines kind v span => .ident name defines kind v span
  | .binary op left right kind span => .binary op left.bare right.bare kind span
  | .unary op operand kind span => .unary op operand.bare kind span
  | .call callee args kind span => .call callee (Expr.bareAll args) kind span
  | .method receiver name args kind span =>
    .method receiver.bare name (Expr.bareAll args) kind span
  | .index base at' kind span => .index base.bare at'.bare kind span
  | .array elems kind span => .array (Expr.bareElements elems) kind span
  | .paren inner _ => inner.bare

def Expr.bareAll : List Expr → List Expr
  | [] => []
  | e :: es => e.bare :: Expr.bareAll es

def Expr.bareElements : List (Option Int64 × Expr) → List (Option Int64 × Expr)
  | [] => []
  | (key, e) :: rest => (key, e.bare) :: Expr.bareElements rest
end

def ValueSpec.bare (spec : ValueSpec) : ValueSpec :=
  { spec with values := Expr.bareAll spec.values }

mutual
def Stmt.bare : Stmt → Stmt
  | .expr e span => .expr e.bare span
  | .decl keyword specs span => .decl keyword (specs.map ValueSpec.bare) span
  | .assign targets op values span =>
    .assign (Expr.bareAll targets) op (Expr.bareAll values) span
  | .step direction target span => .step direction target.bare span
  | .ret results span => .ret (Expr.bareAll results) span
  | .block body span => .block (Stmt.bareAll body) span
  | .branch init cond body els span =>
    .branch (Stmt.bareOption init) cond.bare (Stmt.bareAll body) (Stmt.bareOption els) span
  | .loop init cond post body span =>
    .loop (Stmt.bareOption init) (cond.map Expr.bare) (Stmt.bareOption post) (Stmt.bareAll body)
      span
  | .breakLoop span => .breakLoop span
  | .continueLoop span => .continueLoop span

def Stmt.bareAll : List Stmt → List Stmt
  | [] => []
  | s :: rest => s.bare :: Stmt.bareAll rest

def Stmt.bareOption : Option Stmt → Option Stmt
  | none => none
  | some s => some s.bare
end

/-- Whether values for some targets are a single call in parentheses that stands for all of them. -/
def hidesCall (targets : Nat) : List Expr → Bool
  | [value] => targets != 1 && !value.isCall && value.unparen.isCall
  | _ => false

mutual
def Stmt.hidesCall : Stmt → Bool
  | .decl .var specs _ => specs.any fun spec => Source.hidesCall spec.names.length spec.values
  | .assign targets op values _ => op.binary?.isNone && Source.hidesCall targets.length values
  | .block body _ => Stmt.hidesCallAny body
  | .branch _ _ body els _ => Stmt.hidesCallAny body || Stmt.hidesCallOption els
  | .loop init _ post body _ =>
    Stmt.hidesCallOption init || Stmt.hidesCallAny body || Stmt.hidesCallOption post
  | _ => false

def Stmt.hidesCallAny : List Stmt → Bool
  | [] => false
  | s :: rest => s.hidesCall || Stmt.hidesCallAny rest

def Stmt.hidesCallOption : Option Stmt → Bool
  | none => false
  | some s => s.hidesCall
end

namespace Expr

theorem bareAll_eq_map (es : List Expr) : bareAll es = es.map bare := by
  induction es with
  | nil => rfl
  | cons e es ih => simp [bareAll, ih]

@[simp] theorem length_bareAll (es : List Expr) : (bareAll es).length = es.length := by
  rw [bareAll_eq_map, List.length_map]

@[simp] theorem kind_bare (e : Expr) : e.bare.kind = e.kind := by
  match e with
  | .lit .. | .ident .. | .binary .. | .unary .. | .call .. | .method .. | .index .. | .array .. =>
      simp [bare, kind]
  | .paren inner _ => exact kind_bare inner

@[simp] theorem literal?_bare (e : Expr) : e.bare.literal? = e.literal? := by
  match e with
  | .lit .. | .ident .. | .binary .. | .unary .. | .call .. | .method .. | .index .. | .array .. =>
      simp [bare, literal?]
  | .paren inner _ => exact literal?_bare inner

/-- Without parentheses an expression is a call if there is one inside those around it. -/
@[simp] theorem isCall_bare (e : Expr) : e.bare.isCall = e.unparen.isCall := by
  match e with
  | .lit .. | .ident .. | .binary .. | .unary .. | .call .. | .method .. | .index .. | .array .. =>
      simp [bare, unparen, isCall]
  | .paren inner _ => exact isCall_bare inner

@[simp] theorem isFresh_bare (e : Expr) : e.bare.isFresh = e.isFresh := by
  match e with
  | .lit .. | .ident .. | .binary .. | .unary .. | .call .. | .method .. | .index .. | .array .. =>
      simp [bare, isFresh, unparen]
  | .paren inner _ => exact isFresh_bare inner

mutual
@[simp] theorem containsCall_bare (e : Expr) : e.bare.containsCall = e.containsCall := by
  match e with
  | .lit .. | .ident .. | .call .. | .method .. => simp [bare, containsCall]
  | .binary _ left right _ _ =>
      simp [bare, containsCall, containsCall_bare left, containsCall_bare right]
  | .unary _ operand _ _ => simp [bare, containsCall, containsCall_bare operand]
  | .index base at' _ _ => simp [bare, containsCall, containsCall_bare base, containsCall_bare at']
  | .array elems _ _ => simp [bare, containsCall, elementsContainCall_bare elems]
  | .paren inner _ => simp [bare, containsCall, containsCall_bare inner]

theorem elementsContainCall_bare (elems : List (Option Int64 × Expr)) :
    elementsContainCall (bareElements elems) = elementsContainCall elems := by
  match elems with
  | [] => rfl
  | (key, e) :: rest =>
      simp [bareElements, elementsContainCall, containsCall_bare e, elementsContainCall_bare rest]
end

/-- The first argument of tuple kind is the same one. -/
theorem find?_bareAll (es : List Expr) :
    (bareAll es).find? (·.kind.isTuple) = (es.find? (·.kind.isTuple)).map bare := by
  have hkind : (fun e : Expr => e.kind.isTuple) ∘ bare = fun e => e.kind.isTuple := by
    funext e
    rw [Function.comp_apply, kind_bare]
  rw [bareAll_eq_map, List.find?_map, hkind]

end Expr

end Source

/-! ### Results held against each other -/

def CompileError.unplaced : CompileError → CompileError
  | .unsupported what _ => .unsupported what {}
  | .unresolved name _ => .unresolved name {}
  | e => e

/-- Two results of lowering: related values, or errors that differ at most in their places. If the
source hides a call, the first may also be an error by itself. -/
inductive Alike (hidden : Bool) {α β : Type} (R : α → β → Prop) : Lower α → Lower β → Prop where
  | ok {a : α} {b : β} (h : R a b) : Alike hidden R (.ok a) (.ok b)
  | error {e e' : CompileError} (h : e.unplaced = e'.unplaced) :
      Alike hidden R (.error e) (.error e')
  | refused {e : CompileError} {y : Lower β} (h : hidden = true) : Alike hidden R (.error e) y

namespace Alike

variable {α β γ δ : Type} {hidden hidden' : Bool} {R : α → β → Prop} {S : γ → δ → Prop}
  {x : Lower α} {y : Lower β}

theorem refl (x : Lower α) : Alike hidden Eq x x := by
  cases x with
  | ok a => exact .ok rfl
  | error e => exact .error rfl

theorem refuse (what : Unsupported) (span span' : Span) :
    Alike hidden R (StackCompiler.refuse what span) (StackCompiler.refuse what span') :=
  .error rfl

theorem unresolved (name : String) (span span' : Span) :
    Alike hidden R (.error (.unresolved name span)) (.error (.unresolved name span')) :=
  .error rfl

theorem bind {f : α → Lower γ} {g : β → Lower δ} (hx : Alike hidden R x y)
    (hf : ∀ a b, R a b → Alike hidden S (f a) (g b)) : Alike hidden S (x >>= f) (y >>= g) := by
  rcases hx with h | h | h
  · exact hf _ _ h
  · exact .error h
  · exact .refused h

/-- The common case of values that are the same. -/
theorem bind_eq {x y : Lower α} {f : α → Lower γ} {g : α → Lower δ} (hx : Alike hidden Eq x y)
    (hf : ∀ a, Alike hidden S (f a) (g a)) : Alike hidden S (x >>= f) (y >>= g) :=
  hx.bind fun a _ h => h ▸ hf a

theorem mono (hx : Alike hidden R x y) (h : hidden = true → hidden' = true) :
    Alike hidden' R x y := by
  rcases hx with hok | herror | hrefused
  · exact .ok hok
  · exact .error herror
  · exact .refused (h hrefused)

/-- A value of the first is one of the second. -/
theorem ok_of_ok {x y : Lower α} (hx : Alike hidden Eq x y) {a : α} (h : x = .ok a) :
    y = .ok a := by
  rcases hx with hok | _ | _
  · rw [← hok]
    exact h
  all_goals cases h

/-- Where no call is hidden, the two are the same but for the places of errors. -/
theorem mapError_eq {x y : Lower α} (hx : Alike false Eq x y) :
    x.mapError CompileError.unplaced = y.mapError CompileError.unplaced := by
  rcases hx with hok | herror | hrefused
  · rw [hok]
  · exact congrArg Except.error herror
  · cases hrefused

end Alike

/-! ### Expressions -/

section

variable {env : Environment} {hidden : Bool}

@[simp] theorem asStored_bare (e : Expr) (f : Form) : asStored e.bare f = asStored e f := by
  simp [asStored]

theorem ofStoredList_bare_of_forall {es : List Expr}
    (hes : ∀ e ∈ es, Alike hidden Eq (Form.ofExpr env e) (Form.ofExpr env e.bare)) :
    Alike hidden Eq (Form.ofStoredList env es) (Form.ofStoredList env (Expr.bareAll es)) := by
  induction es with
  | nil => exact .refl _
  | cons e es ih =>
      rw [List.forall_mem_cons] at hes
      refine .bind_eq hes.1 fun f => .bind_eq (ih hes.2) fun fs => ?_
      rw [asStored_bare]
      exact .refl _

theorem ofElements_bare_of_forall {elems : List (Option Int64 × Expr)} {declared : Option Nat}
    {next : Int64}
    (helems : ∀ elem ∈ elems,
      Alike hidden Eq (Form.ofExpr env elem.2) (Form.ofExpr env elem.2.bare)) :
    Alike hidden Eq (Form.ofElements env declared next elems)
      (Form.ofElements env declared next (Expr.bareElements elems)) := by
  induction elems generalizing next with
  | nil => exact .refl _
  | cons elem rest ih =>
      obtain ⟨key, e⟩ := elem
      rw [List.forall_mem_cons] at helems
      simp only [Expr.bareElements, Form.ofElements]
      split
      · refine .bind_eq helems.1 fun f => .bind_eq (ih helems.2) fun stores => ?_
        rw [asStored_bare]
        exact .refl _
      · exact .refuse _ _ _

/-- An intrinsic with arguments that are lowered alike. -/
theorem ofIntrinsic_bare {i : Intrinsic} {name : String} {args : List Expr} {span : Span}
    (hargs : ∀ e ∈ args, Alike hidden Eq (Form.ofExpr env e) (Form.ofExpr env e.bare))
    {kind kind' : Kind} {span' : Span} (hname : Intrinsic.ofName? name = some i)
    (htuple : args.find? (·.kind.isTuple) = none) :
    Alike hidden Eq (Form.ofExpr env (.call (.intrinsic name) args kind span))
      (Form.ofExpr env (.call (.intrinsic name) (Expr.bareAll args) kind' span')) := by
  unfold Form.ofExpr
  simp only [Expr.find?_bareAll, htuple, Option.map_none, hname]
  cases args with
  | nil => cases i <;> exact .refuse _ _ _
  | cons target rest =>
      rw [List.forall_mem_cons] at hargs
      have hrest := ofStoredList_bare_of_forall hargs.2
      have hdynamic := hargs.1.bind_eq fun f =>
        hrest.bind_eq fun fs => .refl (.ok (Form.dynCall f fs))
      cases i with
      | dynCall => exact hdynamic
      | call =>
          simp only [Expr.bareAll, Expr.literal?_bare]
          split
          · exact hrest.bind_eq fun fs => .refl _
          · exact hdynamic
      | wrap =>
          cases rest with
          | nil => exact hargs.1
          | cons second others =>
              simp only [Expr.bareAll, List.length_cons, Expr.length_bareAll]
              exact .refuse _ _ _
      | intern =>
          cases rest with
          | nil =>
              simp only [Expr.bareAll, Expr.literal?_bare]
              split
              · exact .refl _
              · exact hargs.1.bind_eq fun f => .refl _
          | cons second others =>
              simp only [Expr.bareAll, List.length_cons, Expr.length_bareAll]
              exact .refuse _ _ _

/-- A call with arguments that are lowered alike. -/
theorem ofExpr_call_bare {callee : Callee} {args : List Expr} {kind : Kind} {span : Span}
    (hargs : ∀ e ∈ args, Alike hidden Eq (Form.ofExpr env e) (Form.ofExpr env e.bare)) :
    Alike hidden Eq (Form.ofExpr env (.call callee args kind span))
      (Form.ofExpr env (.call callee (Expr.bareAll args) kind span)) := by
  have hstored := ofStoredList_bare_of_forall hargs
  cases htuple : args.find? (·.kind.isTuple) with
  | some arg =>
      unfold Form.ofExpr
      rw [Expr.find?_bareAll, htuple]
      exact .refuse _ _ _
  | none =>
      cases callee with
      | function name =>
          unfold Form.ofExpr
          rw [Expr.find?_bareAll, htuple, Expr.length_bareAll]
          exact .bind_eq (.refl _) fun host => hstored.bind_eq fun fs => .refl _
      | intrinsic name =>
          cases hname : Intrinsic.ofName? name with
          | some i => exact ofIntrinsic_bare hargs hname htuple
          | none =>
              unfold Form.ofExpr
              simp only [Expr.find?_bareAll, htuple, Option.map_none, hname]
              split
              · exact .unresolved _ _ _
              · exact hstored.bind_eq fun fs => .refl _

theorem ofExpr_method_bare {receiver : Expr} {name : String} {args : List Expr} {kind : Kind}
    {span : Span}
    (hreceiver : Alike hidden Eq (Form.ofExpr env receiver) (Form.ofExpr env receiver.bare)) :
    Alike hidden Eq (Form.ofExpr env (.method receiver name args kind span))
      (Form.ofExpr env (.method receiver.bare name (Expr.bareAll args) kind span)) := by
  have hempty : (Expr.bareAll args).isEmpty = args.isEmpty := by
    rw [Expr.bareAll_eq_map, List.isEmpty_map]
  unfold Form.ofExpr
  rw [Expr.find?_bareAll, hempty]
  cases args.find? (·.kind.isTuple) with
  | some arg => exact .refuse _ _ _
  | none =>
      simp only [Option.map_none]
      split
      · exact .unresolved _ _ _
      · split
        · exact hreceiver.bind_eq fun f => .refl _
        · exact .refuse _ _ _

/-- A sign before an operand that is lowered alike. -/
theorem ofExpr_unary_bare {op : UnaryOp} {operand : Expr} {kind : Kind} {span : Span}
    (hoperand : Alike hidden Eq (Form.ofExpr env operand) (Form.ofExpr env operand.bare)) :
    Alike hidden Eq (Form.ofExpr env (.unary op operand kind span))
      (Form.ofExpr env (.unary op operand.bare kind span)) := by
  cases op with
  | plus =>
      simp only [Form.ofExpr]
      exact hoperand
  | not =>
      simp only [Form.ofExpr]
      exact hoperand.bind_eq fun f => .refl _
  | neg =>
      simp only [Form.ofExpr, Expr.literal?_bare, Expr.kind_bare]
      split
      · exact .refl _
      · exact .refl _
      · split
        · exact .refuse _ _ _
        · exact hoperand.bind_eq fun f => .refl _
  | bitNot =>
      simp only [Form.ofExpr, Expr.kind_bare]
      split
      · exact .refuse _ _ _
      · exact hoperand.bind_eq fun f => .refl _

/-- Parentheses in an expression make no difference. -/
theorem ofExpr_bare (e : Expr) : Alike hidden Eq (Form.ofExpr env e) (Form.ofExpr env e.bare) := by
  induction e using Expr.induction with
  | lit v kind span => exact .refl _
  | ident name defines kind v span => exact .refl _
  | binary op left right kind span ihleft ihright =>
      simp only [Form.ofExpr, Expr.bare, Expr.kind_bare]
      exact ihleft.bind_eq fun l => ihright.bind_eq fun r => .refl _
  | unary op operand kind span ih => exact ofExpr_unary_bare ih
  | call callee args kind span ihargs => exact ofExpr_call_bare ihargs
  | method receiver name args kind span ih _ => exact ofExpr_method_bare ih
  | index base at' kind span ihbase ihat =>
      exact ihbase.bind_eq fun b => ihat.bind_eq fun i => .refl _
  | array elems kind span ihelems =>
      have hstores (declared : Option Nat) :
          Alike hidden Eq (Form.ofElements env declared 0 elems)
            (Form.ofElements env declared 0 (Expr.bareElements elems)) :=
        ofElements_bare_of_forall ihelems
      cases kind with
      | array elem length => exact (hstores (some length)).bind_eq fun stores => .refl _
      | slice elem => exact (hstores none).bind_eq fun stores => .refl _
      | scalar _ | void | tuple _ => exact .refl _
  | paren inner span ih => exact ih

/-- The forms of stored values are the same. -/
theorem ofStoredList_bare (es : List Expr) :
    Alike hidden Eq (Form.ofStoredList env es) (Form.ofStoredList env (Expr.bareAll es)) :=
  ofStoredList_bare_of_forall fun e _ => ofExpr_bare e

/-! ### Assignments -/

namespace Target

def bare : Target → Target
  | element base at' => element base.bare at'.bare
  | t => t

@[simp] theorem isBlank_bare (t : Target) : t.bare.isBlank = t.isBlank := by
  cases t <;> rfl

@[simp] theorem isDefine_bare (t : Target) : t.bare.isDefine = t.isDefine := by
  cases t <;> rfl

@[simp] theorem bare_ofName (name : String) : (ofName name).bare = ofName name := by
  unfold ofName
  split <;> rfl

/-- A call in the choice of an element is found in parentheses, too. -/
theorem isSome_callSpan?_bare (t : Target) : t.bare.callSpan?.isSome = t.callSpan?.isSome := by
  cases t with
  | element base at' =>
      simp only [bare, callSpan?, Expr.containsCall_bare]
      split <;> rfl
  | _ => rfl

theorem isSome_findSome?_bare (ts : List Target) :
    ((ts.map bare).findSome? callSpan?).isSome = (ts.findSome? callSpan?).isSome := by
  induction ts with
  | nil => rfl
  | cons t ts ih =>
      have ht := isSome_callSpan?_bare t
      rw [List.map_cons, List.findSome?_cons, List.findSome?_cons]
      cases h : t.callSpan? <;> cases h' : t.bare.callSpan? <;> simp_all

/-- The target of an expression in parentheses is that of the expression. -/
theorem ofExpr_bare (e : Expr) :
    Alike hidden (fun t u => u = t.bare) (ofExpr e) (ofExpr e.bare) := by
  match e with
  | .ident name defines kind v span =>
      refine .ok ?_
      split
      · rfl
      · split <;> rfl
  | .index base at' kind span => exact .ok rfl
  | .paren inner span => exact ofExpr_bare inner
  | .lit .. | .binary .. | .unary .. | .call .. | .method .. | .array .. => exact .refuse _ _ _

theorem store_bare (t : Target) (value : Form) :
    Alike hidden Eq (t.store env value) (t.bare.store env value) := by
  cases t with
  | element base at' =>
      refine (StackCompiler.ofExpr_bare base).bind_eq fun b => ?_
      exact (StackCompiler.ofExpr_bare at').bind_eq fun i => .refl _
  | _ => exact .refl _

end Target

def barePairs (pairs : List (Target × Form)) : List (Target × Form) :=
  pairs.map fun pair => (pair.1.bare, pair.2)

theorem zip_bare (ts : List Target) (fs : List Form) :
    (ts.map Target.bare).zip fs = barePairs (ts.zip fs) := by
  rw [barePairs, List.zip_map_left]
  rfl

theorem resultRefs_bare (index : Nat) (ts : List Target) :
    resultRefs index (ts.map Target.bare) = barePairs (resultRefs index ts) := by
  induction ts generalizing index with
  | nil => rfl
  | cons t ts ih => simp [resultRefs, barePairs, ih]

theorem storeEach_bare (pairs : List (Target × Form)) :
    Alike hidden Eq (storeEach env pairs) (storeEach env (barePairs pairs)) := by
  induction pairs with
  | nil => exact .refl _
  | cons pair pairs ih =>
      obtain ⟨t, value⟩ := pair
      exact (t.store_bare value).bind_eq fun first => ih.bind_eq fun others => .refl _

theorem storeThroughTemporaries_bare (position : Nat) (pairs : List (Target × Form)) :
    Alike hidden Eq (storeThroughTemporaries env position pairs)
      (storeThroughTemporaries env position (barePairs pairs)) := by
  induction pairs generalizing position with
  | nil => exact .refl _
  | cons pair pairs ih =>
      obtain ⟨t, value⟩ := pair
      have hone : Alike hidden Eq (storeThroughTemporary env position t value)
          (storeThroughTemporary env position t.bare value) := by
        simp only [storeThroughTemporary, Target.isBlank_bare]
        split
        · exact .refl _
        · exact (t.store_bare _).bind_eq fun stores => .refl _
      exact hone.bind_eq fun first => (ih (position + 1)).bind_eq fun others => .refl _

theorem needsTemporaries_bare (ts : List Target) (fs : List Form) :
    needsTemporaries (ts.map Target.bare) fs = needsTemporaries ts fs := by
  simp [needsTemporaries, List.any_map, Function.comp_def]

theorem assignPairwise_bare (ts : List Target) (values : List Expr) :
    Alike hidden Eq (assignPairwise env ts values)
      (assignPairwise env (ts.map Target.bare) (Expr.bareAll values)) := by
  refine (ofStoredList_bare values).bind_eq fun fs => ?_
  have hdefine : (ts.map Target.bare).any Target.isDefine = ts.any Target.isDefine := by
    simp [List.any_map, Function.comp_def]
  rw [needsTemporaries_bare, zip_bare, hdefine]
  split
  · exact (storeThroughTemporaries_bare 0 _).bind_eq fun parts => .refl _
  · exact storeEach_bare _

theorem destructure_bare (ts : List Target) (call : Expr) :
    Alike hidden Eq (destructure env ts call)
      (destructure env (ts.map Target.bare) call.bare) := by
  cases ts with
  | nil => exact .refl _
  | cons first rest =>
      have hfind := Target.isSome_findSome?_bare rest
      simp only [destructure, List.map_cons]
      cases h : rest.findSome? Target.callSpan? with
      | some span =>
          obtain ⟨span', h'⟩ := Option.isSome_iff_exists.1 (hfind.trans (by rw [h]; rfl))
          simp only [h']
          exact .refuse _ _ _
      | none =>
          have h' : (rest.map Target.bare).findSome? Target.callSpan? = none := by
            rw [h] at hfind
            exact Option.isNone_iff_eq_none.1 (Option.isSome_eq_false_iff.1 hfind)
          simp only [h', resultRefs_bare]
          exact (ofExpr_bare call).bind_eq fun value => storeEach_bare _

/-- Values for targets. A call for several of them is not found in parentheses. -/
theorem assignValues_bare (ts : List Target) (values : List Expr) (span : Span) :
    Alike (hidesCall ts.length values) Eq (assignValues env ts values span)
      (assignValues env (ts.map Target.bare) (Expr.bareAll values) span) := by
  simp only [assignValues, List.length_map, Expr.length_bareAll]
  split
  · exact assignPairwise_bare ts values
  · rename_i hlength
    match values with
    | [] => exact .refuse _ _ _
    | [call] =>
        simp only [Expr.bareAll, Expr.isCall_bare, Expr.kind_bare]
        cases hcall : call.isCall with
        | true =>
            have hinner : call.unparen.isCall = true := by
              cases call <;> first | exact hcall | cases hcall
            simp only [hinner, if_true]
            split
            · exact destructure_bare ts call
            · exact .refuse _ _ _
        | false =>
            cases hinner : call.unparen.isCall with
            | true =>
                -- only here does it matter whether the call stands in parentheses
                refine .refused ?_
                simpa [hidesCall, hcall, hinner] using hlength
            | false => exact .refuse _ _ _
    | first :: second :: rest =>
        simp only [Expr.bareAll, List.length_cons, Expr.length_bareAll]
        exact .refuse _ _ _

theorem specForms_bare (spec : ValueSpec) :
    Alike (hidesCall spec.names.length spec.values) Eq (specForms env spec)
      (specForms env spec.bare) := by
  have hempty : (Expr.bareAll spec.values).isEmpty = spec.values.isEmpty := by
    rw [Expr.bareAll_eq_map, List.isEmpty_map]
  simp only [specForms, ValueSpec.bare, hempty]
  split
  · exact .refl _
  · have hvalues : Alike _ Eq (assignValues env (spec.names.map Target.ofName) _ _) _ :=
      assignValues_bare (spec.names.map Target.ofName) spec.values spec.span
    have htargets : (spec.names.map Target.ofName).map Target.bare =
        spec.names.map Target.ofName := by simp
    rwa [List.length_map, htargets] at hvalues

theorem specsForms_bare (specs : List ValueSpec) :
    Alike (specs.any fun spec => hidesCall spec.names.length spec.values) Eq
      (specsForms env specs) (specsForms env (specs.map ValueSpec.bare)) := by
  induction specs with
  | nil => exact .refl _
  | cons spec specs ih =>
      rw [List.any_cons]
      refine .bind_eq ((specForms_bare spec).mono fun h => by simp [h]) fun first => ?_
      exact (ih.mono fun h => by simp [h]).bind_eq fun others => .refl _

/-- There is a target for every expression on the left. -/
theorem targetsOf_bare (lhs : List Expr) :
    Alike hidden (fun ts us => us = ts.map Target.bare ∧ ts.length = lhs.length) (targetsOf lhs)
      (targetsOf (Expr.bareAll lhs)) := by
  induction lhs with
  | nil => exact .ok ⟨rfl, rfl⟩
  | cons e es ih =>
      refine (Target.ofExpr_bare e).bind fun t u ht => ih.bind fun ts us hts => .ok ⟨?_, ?_⟩
      · rw [ht, hts.1, List.map_cons]
      · rw [List.length_cons, List.length_cons, hts.2]

theorem assignForms_bare (lhs : List Expr) (op : AssignOp) (rhs : List Expr) (span : Span) :
    Alike (Stmt.assign lhs op rhs span).hidesCall Eq (assignForms env lhs op rhs span)
      (assignForms env (Expr.bareAll lhs) op (Expr.bareAll rhs) span) := by
  refine (targetsOf_bare lhs).bind fun ts us hts => ?_
  obtain ⟨rfl, hlength⟩ := hts
  cases hop : op.binary? with
  | none =>
      refine (assignValues_bare ts rhs span).mono fun h => ?_
      simpa [Stmt.hidesCall, hop, ← hlength] using h
  | some binary =>
      match ts, lhs, rhs with
      | [target], [left], [right] =>
          simp only [List.map_cons, List.map_nil, Expr.bareAll, Expr.kind_bare]
          refine (ofExpr_bare left).bind_eq fun current => ?_
          refine (ofExpr_bare right).bind_eq fun operand => ?_
          exact .bind_eq (.refl _) fun value => target.store_bare value
      | [], _, _ | _ :: _ :: _, _, _ | [_], [], _ | [_], _ :: _ :: _, _ | [_], [_], []
      | [_], [_], _ :: _ :: _ => exact .refuse _ _ _

theorem stepForms_bare (direction : Step) (target : Expr) (span : Span) :
    Alike hidden Eq (stepForms env direction target span)
      (stepForms env direction target.bare span) := by
  simp only [stepForms, Expr.kind_bare]
  split
  · exact .refuse _ _ _
  · refine (Target.ofExpr_bare target).bind fun t u ht => ?_
    subst ht
    exact (ofExpr_bare target).bind_eq fun current => t.store_bare _

theorem returnForms_bare (results : List Expr) (span : Span) :
    Alike hidden Eq (returnForms env results span)
      (returnForms env (Expr.bareAll results) span) := by
  have htuple : returnsTuple (Expr.bareAll results) = returnsTuple results := by
    match results with
    | [] | _ :: _ :: _ => rfl
    | [result] => simp [Expr.bareAll, returnsTuple]
  simp only [returnForms, htuple]
  split
  · exact .refuse _ _ _
  · exact (ofStoredList_bare results).bind_eq fun fs => .refl _

/-! ### Statements -/

theorem ofCondition_bare (cond : Option Expr) :
    Alike hidden Eq (Form.ofCondition env cond) (Form.ofCondition env (cond.map Expr.bare)) := by
  cases cond with
  | none => exact .refl _
  | some e => exact ofExpr_bare e

mutual
/-- A statement without its parentheses has the same forms, unless they hide a call. -/
theorem ofStmt_bare (inLoop : Bool) (s : Stmt) :
    Alike s.hidesCall Eq (Block.ofStmt env inLoop s) (Block.ofStmt env inLoop s.bare) := by
  cases s with
  | expr e span => exact (ofExpr_bare e).bind_eq fun f => .refl _
  | decl keyword specs span =>
      cases keyword with
      | var => exact specsForms_bare specs
      | const => exact .refl _
      | type => exact .refuse _ _ _
  | assign targets op values span => exact assignForms_bare targets op values span
  | step direction target span => exact stepForms_bare direction target span
  | ret results span => exact returnForms_bare results span
  | block body span => exact (ofStmts_bare inLoop body).bind_eq fun fs => .refl _
  | branch init cond body els span =>
      cases init with
      | some s => exact .refuse _ _ _
      | none =>
          rw [ofStmt_branch, Stmt.bare, Stmt.bareOption, ofStmt_branch]
          refine (ofExpr_bare cond).bind_eq fun c => ?_
          refine ((ofStmts_bare inLoop body).mono fun h => ?_).bind_eq fun fs => ?_
          · simp [Stmt.hidesCall, h]
          refine ((ofOption_bare inLoop els).mono fun h => ?_).bind_eq fun other => .refl _
          simp [Stmt.hidesCall, h]
  | loop init cond post body span =>
      rw [ofStmt_loop, Stmt.bare, ofStmt_loop]
      refine ((ofOption_bare inLoop init).mono fun h => ?_).bind_eq fun prepared => ?_
      · simp [Stmt.hidesCall, h]
      refine (ofCondition_bare cond).bind_eq fun c => ?_
      refine ((ofStmts_bare true body).mono fun h => ?_).bind_eq fun fs => ?_
      · simp [Stmt.hidesCall, h]
      refine ((ofOption_bare inLoop post).mono fun h => ?_).bind_eq fun after => .refl _
      simp [Stmt.hidesCall, h]
  | breakLoop span => exact .refl _
  | continueLoop span => exact .refl _
termination_by structural s

theorem ofStmts_bare (inLoop : Bool) (ss : List Stmt) :
    Alike (Stmt.hidesCallAny ss) Eq (Block.ofStmts env inLoop ss)
      (Block.ofStmts env inLoop (Stmt.bareAll ss)) := by
  cases ss with
  | nil => exact .refl _
  | cons s rest =>
      refine ((ofStmt_bare inLoop s).mono fun h => ?_).bind_eq fun first => ?_
      · simp [Stmt.hidesCallAny, h]
      refine ((ofStmts_bare inLoop rest).mono fun h => ?_).bind_eq fun others => .refl _
      simp [Stmt.hidesCallAny, h]
termination_by structural ss

theorem ofOption_bare (inLoop : Bool) (s? : Option Stmt) :
    Alike (Stmt.hidesCallOption s?) Eq (Block.ofOption env inLoop s?)
      (Block.ofOption env inLoop (Stmt.bareOption s?)) := by
  cases s? with
  | none => exact .refl _
  | some s => exact (ofStmt_bare inLoop s).bind_eq fun fs => .refl _
termination_by structural s?
end

end

/-- Parentheses are transparent. A statement that is lowered has the same forms without them. If
they hide no call that gives several results, the statement is lowered exactly if it is without
them, and the errors of both differ at most in their places. -/
theorem parentheses_transparent (env : Environment) (inLoop : Bool) (s : Stmt) :
    (∀ fs, Block.ofStmt env inLoop s = .ok fs → Block.ofStmt env inLoop s.bare = .ok fs) ∧
      (s.hidesCall = false →
        (Block.ofStmt env inLoop s).mapError CompileError.unplaced =
          (Block.ofStmt env inLoop s.bare).mapError CompileError.unplaced) := by
  have halike : Alike s.hidesCall Eq (Block.ofStmt env inLoop s) (Block.ofStmt env inLoop s.bare) :=
    ofStmt_bare inLoop s
  refine ⟨fun fs h => halike.ok_of_ok h, fun hnone => ?_⟩
  rw [hnone] at halike
  exact halike.mapError_eq

def pairHost : Environment := ⟨.empty, ⟨[("Pair", "pair")]⟩⟩

/-- Rounds of `(a)[(i)] += (-(x)); (x), y = pair((a[i]))`, as long as `(i) < (3)`. -/
def pairRounds : Stmt :=
  .loop none (some (.paren (.ofBinary .less (.paren (.ofName "i" .int) {})
      (.paren (.ofLiteral (.int 3)) {})) {})) none
    [.assign [.index (.paren (.ofName "a" (.slice .int)) {}) (.paren (.ofName "i" .int) {}) .int {}]
        .add [.paren (.unary .neg (.paren (.ofName "x" .int) {}) .int {}) {}] {},
      .assign [.paren (.ofName "x" .int) {}, .ofName "y" .int] .assign
        [.call (.intrinsic "Pair") [.paren (.index (.ofName "a" (.slice .int)) (.ofName "i" .int)
          .int {}) {}] (.tuple 2) {}] {}] {}

theorem parentheses_transparent_pairRounds :
    pairRounds.hidesCall = false ∧
      (∃ fs, Block.ofStmt pairHost false pairRounds = .ok fs ∧
        Block.ofStmt pairHost false pairRounds.bare = .ok fs) ∧
      (Block.ofStmt pairHost false pairRounds).mapError CompileError.unplaced =
        (Block.ofStmt pairHost false pairRounds.bare).mapError CompileError.unplaced := by
  obtain ⟨hforms, herrors⟩ := parentheses_transparent pairHost false pairRounds
  have hnone : pairRounds.hidesCall = false := by decide
  exact ⟨hnone, ⟨_, rfl, hforms _ rfl⟩, herrors hnone⟩

/-- The results of a call in parentheses cannot be assigned, while those of the call itself can. -/
theorem parentheses_hide_call :
    Block.ofStmt pairHost false (.assign [.ofDefinition "a" .int, .ofDefinition "b" .int] .define
        [.paren (.call (.intrinsic "Pair") [] (.tuple 2) {}) {}] {}) =
      .error (.unsupported (.countMismatch 1 2) {}) ∧
    Block.ofStmt pairHost false (Stmt.assign [.ofDefinition "a" .int, .ofDefinition "b" .int]
        .define [.paren (.call (.intrinsic "Pair") [] (.tuple 2) {}) {}] {}).bare =
      .ok [.bind "a" (.call "pair" []), .bind "b" (.resultRef 1)] :=
  ⟨rfl, rfl⟩

end StackCompiler
