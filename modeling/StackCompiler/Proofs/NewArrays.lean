import StackCompiler.Proofs.OperandShape
import StackCompiler.Proofs.TypedForms

/-!
Which arrays are new. The form of a stored expression is a copy, a literal or a call; what a call
yields is new if the function returns what it has just made. `isNew_asStored` shows that where kinds
are respected, the value of an expression that is stored as an array is an array that nothing else
refers to, and `callsMeet_isTactful` that functions of the package are given no other arrays.
-/

namespace StackCompiler

open Source

/-! ### New arrays -/

/-- Functions that every host provides to compiled code, apart from the one that calls values. -/
def Host.helpers : List String :=
  [coerceBool, coerceInt, coerceFloat, coerceString, coerceSymbol, raise, stringLessEq,
    stringGreaterEq, stringGreater, intern, copySequence, makeVector, vector, length, eq, bitOr,
    bitAnd, bitXor, bitNot]

/-- Whether no function of the package has the name of one that the host provides. -/
def Source.Package.sparesHelpers (P : Package) : Bool :=
  (Host.funcall :: Host.helpers).all fun name => (P.find? name).isNone

section

variable (P : Package)

/-- Whether the value of a form that is used as an array is no array, or one that the form has made.
A function value that is used so has to yield an array. -/
def Form.isNew : Form → Bool
  | .copy _ | .array _ | .dynCall _ _ => true
  | .sparseArray ctor _ => ctor.isNew
  | .call name _ => (P.find? name).all fun f => startsWithArray f.results
  | f => f.isAtom

/-- Whether a new array is given wherever an array is asked for. -/
def givesNew (asked : List Kind) (given : List Form) : Bool :=
  (asked.zip given).all fun (kind, f) => !kind.isArray || f.isNew P

def passesNew (f : Function) (args : List Form) : Bool :=
  givesNew P (f.params.map Param.kind) args

/-- Whether a form, apart from its parts, gives only new arrays to a function of the package that it
names. -/
def Form.isTactful : Form → Prop
  | .call name args => ∀ f, P.find? name = some f → passesNew P f args = true
  | _ => True

def Form.isQuiet : Form → Bool
  | .call name _ => (P.find? name).isNone && name ≠ Host.funcall
  | .dynCall _ _ => false
  | _ => true

def Source.Expr.Respects (env : Environment) (e : Expr) : Prop :=
  ∀ part ∈ e.parts, part.keepsKinds P env = true

end

section

variable {P : Package} {env : Environment} {e : Expr} {f : Form}

theorem find?_funcall (hspares : P.sparesHelpers = true) : P.find? Host.funcall = none := by
  simpa using List.all_eq_true.1 hspares Host.funcall List.mem_cons_self

theorem ne_funcall_of_mem_helpers {name : String} (hname : name ∈ Host.helpers) :
    name ≠ Host.funcall := by
  rintro rfl
  exact absurd hname (by decide)

theorem find?_helper (hspares : P.sparesHelpers = true) {name : String}
    (h : name ∈ Host.helpers) : P.find? name = none := by
  have := List.all_eq_true.1 hspares name (List.mem_cons_of_mem _ h)
  simpa using this

theorem startsWithArray_of_yieldsArray {g : Function} (h : g.yieldsArray = true) :
    startsWithArray g.results = true := by
  unfold Function.yieldsArray at h
  split at h
  · rename_i kind hresults
    simp [startsWithArray, hresults, h]
  · cases h

theorem Source.Expr.mem_parts_self (e : Expr) : e ∈ e.parts := by
  cases e with
  | _ => simp [Expr.parts]

theorem Source.Expr.Respects.self (h : e.Respects P env) : e.keepsKinds P env = true :=
  h e (Expr.mem_parts_self e)

theorem resolveFunction_span {name host : String} {n : Nat} {span : Span}
    (h : resolveFunction env name n span = .ok host) (span' : Span) :
    resolveFunction env name n span' = .ok host := by
  unfold resolveFunction refuse at h ⊢
  split at h
  · split at h
    · simp_all
    · cases h
  · split at h
    · split at h
      · simp_all
      · cases h
    · split at h
      · simp_all
      · cases h

theorem coercion?_mem_helpers {name host : String} (h : coercion? name = some host) :
    host ∈ Host.helpers := by
  unfold coercion? at h
  split at h <;> cases h <;> decide

/-- What a call stands for, by the kinds that it passes: a call by name or through a value, its only
argument, a symbol, or a symbol made of its only argument. -/
inductive KindedCall (env : Environment) (args : List Expr) (kind : Kind) (e : Expr) :
    Form → Prop where
  | named {host : String} {passed : List Expr} {fs : List Form} (hpassed : passed <:+ args)
      (hcall : e.namedCall? env = some (host, ⟨passed.map Expr.kind, kind⟩))
      (hfs : Form.ofStoredList env passed = .ok fs) : KindedCall env args kind e (.call host fs)
  | value {target : Expr} {passed : List Expr} {f : Form} {fs : List Form}
      (hargs : args = target :: passed) (hcall : e.callsValue = true)
      (hnone : e.namedCall? env = none) (htarget : Form.ofExpr env target = .ok f)
      (hfs : Form.ofStoredList env passed = .ok fs) : KindedCall env args kind e (.dynCall f fs)
  | wrap {arg : Expr} {f : Form} (hwrap : e.isWrap = true) (hargs : args = [arg])
      (hcall : e.callsValue = false) (hnone : e.namedCall? env = none)
      (harg : Form.ofExpr env arg = .ok f) : KindedCall env args kind e f
  | symbol (name : String) (hcall : e.callsValue = false) (hnone : e.namedCall? env = none) :
      KindedCall env args kind e (.symbol name)
  | intern {arg : Expr} {f : Form} (hargs : args = [arg]) (hcall : e.callsValue = false)
      (hnone : e.namedCall? env = none) (harg : Form.ofExpr env arg = .ok f) :
      KindedCall env args kind e (.call Host.intern [f])

theorem kindedCall_ofExpr {callee : Callee} {args : List Expr} {kind : Kind} {span : Span}
    (h : Form.ofExpr env (.call callee args kind span) = .ok f) :
    KindedCall env args kind (.call callee args kind span) f := by
  cases ofExpr_call h with
  | function hcallee hhost hfs =>
      subst hcallee
      exact .named (List.suffix_refl _) (by simp [Expr.namedCall?, resolveFunction_span hhost]) hfs
  | wrap hcallee hname hargs harg =>
      subst hcallee
      subst hargs
      exact .wrap (by simp [Expr.isWrap, hname]) rfl (by simp [Expr.callsValue, hname])
        (by simp [Expr.namedCall?, hname]) harg
  | dynCall hcallee hname hargs htarget hrest =>
      subst hcallee hargs
      obtain hname | ⟨hname, htext⟩ := hname
      · exact .value rfl (by simp [Expr.callsValue, hname]) (by simp [Expr.namedCall?, hname])
          htarget hrest
      · exact .value rfl (by simp only [Expr.callsValue, hname])
          (by simp only [Expr.namedCall?, hname]) htarget hrest
  | named hcallee hname hargs htarget hrest =>
      subst hcallee hargs
      exact .named (List.suffix_cons _ _) (by simp [Expr.namedCall?, hname, htarget]) hrest
  | symbol hcallee hname hargs _ =>
      subst hcallee hargs
      exact .symbol _ (by simp [Expr.callsValue, hname]) (by simp [Expr.namedCall?, hname])
  | intern hcallee hname hargs harg =>
      subst hcallee hargs
      exact .intern rfl (by simp [Expr.callsValue, hname]) (by simp [Expr.namedCall?, hname]) harg
  | bound hcallee hname hhost hfs =>
      subst hcallee
      exact .named (List.suffix_refl _) (by simp [Expr.namedCall?, hname, hhost]) hfs

theorem isNew_helper (hspares : P.sparesHelpers = true) {name : String}
    (hname : name ∈ Host.helpers) (args : List Form) : (Form.call name args).isNew P = true := by
  simp [Form.isNew, find?_helper hspares hname]

theorem isNew_zeroArray (hspares : P.sparesHelpers = true) (elem : Scalar) (length : Nat) :
    (Form.zeroArray elem length).isNew P = true :=
  isNew_helper hspares (show Host.makeVector ∈ Host.helpers by decide) _

/-- A literal is a new array. -/
theorem isNew_ofStores (hspares : P.sparesHelpers = true) (elem : Scalar) (declared : Option Nat)
    (stores : List (Int64 × Form)) : (Form.ofStores elem declared stores).isNew P = true := by
  simp only [Form.ofStores]
  split
  · rfl
  · exact isNew_zeroArray hspares elem (literalLength declared stores)

/-- What counts as fresh and is used as an array is new. -/
theorem isNew_of_isFresh (hspares : P.sparesHelpers = true) (e : Expr)
    (hrespects : e.Respects P env) (h : Form.ofExpr env e = .ok f)
    (harray : e.kind.isArray = true) (hfresh : e.isFresh = true) : f.isNew P = true := by
  cases e with
  | lit _ _ _ | ident _ _ _ _ _ | binary _ _ _ _ _ | unary _ _ _ _ | index _ _ _ _ => cases hfresh
  | call callee args kind span =>
      have hkinds := hrespects.self
      simp only [Expr.keepsKinds, Bool.and_eq_true] at hkinds
      cases kindedCall_ofExpr h with
      | named _ hcall _ =>
          simp only [hcall] at hkinds
          refine (Option.all_eq_true _ _).2 fun g hg => startsWithArray_of_yieldsArray ?_
          have hfits := (Option.all_eq_true _ _).1 hkinds.1 g hg
          simp only [CallSite.fits, Bool.and_eq_true] at hfits
          simpa [show kind.isArray = true from harray] using hfits.2
      | value _ _ _ _ _ => rfl
      | wrap hwrap _ _ _ _ =>
          simp [hwrap, harray] at hkinds
      | symbol name _ _ => rfl
      | intern _ _ _ _ => exact isNew_helper hspares (by decide) _
  | method receiver name args kind span =>
      obtain ⟨host, g, -, hhost, -, rfl⟩ := ofExpr_method h
      exact isNew_helper hspares (coercion?_mem_helpers hhost) _
  | array elems kind span =>
      obtain ⟨elem, declared, stores, -, rfl⟩ := ofExpr_array h
      exact isNew_ofStores hspares elem declared stores
  | paren inner span =>
      exact isNew_of_isFresh hspares inner
        (fun part hpart => hrespects part (List.mem_cons_of_mem _ hpart)) h harray hfresh
termination_by structural e

/-- What is stored as an array is new: it is fresh, or it is copied. -/
theorem isNew_asStored (hspares : P.sparesHelpers = true) (hrespects : e.Respects P env)
    (h : Form.ofExpr env e = .ok f) (harray : e.kind.isArray = true) :
    (asStored e f).isNew P = true := by
  unfold asStored
  split
  · rfl
  · rename_i hcopied
    simp only [harray, Bool.true_and, Bool.not_eq_true', Bool.not_eq_false] at hcopied
    exact isNew_of_isFresh hspares e hrespects h harray hcopied

def RespectsAll (P : Package) (env : Environment) (es : List Expr) : Prop :=
  ∀ e ∈ es, e.Respects P env

/-- Stored expressions give new arrays where they give arrays. -/
theorem givesNew_ofStoredList (hspares : P.sparesHelpers = true) {es : List Expr} {fs : List Form}
    (h : Form.ofStoredList env es = .ok fs) (hes : RespectsAll P env es) {asked : List Kind}
    (hkinds : givesArrays asked (es.map Expr.kind) = true) : givesNew P asked fs = true := by
  induction es generalizing fs asked with
  | nil =>
      cases h
      simp [givesNew]
  | cons e es ih =>
      obtain ⟨f, hf, h⟩ := lower_bind_ok h
      obtain ⟨fs, hfs, h⟩ := lower_bind_ok h
      cases h
      cases asked with
      | nil => rfl
      | cons kind asked =>
          rw [RespectsAll, List.forall_mem_cons] at hes
          simp only [givesArrays, List.map_cons, List.zip_cons_cons, List.all_cons,
            Bool.and_eq_true, Bool.or_eq_true, Bool.not_eq_true'] at hkinds
          have hrest := ih hfs hes.2 hkinds.2
          simp only [givesNew, List.zip_cons_cons, List.all_cons, Bool.and_eq_true,
            Bool.or_eq_true, Bool.not_eq_true']
          exact ⟨hkinds.1.imp_right (isNew_asStored hspares hes.1 hf), hrest⟩

/-! ### Calls in expressions -/

def Form.isCall : Form → Bool
  | .call _ _ | .dynCall _ _ => true
  | _ => false

/-- A condition on forms that all forms but calls meet, that the calls behind a test for identity
and an array of zeros meet, and that other calls meet if all parts of the expression that makes them
meet a condition of their own. -/
structure CallsMeet (env : Environment) (ψ : Expr → Prop) (φ : Form → Prop) : Prop where
  plain : ∀ f, f.isCall = false → φ f
  identity : ∀ args, φ (.call Host.eq args)
  zeros : ∀ args, φ (.call Host.makeVector args)
  helper : ∀ (e : Expr) name args, (∀ part ∈ e.parts, ψ part) → e.isCall = true →
    name ∈ Host.helpers → φ (.call name args)
  named : ∀ (e : Expr) host passed fs kind, (∀ part ∈ e.parts, ψ part) →
    (∀ arg ∈ passed, ∀ part ∈ arg.parts, ψ part) →
    e.namedCall? env = some (host, ⟨passed.map Expr.kind, kind⟩) →
    Form.ofStoredList env passed = .ok fs → φ (.call host fs)
  value : ∀ (e : Expr) f fs, (∀ part ∈ e.parts, ψ part) → e.callsValue = true → φ (.dynCall f fs)

theorem Source.Expr.mem_listParts {es : List Expr} {part : Expr} (he : e ∈ es)
    (hpart : part ∈ e.parts) : part ∈ Expr.listParts es := by
  induction es with
  | nil => cases he
  | cons e' es ih =>
      obtain rfl | he := List.mem_cons.1 he
      · exact List.mem_append_left _ hpart
      · exact List.mem_append_right _ (ih he)

section

variable {φ : Form → Prop} {ψ : Expr → Prop} {left right : Form} {fs : List Form}

theorem CallsMeet.atom (h : CallsMeet env ψ φ) (hf : f.isAtom = true) : φ f := by
  refine h.plain f ?_
  cases f with
  | call _ _ | dynCall _ _ => cases hf
  | _ => rfl

theorem CallsMeet.every_asStored (h : CallsMeet env ψ φ) (hf : f.Every φ) :
    (asStored e f).Every φ := by
  unfold asStored
  split
  · exact Form.every_copy.2 ⟨h.plain _ rfl, hf⟩
  · exact hf

theorem CallsMeet.every_applyOp (h : CallsMeet env ψ φ) {kind : OpKind} {family : Family}
    (hleft : left.Every φ) (hright : right.Every φ) :
    (Form.applyOp kind family left right).Every φ := by
  have hpair : (Form.op kind family [left, right]).Every φ := by
    simp [hleft, hright, h.plain (.op kind family [left, right]) rfl]
  unfold Form.applyOp
  split
  · rename_i kind' family' args
    split
    · simp only [Form.every_op] at hleft
      simp [hleft.2, hright, h.plain (.op kind family (args ++ [right])) rfl]
    · exact hpair
  · exact hpair

theorem CallsMeet.every_ofBinary (h : CallsMeet env ψ φ) {op : BinaryOp} {family? : Option Family}
    {span : Span} (hleft : left.Every φ) (hright : right.Every φ)
    (hf : Form.ofBinary op family? left right span = .ok f) : f.Every φ := by
  have heq : (Form.call Host.eq [left, right]).Every φ := by
    simp [hleft, hright, h.identity]
  unfold Form.ofBinary at hf
  split at hf
  · cases hf
    simp [hleft, hright, h.plain (.and left right) rfl]
  · cases hf
    simp [hleft, hright, h.plain (.or left right) rfl]
  · split at hf
    · cases hf
    · split at hf
      · cases hf
        exact h.every_applyOp hleft hright
      · unfold Form.ofIdentityTest at hf
        split at hf
        · cases hf
          exact heq
        · cases hf
          exact Form.every_not.2 ⟨h.plain _ rfl, heq⟩
        · cases hf

theorem CallsMeet.every_zeroArray (h : CallsMeet env ψ φ) (elem : Scalar) (length : Nat) :
    (Form.zeroArray elem length).Every φ := by
  have hzero : elem.zero.Every φ :=
    .of_isAtom (by cases elem <;> rfl) (h.plain _ (by cases elem <;> rfl))
  have hlength : (Form.int (.ofNat length)).Every φ := .of_isAtom rfl (h.plain _ rfl)
  simp [Form.zeroArray, hzero, hlength, h.zeros]

theorem CallsMeet.every_ofStores (h : CallsMeet env ψ φ) {elem : Scalar} {declared : Option Nat}
    {stores : List (Int64 × Form)} (hstores : EveryIn φ (stores.map (·.2))) :
    (Form.ofStores elem declared stores).Every φ := by
  simp only [Form.ofStores]
  split
  · exact Form.every_array.2 ⟨h.plain _ rfl, hstores⟩
  · exact (Form.every_sparseArray stores).2 ⟨h.plain _ rfl, h.every_zeroArray _ _, hstores⟩

theorem CallsMeet.everyIn_of_forall (h : CallsMeet env ψ φ) {es : List Expr}
    (hes : ∀ e ∈ es, ∀ f, Form.ofExpr env e = .ok f → f.Every φ)
    (hfs : Form.ofStoredList env es = .ok fs) : EveryIn φ fs := by
  induction es generalizing fs with
  | nil =>
      cases hfs
      exact everyIn_nil
  | cons e es ih =>
      rw [List.forall_mem_cons] at hes
      obtain ⟨f, hf, hfs⟩ := lower_bind_ok hfs
      obtain ⟨others, hothers, hfs⟩ := lower_bind_ok hfs
      cases hfs
      exact everyIn_cons.2 ⟨h.every_asStored (hes.1 f hf), ih hes.2 hothers⟩

theorem CallsMeet.everyIn_elements (h : CallsMeet env ψ φ)
    {elems : List (Option Int64 × Expr)} {declared : Option Nat} {next : Int64}
    {stores : List (Int64 × Form)}
    (helems : ∀ elem ∈ elems, ∀ f, Form.ofExpr env elem.2 = .ok f → f.Every φ)
    (hstores : Form.ofElements env declared next elems = .ok stores) :
    EveryIn φ (stores.map (·.2)) := by
  induction elems generalizing next stores with
  | nil =>
      cases hstores
      exact everyIn_nil
  | cons elem rest ih =>
      obtain ⟨key, e⟩ := elem
      rw [List.forall_mem_cons] at helems
      simp only [Form.ofElements] at hstores
      split at hstores
      · obtain ⟨f, hf, hstores⟩ := lower_bind_ok hstores
        obtain ⟨others, hothers, hstores⟩ := lower_bind_ok hstores
        cases hstores
        exact everyIn_cons.2 ⟨h.every_asStored (helems.1 f hf), ih helems.2 hothers⟩
      · cases hstores

mutual
/-- The forms of expressions meet the condition. -/
theorem CallsMeet.every_ofExpr (h : CallsMeet env ψ φ) (e : Expr) {f : Form}
    (hf : Form.ofExpr env e = .ok f) (hparts : ∀ part ∈ e.parts, ψ part) : f.Every φ := by
  cases e with
  | lit v kind span =>
      cases hf
      exact .of_isAtom (isAtom_ofLiteral v kind) (h.atom (isAtom_ofLiteral v kind))
  | ident name defines kind value span =>
      cases value with
      | some v =>
          cases hf
          exact .of_isAtom (isAtom_ofLiteral v kind) (h.atom (isAtom_ofLiteral v kind))
      | none =>
          simp only [Form.ofExpr] at hf
          split at hf
          · cases hf
          · cases hf
            exact (Form.every_var name).2 (h.plain _ rfl)
  | binary op left right kind span =>
      simp only [Expr.parts, List.forall_mem_cons, List.forall_mem_append] at hparts
      obtain ⟨l, hl, hf⟩ := lower_bind_ok hf
      obtain ⟨r, hr, hf⟩ := lower_bind_ok hf
      exact h.every_ofBinary (h.every_ofExpr left hl hparts.2.1)
        (h.every_ofExpr right hr hparts.2.2) hf
  | unary op operand kind span =>
      simp only [Expr.parts, List.forall_mem_cons] at hparts
      by_cases hplus : op = .plus
      · subst hplus
        exact h.every_ofExpr operand hf hparts.2
      · by_cases hnot : op = .not
        · subst hnot
          obtain ⟨f, hf', hf⟩ := lower_bind_ok hf
          cases hf
          exact Form.every_not.2 ⟨h.plain _ rfl, h.every_ofExpr operand hf' hparts.2⟩
        · obtain ⟨v, -, -, -, rfl⟩ | ⟨x, -, -, rfl⟩ | ⟨sign, family, f, hsign, hf', rfl⟩ :=
            ExprAgrees.ofExpr_unary_cases hf hplus hnot
          · exact .of_isAtom rfl (h.plain _ rfl)
          · exact .of_isAtom rfl (h.plain _ rfl)
          · exact (Form.every_unary sign family).2
              ⟨h.plain _ rfl, h.every_ofExpr operand hf' hparts.2⟩
  | call callee args kind span =>
      have hall : ∀ part ∈ Expr.listParts args, ψ part :=
        fun part hpart => hparts part (List.mem_cons_of_mem _ hpart)
      have hargs := h.every_of_mem_args args hall
      cases kindedCall_ofExpr hf with
      | named hpassed hcall hfs =>
          refine (Form.every_call _).2 ⟨h.named _ _ _ _ _ hparts (fun arg harg part hpart =>
            hall part (Expr.mem_listParts (hpassed.subset harg) hpart)) hcall hfs, ?_⟩
          exact h.everyIn_of_forall (fun e he => hargs e (hpassed.subset he)) hfs
      | value heq hcall _ htarget hfs =>
          subst heq
          rw [List.forall_mem_cons] at hargs
          exact Form.every_dynCall.2 ⟨h.value _ _ _ hparts hcall, hargs.1 _ htarget,
            h.everyIn_of_forall hargs.2 hfs⟩
      | wrap _ heq _ _ harg =>
          subst heq
          exact hargs _ (List.mem_singleton_self _) _ harg
      | symbol name _ _ => exact .of_isAtom rfl (h.plain _ rfl)
      | intern heq _ _ harg =>
          subst heq
          simp [h.helper _ Host.intern _ hparts rfl (by decide),
            hargs _ (List.mem_singleton_self _) _ harg]
  | method receiver name args kind span =>
      obtain ⟨host, g, -, hhost, hg, rfl⟩ := ofExpr_method hf
      have hcoercion := h.helper _ host [g] hparts rfl (coercion?_mem_helpers hhost)
      simp only [Expr.parts, List.forall_mem_cons, List.forall_mem_append] at hparts
      simp [hcoercion, h.every_ofExpr receiver hg hparts.2.1]
  | index base at' kind span =>
      simp only [Expr.parts, List.forall_mem_cons, List.forall_mem_append] at hparts
      obtain ⟨b, hb, hf⟩ := lower_bind_ok hf
      obtain ⟨i, hi, hf⟩ := lower_bind_ok hf
      cases hf
      exact Form.every_get.2 ⟨h.plain _ rfl, h.every_ofExpr base hb hparts.2.1,
        h.every_ofExpr at' hi hparts.2.2⟩
  | array elems kind span =>
      obtain ⟨elem, declared, stores, hstores, rfl⟩ := ofExpr_array hf
      exact h.every_ofStores (h.everyIn_elements (h.every_of_mem_elements elems
        fun part hpart => hparts part (List.mem_cons_of_mem _ hpart)) hstores)
  | paren inner span =>
      exact h.every_ofExpr inner hf fun part hpart => hparts part (List.mem_cons_of_mem _ hpart)
termination_by structural e

theorem CallsMeet.every_of_mem_args (h : CallsMeet env ψ φ) (es : List Expr)
    (hparts : ∀ part ∈ Expr.listParts es, ψ part) :
    ∀ e ∈ es, ∀ f, Form.ofExpr env e = .ok f → f.Every φ := by
  cases es with
  | nil => simp
  | cons e es =>
      simp only [Expr.listParts, List.forall_mem_append] at hparts
      rw [List.forall_mem_cons]
      exact ⟨fun f hf => h.every_ofExpr e hf hparts.1, h.every_of_mem_args es hparts.2⟩
termination_by structural es

theorem CallsMeet.every_of_mem_elements (h : CallsMeet env ψ φ)
    (elems : List (Option Int64 × Expr)) (hparts : ∀ part ∈ Expr.elementParts elems, ψ part) :
    ∀ elem ∈ elems, ∀ f, Form.ofExpr env elem.2 = .ok f → f.Every φ := by
  match elems with
  | [] => simp
  | (key, e) :: rest =>
      simp only [Expr.elementParts, List.forall_mem_append] at hparts
      rw [List.forall_mem_cons]
      exact ⟨fun f hf => h.every_ofExpr e hf hparts.1, h.every_of_mem_elements rest hparts.2⟩
termination_by structural elems
end

theorem CallsMeet.everyIn_ofStoredList (h : CallsMeet env ψ φ) {es : List Expr}
    (hfs : Form.ofStoredList env es = .ok fs) (hes : ∀ e ∈ es, ∀ part ∈ e.parts, ψ part) :
    EveryIn φ fs :=
  h.everyIn_of_forall (fun e he _ hf => h.every_ofExpr e hf (hes e he)) hfs

end

theorem isTactful_helper (hspares : P.sparesHelpers = true) {name : String}
    (hname : name ∈ Host.helpers) (args : List Form) : Form.isTactful P (.call name args) := by
  intro g hg
  rw [find?_helper hspares hname] at hg
  cases hg

theorem isQuiet_helper (hspares : P.sparesHelpers = true) {name : String}
    (hname : name ∈ Host.helpers) (args : List Form) : (Form.call name args).isQuiet P = true := by
  simp [Form.isQuiet, find?_helper hspares hname, ne_funcall_of_mem_helpers hname]

/-- Expressions that respect kinds give only new arrays to functions of the package that they
name. -/
theorem callsMeet_isTactful (hspares : P.sparesHelpers = true) :
    CallsMeet env (fun part => part.keepsKinds P env = true) (Form.isTactful P) where
  plain f h := by
    cases f with
    | call _ _ | dynCall _ _ => cases h
    | _ => trivial
  identity := isTactful_helper hspares (by decide)
  zeros := isTactful_helper hspares (by decide)
  helper _ _ args _ _ hname := isTactful_helper hspares hname args
  named e host passed fs kind he hpassed hcall hfs g hg := by
    have hkinds := he e (Expr.mem_parts_self e)
    simp only [Expr.keepsKinds, hcall, Bool.and_eq_true] at hkinds
    have hfits := (Option.all_eq_true _ _).1 hkinds.1 g hg
    simp only [CallSite.fits, Bool.and_eq_true] at hfits
    exact givesNew_ofStoredList hspares hfs hpassed hfits.1
  value _ _ _ _ _ := trivial

/-- Expressions without calls call no function of the package. -/
theorem callsMeet_isQuiet (hspares : P.sparesHelpers = true) :
    CallsMeet env (fun part => part.isCall = false) (fun f => f.isQuiet P = true) where
  plain f h := by
    cases f with
    | call _ _ | dynCall _ _ => cases h
    | _ => rfl
  identity := isQuiet_helper hspares (by decide)
  zeros := isQuiet_helper hspares (by decide)
  helper _ _ args _ _ hname := isQuiet_helper hspares hname args
  named e host passed fs kind he _ hcall _ := by
    have hself := he e (Expr.mem_parts_self e)
    cases e with
    | call _ _ _ _ => cases hself
    | _ => cases hcall
  value e f fs he hcall := by
    have hself := he e (Expr.mem_parts_self e)
    cases e with
    | call _ _ _ _ => cases hself
    | _ => cases hcall

mutual
theorem Source.Expr.isCall_of_mem_parts (e : Expr) (h : e.containsCall = false) :
    ∀ part ∈ e.parts, part.isCall = false := by
  cases e with
  | lit _ _ _ | ident _ _ _ _ _ => simp [Expr.parts, Expr.isCall]
  | call _ _ _ _ | method _ _ _ _ _ => cases h
  | binary op left right kind span =>
      simp only [Expr.containsCall, Bool.or_eq_false_iff] at h
      simp only [Expr.parts, List.forall_mem_cons, List.forall_mem_append]
      exact ⟨rfl, left.isCall_of_mem_parts h.1, right.isCall_of_mem_parts h.2⟩
  | unary op operand kind span =>
      simp only [Expr.parts, List.forall_mem_cons]
      exact ⟨rfl, operand.isCall_of_mem_parts h⟩
  | index base at' kind span =>
      simp only [Expr.containsCall, Bool.or_eq_false_iff] at h
      simp only [Expr.parts, List.forall_mem_cons, List.forall_mem_append]
      exact ⟨rfl, base.isCall_of_mem_parts h.1, at'.isCall_of_mem_parts h.2⟩
  | array elems kind span =>
      simp only [Expr.parts, List.forall_mem_cons]
      exact ⟨rfl, Expr.isCall_of_mem_elementParts elems h⟩
  | paren inner span =>
      simp only [Expr.parts, List.forall_mem_cons]
      exact ⟨rfl, inner.isCall_of_mem_parts h⟩
termination_by structural e

theorem Source.Expr.isCall_of_mem_elementParts (elems : List (Option Int64 × Expr))
    (h : Expr.elementsContainCall elems = false) :
    ∀ part ∈ Expr.elementParts elems, part.isCall = false := by
  match elems with
  | [] => simp [Expr.elementParts]
  | (key, e) :: rest =>
      simp only [Expr.elementsContainCall, Bool.or_eq_false_iff] at h
      simp only [Expr.elementParts, List.forall_mem_append]
      exact ⟨e.isCall_of_mem_parts h.1, Expr.isCall_of_mem_elementParts rest h.2⟩
termination_by structural elems
end

end

end StackCompiler
