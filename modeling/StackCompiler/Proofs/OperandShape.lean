import StackCompiler.Proofs.Growth
import StackCompiler.Proofs.SourceScope
import StackCompiler.Proofs.StaticStack
import StackCompiler.Proofs.StmtMeaning

/-!
Operands. The form of an expression has a value all the way down, its operators have as many
operands as they take, and it reads only variables that the expression reads.
-/

namespace StackCompiler

open Source

/-! ### Operands -/

def UnaryKind.isDefinedOn : UnaryKind → Family → Bool
  | .neg, .int | .neg, .float | .bitNot, .int => true
  | _, _ => false

/-- Whether a form is fit to stand for a value, apart from its parts. -/
def Form.isSound (visible : Scope) : Form → Bool
  | .var name => visible name
  | .op kind _ args => kind.admits args.length
  | .unary kind family _ => kind.isDefinedOn family
  | .resultRef index => index != 0
  | f => !f.isStatement

def Form.isOperand (visible : Scope) (f : Form) : Bool :=
  f.parts.all (Form.isSound visible)

def areOperands (visible : Scope) (fs : List Form) : Bool :=
  (listParts fs).all (Form.isSound visible)

section

variable {visible visible' : Scope} {f left right : Form} {fs gs : List Form}

@[simp] theorem areOperands_nil : areOperands visible [] = true := rfl

@[simp] theorem areOperands_cons :
    areOperands visible (f :: fs) = (f.isOperand visible && areOperands visible fs) :=
  List.all_append

@[simp] theorem areOperands_append :
    areOperands visible (fs ++ gs) = (areOperands visible fs && areOperands visible gs) := by
  simp [areOperands, listParts_append]

theorem isOperand_of_mem (h : areOperands visible fs = true) (hf : f ∈ fs) :
    f.isOperand visible = true := by
  induction fs with
  | nil => cases hf
  | cons g fs ih =>
      simp only [areOperands_cons, Bool.and_eq_true] at h
      obtain rfl | hf := List.mem_cons.1 hf
      · exact h.1
      · exact ih h.2 hf

namespace Form

theorem isSound_mono (hvisible : ∀ name, visible name = true → visible' name = true)
    (h : f.isSound visible = true) : f.isSound visible' = true := by
  cases f with
  | var name => exact hvisible name h
  | _ => exact h

theorem isOperand_mono (hvisible : ∀ name, visible name = true → visible' name = true)
    (h : f.isOperand visible = true) : f.isOperand visible' = true := by
  rw [isOperand, List.all_eq_true] at h ⊢
  exact fun g hg => isSound_mono hvisible (h g hg)

theorem isSound_of_isOperand (h : f.isOperand visible = true) : f.isSound visible = true :=
  List.all_eq_true.1 h f (mem_parts_self f)

theorem isOperand_of_isAtom (h : f.isAtom = true) : f.isOperand visible = true := by
  cases f with
  | bool _ | char _ | int _ | float _ | str _ | symbol _ => rfl
  | _ => cases h

@[simp] theorem isOperand_var (name : String) : (var name).isOperand visible = visible name :=
  Bool.and_true _

@[simp] theorem isOperand_resultRef (index : Nat) :
    (resultRef index).isOperand visible = (index != 0) :=
  Bool.and_true _

@[simp] theorem isOperand_call (name : String) :
    (call name fs).isOperand visible = areOperands visible fs :=
  rfl

@[simp] theorem isOperand_dynCall :
    (dynCall f fs).isOperand visible = (f.isOperand visible && areOperands visible fs) :=
  List.all_append

@[simp] theorem isOperand_op (kind : OpKind) (family : Family) :
    (op kind family fs).isOperand visible = (kind.admits fs.length && areOperands visible fs) :=
  rfl

@[simp] theorem isOperand_unary (kind : UnaryKind) (family : Family) :
    (unary kind family f).isOperand visible =
      (kind.isDefinedOn family && f.isOperand visible) :=
  rfl

@[simp] theorem isOperand_not : (not f).isOperand visible = f.isOperand visible :=
  rfl

@[simp] theorem isOperand_and :
    (and left right).isOperand visible = (left.isOperand visible && right.isOperand visible) :=
  List.all_append

@[simp] theorem isOperand_or :
    (or left right).isOperand visible = (left.isOperand visible && right.isOperand visible) :=
  List.all_append

@[simp] theorem isOperand_copy : (copy f).isOperand visible = f.isOperand visible :=
  rfl

@[simp] theorem isOperand_get :
    (get left right).isOperand visible = (left.isOperand visible && right.isOperand visible) :=
  List.all_append

@[simp] theorem isOperand_array : (array fs).isOperand visible = areOperands visible fs :=
  rfl

@[simp] theorem isOperand_sparseArray (stores : List (Int64 × Form)) :
    (sparseArray f stores).isOperand visible =
      (f.isOperand visible && areOperands visible (stores.map (·.2))) := by
  rw [areOperands, ← storeParts_eq]
  exact List.all_append

end Form

/-! ### How expressions become operands -/

theorem isAtom_ofLiteral (v : Literal) (kind : Kind) : (Form.ofLiteral v kind).isAtom = true := by
  unfold Form.ofLiteral
  split <;> rfl

theorem isOperand_asStored {e : Expr} :
    (asStored e f).isOperand visible = f.isOperand visible := by
  unfold asStored
  split <;> simp

/-- An operator takes two operands, and one that repeats takes one more than before. -/
theorem isOperand_applyOp {kind : OpKind} {family : Family} (hleft : left.isOperand visible = true)
    (hright : right.isOperand visible = true) :
    (Form.applyOp kind family left right).isOperand visible = true := by
  have hpair : (Form.op kind family [left, right]).isOperand visible = true := by
    have hcount : kind.admits 2 = true := by cases kind <;> rfl
    simp [hcount, hleft, hright]
  unfold Form.applyOp
  split
  · rename_i kind' family' args
    split
    · rename_i hsame
      simp only [Bool.and_eq_true, decide_eq_true_eq] at hsame
      obtain ⟨⟨hvariadic, rfl⟩, rfl⟩ := hsame
      simp only [Form.isOperand_op, Bool.and_eq_true] at hleft
      have hcount : kind'.admits (args.length + 1) = true := by
        have hargs := hleft.1
        simp only [OpKind.admits, hvariadic, Bool.true_or, if_true, decide_eq_true_eq] at hargs ⊢
        omega
      simp [hcount, hleft.2, hright]
    · exact hpair
  · exact hpair

theorem isOperand_ofBinary {op : BinaryOp} {family? : Option Family} {span : Span}
    (hleft : left.isOperand visible = true) (hright : right.isOperand visible = true)
    (h : Form.ofBinary op family? left right span = .ok f) : f.isOperand visible = true := by
  unfold Form.ofBinary at h
  split at h
  · cases h
    simp [hleft, hright]
  · cases h
    simp [hleft, hright]
  · split at h
    · cases h
    · split at h
      · cases h
        exact isOperand_applyOp hleft hright
      · unfold Form.ofIdentityTest at h
        split at h
        · cases h
          simp [hleft, hright]
        · cases h
          simp [hleft, hright]
        · cases h

theorem isOperand_zero (elem : Scalar) : elem.zero.isOperand visible = true :=
  Form.isOperand_of_isAtom (by cases elem <;> rfl)

theorem isOperand_zeroArray (elem : Scalar) (length : Nat) :
    (Form.zeroArray elem length).isOperand visible = true := by
  have hlength : (Form.int (.ofNat length)).isOperand visible = true := rfl
  simp [Form.zeroArray, hlength, isOperand_zero]

theorem isOperand_ofStores {elem : Scalar} {declared : Option Nat} {stores : List (Int64 × Form)}
    (h : areOperands visible (stores.map (·.2)) = true) :
    (Form.ofStores elem declared stores).isOperand visible = true := by
  simp only [Form.ofStores]
  split
  · simpa using h
  · simp only [Form.isOperand_sparseArray, isOperand_zeroArray, h, Bool.and_self]

end

section

variable {env : Environment} {visible : Scope}

/-- What a call stands for: a call by a known name, a call of a computed function, a symbol, or its
only argument. -/
inductive CallForm (env : Environment) (callee : Callee) (args : List Expr) : Form → Prop where
  | function {name host : String} {fs : List Form} {span : Span} (hcallee : callee = .function name)
      (hhost : resolveFunction env name args.length span = .ok host)
      (hargs : Form.ofStoredList env args = .ok fs) : CallForm env callee args (.call host fs)
  | wrap {name : String} {arg : Expr} {f : Form} (hcallee : callee = .intrinsic name)
      (hname : Intrinsic.ofName? name = some .wrap) (hargs : args = [arg])
      (harg : Form.ofExpr env arg = .ok f) : CallForm env callee args f
  | dynCall {name : String} {target : Expr} {rest : List Expr} {f : Form} {fs : List Form}
      (hcallee : callee = .intrinsic name)
      (hname : Intrinsic.ofName? name = some .dynCall ∨
        Intrinsic.ofName? name = some .call ∧ ∀ host, target.literal? ≠ some (.str host))
      (hargs : args = target :: rest) (htarget : Form.ofExpr env target = .ok f)
      (hrest : Form.ofStoredList env rest = .ok fs) : CallForm env callee args (.dynCall f fs)
  | named {name host : String} {target : Expr} {rest : List Expr} {fs : List Form}
      (hcallee : callee = .intrinsic name) (hname : Intrinsic.ofName? name = some .call)
      (hargs : args = target :: rest) (htarget : target.literal? = some (.str host))
      (hrest : Form.ofStoredList env rest = .ok fs) : CallForm env callee args (.call host fs)
  | symbol {name text : String} {arg : Expr} (hcallee : callee = .intrinsic name)
      (hname : Intrinsic.ofName? name = some .intern) (hargs : args = [arg])
      (harg : arg.literal? = some (.str text)) : CallForm env callee args (.ofSymbolName text)
  | intern {name : String} {arg : Expr} {f : Form} (hcallee : callee = .intrinsic name)
      (hname : Intrinsic.ofName? name = some .intern ∧ ∀ text, arg.literal? ≠ some (.str text))
      (hargs : args = [arg]) (harg : Form.ofExpr env arg = .ok f) :
      CallForm env callee args (.call Host.intern [f])
  | bound {name host : String} {fs : List Form} (hcallee : callee = .intrinsic name)
      (hname : Intrinsic.ofName? name = none) (hhost : env.bindings.get? name = some host)
      (hargs : Form.ofStoredList env args = .ok fs) : CallForm env callee args (.call host fs)

theorem ofExpr_call {callee : Callee} {args : List Expr} {kind : Kind} {span : Span} {f : Form}
    (h : Form.ofExpr env (.call callee args kind span) = .ok f) : CallForm env callee args f := by
  unfold Form.ofExpr at h
  split at h
  · cases h
  · cases callee with
    | function name =>
        obtain ⟨host, hhost, h⟩ := lower_bind_ok h
        obtain ⟨fs, hfs, h⟩ := lower_bind_ok h
        cases h
        exact .function rfl hhost hfs
    | intrinsic name =>
        simp only at h
        split at h
        · exact .wrap rfl ‹_› rfl h
        · obtain ⟨f, hf, h⟩ := lower_bind_ok h
          obtain ⟨fs, hfs, h⟩ := lower_bind_ok h
          cases h
          exact .dynCall rfl (.inl ‹_›) rfl hf hfs
        · split at h
          · obtain ⟨fs, hfs, h⟩ := lower_bind_ok h
            cases h
            exact .named rfl ‹_› rfl ‹_› hfs
          · obtain ⟨f, hf, h⟩ := lower_bind_ok h
            obtain ⟨fs, hfs, h⟩ := lower_bind_ok h
            cases h
            exact .dynCall rfl (.inr ⟨‹_›, ‹_›⟩) rfl hf hfs
        · split at h
          · cases h
            exact .symbol rfl ‹_› rfl ‹_›
          · obtain ⟨f, hf, h⟩ := lower_bind_ok h
            cases h
            exact .intern rfl ⟨‹_›, ‹_›⟩ rfl hf
        · cases h
        · split at h
          · cases h
          · obtain ⟨fs, hfs, h⟩ := lower_bind_ok h
            cases h
            exact .bound rfl ‹_› ‹_› hfs

theorem ofExpr_method {receiver : Expr} {name : String} {args : List Expr} {kind : Kind}
    {span : Span} {f : Form} (h : Form.ofExpr env (.method receiver name args kind span) = .ok f) :
    ∃ host g, args = [] ∧ coercion? name = some host ∧ Form.ofExpr env receiver = .ok g ∧
      f = .call host [g] := by
  unfold Form.ofExpr at h
  split at h
  · cases h
  · split at h
    · cases h
    · split at h
      · obtain ⟨g, hg, h⟩ := lower_bind_ok h
        cases h
        exact ⟨_, g, List.isEmpty_iff.1 ‹_›, ‹_›, hg, rfl⟩
      · cases h

theorem ofExpr_array {elems : List (Option Int64 × Expr)} {kind : Kind} {span : Span} {f : Form}
    (h : Form.ofExpr env (.array elems kind span) = .ok f) :
    ∃ elem declared stores, Form.ofElements env declared 0 elems = .ok stores ∧
      f = .ofStores elem declared stores := by
  unfold Form.ofExpr at h
  split at h
  · obtain ⟨stores, hstores, h⟩ := lower_bind_ok h
    cases h
    exact ⟨_, _, stores, hstores, rfl⟩
  · obtain ⟨stores, hstores, h⟩ := lower_bind_ok h
    cases h
    exact ⟨_, _, stores, hstores, rfl⟩
  · cases h

/-- Stored expressions are operands if expressions are. -/
theorem areOperands_of_forall {es : List Expr} {fs : List Form}
    (hes : ∀ e ∈ es, ∀ f, Form.ofExpr env e = .ok f → e.isScoped visible = true →
      f.isOperand visible = true)
    (h : Form.ofStoredList env es = .ok fs) (hscope : Expr.areScoped visible es = true) :
    areOperands visible fs = true := by
  induction es generalizing fs with
  | nil =>
      cases h
      rfl
  | cons e es ih =>
      simp only [Expr.areScoped, Expr.readsAll, List.all_append, Bool.and_eq_true] at hscope
      rw [List.forall_mem_cons] at hes
      obtain ⟨f, hf, h⟩ := lower_bind_ok h
      obtain ⟨fs, hfs, h⟩ := lower_bind_ok h
      cases h
      simp [isOperand_asStored, hes.1 f hf hscope.1, ih hes.2 hfs hscope.2]

theorem areOperands_elements_of_forall {elems : List (Option Int64 × Expr)} {declared : Option Nat}
    {next : Int64} {stores : List (Int64 × Form)}
    (helems : ∀ elem ∈ elems, ∀ f, Form.ofExpr env elem.2 = .ok f →
      elem.2.isScoped visible = true → f.isOperand visible = true)
    (h : Form.ofElements env declared next elems = .ok stores)
    (hscope : (Expr.elementReads elems).all visible = true) :
    areOperands visible (stores.map (·.2)) = true := by
  induction elems generalizing next stores with
  | nil =>
      cases h
      rfl
  | cons elem rest ih =>
      obtain ⟨key, e⟩ := elem
      simp only [Expr.elementReads, List.all_append, Bool.and_eq_true] at hscope
      rw [List.forall_mem_cons] at helems
      simp only [Form.ofElements] at h
      split at h
      · obtain ⟨f, hf, h⟩ := lower_bind_ok h
        obtain ⟨others, hothers, h⟩ := lower_bind_ok h
        cases h
        simp [isOperand_asStored, helems.1 f hf hscope.1, ih helems.2 hothers hscope.2]
      · cases h

/-- The form of an expression is an operand wherever the variables of the expression are in
scope. -/
theorem isOperand_ofExpr (e : Expr) {f : Form} (h : Form.ofExpr env e = .ok f)
    (hscope : e.isScoped visible = true) : f.isOperand visible = true := by
  induction e using Expr.induction generalizing f with
  | lit v kind span =>
      cases h
      exact Form.isOperand_of_isAtom (isAtom_ofLiteral v kind)
  | ident name defines kind value span =>
      cases value with
      | some v =>
          cases h
          exact Form.isOperand_of_isAtom (isAtom_ofLiteral v kind)
      | none =>
          simp only [Form.ofExpr] at h
          split at h
          · cases h
          · rename_i hname
            cases h
            simpa [Expr.isScoped, Expr.reads, hname] using hscope
  | binary op left right kind span ihleft ihright =>
      simp only [Expr.isScoped, Expr.reads, List.all_append, Bool.and_eq_true] at hscope
      obtain ⟨l, hl, h⟩ := lower_bind_ok h
      obtain ⟨r, hr, h⟩ := lower_bind_ok h
      exact isOperand_ofBinary (ihleft hl hscope.1) (ihright hr hscope.2) h
  | unary op operand kind span ih =>
      by_cases hplus : op = .plus
      · subst hplus
        exact ih h hscope
      · by_cases hnot : op = .not
        · subst hnot
          obtain ⟨f, hf, h⟩ := lower_bind_ok h
          cases h
          rw [Form.isOperand_not]
          exact ih hf hscope
        · obtain ⟨v, -, -, -, rfl⟩ | ⟨x, -, -, rfl⟩ | ⟨sign, family, f, hsign, hf, rfl⟩ :=
            ExprAgrees.ofExpr_unary_cases h hplus hnot
          · rfl
          · rfl
          · have hdefined : sign.isDefinedOn family = true := by
              unfold unaryKind? at hsign
              split at hsign <;> cases hsign <;> rfl
            rw [Form.isOperand_unary, hdefined, Bool.true_and]
            exact ih hf hscope
  | call callee args kind span ihargs =>
      have hargs : ∀ e ∈ args, ∀ f, Form.ofExpr env e = .ok f → e.isScoped visible = true →
          f.isOperand visible = true := fun e he f => ihargs e he
      cases ofExpr_call h with
      | function _ _ hfs => simpa using areOperands_of_forall hargs hfs hscope
      | wrap _ _ heq harg =>
          subst heq
          simp only [Expr.isScoped, Expr.reads, Expr.readsAll, List.append_nil] at hscope
          exact hargs _ (List.mem_singleton_self _) _ harg hscope
      | dynCall _ _ heq htarget hrest =>
          subst heq
          simp only [Expr.isScoped, Expr.reads, Expr.readsAll, List.all_append,
            Bool.and_eq_true] at hscope
          rw [List.forall_mem_cons] at hargs
          simp [hargs.1 _ htarget hscope.1, areOperands_of_forall hargs.2 hrest hscope.2]
      | named _ _ heq _ hrest =>
          subst heq
          simp only [Expr.isScoped, Expr.reads, Expr.readsAll, List.all_append,
            Bool.and_eq_true] at hscope
          rw [List.forall_mem_cons] at hargs
          simp [areOperands_of_forall hargs.2 hrest hscope.2]
      | symbol => rfl
      | intern _ _ heq harg =>
          subst heq
          simp only [Expr.isScoped, Expr.reads, Expr.readsAll, List.append_nil] at hscope
          simp [hargs _ (List.mem_singleton_self _) _ harg hscope]
      | bound _ _ _ hfs => simpa using areOperands_of_forall hargs hfs hscope
  | method receiver name args kind span ih _ =>
      simp only [Expr.isScoped, Expr.reads, List.all_append, Bool.and_eq_true] at hscope
      obtain ⟨host, g, -, -, hg, rfl⟩ := ofExpr_method h
      simp [ih hg hscope.1]
  | index base at' kind span ihbase ihat =>
      simp only [Expr.isScoped, Expr.reads, List.all_append, Bool.and_eq_true] at hscope
      obtain ⟨b, hb, h⟩ := lower_bind_ok h
      obtain ⟨i, hi, h⟩ := lower_bind_ok h
      cases h
      simp [ihbase hb hscope.1, ihat hi hscope.2]
  | array elems kind span ihelems =>
      obtain ⟨elem, declared, stores, hstores, rfl⟩ := ofExpr_array h
      exact isOperand_ofStores
        (areOperands_elements_of_forall (fun elem helem f => ihelems elem helem) hstores hscope)
  | paren inner span ih => exact ih h hscope

theorem length_ofStoredList {es : List Expr} {fs : List Form}
    (h : Form.ofStoredList env es = .ok fs) : fs.length = es.length := by
  induction es generalizing fs with
  | nil =>
      cases h
      rfl
  | cons e es ih =>
      obtain ⟨f, -, h⟩ := lower_bind_ok h
      obtain ⟨fs, hfs, h⟩ := lower_bind_ok h
      cases h
      simp [ih hfs]

theorem areOperands_ofStoredList (es : List Expr) {fs : List Form}
    (h : Form.ofStoredList env es = .ok fs) (hscope : Expr.areScoped visible es = true) :
    areOperands visible fs = true :=
  areOperands_of_forall (fun e _ _ hf he => isOperand_ofExpr e hf he) h hscope

end

end StackCompiler
