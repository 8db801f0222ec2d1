import Mathlib.Data.List.Nodup
import Mathlib.Data.List.Perm.Basic
import StackCompiler.Package.Unit
import StackCompiler.Proofs.Declarations
import StackCompiler.Proofs.StmtMeaning

/-!
The order of the functions in a package. A table of signatures is only ever asked for the signature
of a name, so tables that answer alike compile every function alike. What the declarations of a
package add to a table depends on which functions there are and not on their order, and
`CompilationUnit.build_perm` follows.
-/

namespace StackCompiler

open Source

/-! ### Tables that answer alike -/

def SignatureTable.Agrees (t t' : SignatureTable) : Prop :=
  ∀ name, t.get? name = t'.get? name

section

variable {t t' : SignatureTable} {bindings : HostBindings}

namespace SignatureTable

theorem Agrees.contains (h : t.Agrees t') (name : String) : t.contains name = t'.contains name := by
  rw [SignatureTable.contains, SignatureTable.contains, h name]

theorem Agrees.convention (h : t.Agrees t') (name : String) :
    t.convention name = t'.convention name := by
  rw [SignatureTable.convention, SignatureTable.convention, h name]

/-! Forms of source -/

theorem Agrees.resolveFunction (h : t.Agrees t') (name : String) (args : Nat) (span : Span) :
    StackCompiler.resolveFunction ⟨t, bindings⟩ name args span =
      StackCompiler.resolveFunction ⟨t', bindings⟩ name args span := by
  simp only [StackCompiler.resolveFunction, h.contains]

theorem ofStoredList_congr {env env' : Environment} {es : List Expr}
    (h : ∀ e ∈ es, Form.ofExpr env e = Form.ofExpr env' e) :
    Form.ofStoredList env es = Form.ofStoredList env' es := by
  induction es with
  | nil => rfl
  | cons e es ih =>
      rw [List.forall_mem_cons] at h
      simp only [Form.ofStoredList, h.1, ih h.2]

theorem ofElements_congr {env env' : Environment} {elems : List (Option Int64 × Expr)}
    (h : ∀ elem ∈ elems, Form.ofExpr env elem.2 = Form.ofExpr env' elem.2)
    (declared : Option Nat) (next : Int64) :
    Form.ofElements env declared next elems = Form.ofElements env' declared next elems := by
  induction elems generalizing next with
  | nil => rfl
  | cons elem rest ih =>
      rw [List.forall_mem_cons] at h
      simp only [Form.ofElements, h.1, ih h.2]

/-- An intrinsic resolves no function by its name. -/
theorem ofExpr_intrinsic_congr {name : String} {args : List Expr} {kind : Kind} {span : Span}
    (h : ∀ e ∈ args, Form.ofExpr ⟨t, bindings⟩ e = Form.ofExpr ⟨t', bindings⟩ e) :
    Form.ofExpr ⟨t, bindings⟩ (.call (.intrinsic name) args kind span) =
      Form.ofExpr ⟨t', bindings⟩ (.call (.intrinsic name) args kind span) := by
  unfold Form.ofExpr
  dsimp only
  cases args.find? (·.kind.isTuple) with
  | some arg => rfl
  | none =>
      cases Intrinsic.ofName? name with
      | none => simp only [ofStoredList_congr h]
      | some i =>
          obtain _ | ⟨target, _ | ⟨arg, rest⟩⟩ := args
          · cases i <;> rfl
          · have hnone : Form.ofStoredList ⟨t, bindings⟩ [] =
                Form.ofStoredList ⟨t', bindings⟩ [] := rfl
            cases i <;> simp only [h target (List.mem_singleton_self target), hnone]
          · rw [List.forall_mem_cons] at h
            cases i <;> simp only [h.1, ofStoredList_congr h.2]

theorem Agrees.ofExpr (h : t.Agrees t') (e : Expr) :
    Form.ofExpr ⟨t, bindings⟩ e = Form.ofExpr ⟨t', bindings⟩ e := by
  induction e using Expr.induction with
  | lit _ _ _ => rfl
  | ident _ _ _ value _ => cases value <;> rfl
  | binary _ _ _ _ _ ihleft ihright => simp only [Form.ofExpr, ihleft, ihright]
  | unary op _ _ _ ih => cases op <;> simp only [Form.ofExpr, ih]
  | call callee args kind span ihargs =>
      cases callee with
      | function name =>
          simp only [Form.ofExpr, h.resolveFunction, ofStoredList_congr ihargs]
      | intrinsic name => exact ofExpr_intrinsic_congr ihargs
  | method _ _ _ _ _ ih _ => simp only [Form.ofExpr, ih]
  | index _ _ _ _ ihbase ihat => simp only [Form.ofExpr, ihbase, ihat]
  | array _ kind _ ihelems => cases kind <;> simp only [Form.ofExpr, ofElements_congr ihelems]
  | paren _ _ ih => exact ih

theorem Agrees.ofStoredList (h : t.Agrees t') (es : List Expr) :
    Form.ofStoredList ⟨t, bindings⟩ es = Form.ofStoredList ⟨t', bindings⟩ es :=
  ofStoredList_congr fun e _ => h.ofExpr e

theorem Agrees.store (h : t.Agrees t') (target : Target) (value : Form) :
    target.store ⟨t, bindings⟩ value = target.store ⟨t', bindings⟩ value := by
  cases target <;> simp only [Target.store, h.ofExpr]

theorem Agrees.storeEach (h : t.Agrees t') (pairs : List (Target × Form)) :
    StackCompiler.storeEach ⟨t, bindings⟩ pairs = StackCompiler.storeEach ⟨t', bindings⟩ pairs := by
  induction pairs with
  | nil => rfl
  | cons pair rest ih => simp only [StackCompiler.storeEach, h.store, ih]

theorem Agrees.storeThroughTemporaries (h : t.Agrees t') (pairs : List (Target × Form))
    (position : Nat) :
    StackCompiler.storeThroughTemporaries ⟨t, bindings⟩ position pairs =
      StackCompiler.storeThroughTemporaries ⟨t', bindings⟩ position pairs := by
  induction pairs generalizing position with
  | nil => rfl
  | cons pair rest ih =>
      simp only [StackCompiler.storeThroughTemporaries, storeThroughTemporary, h.store, ih]

theorem Agrees.assignValues (h : t.Agrees t') (targets : List Target) (values : List Expr)
    (span : Span) :
    StackCompiler.assignValues ⟨t, bindings⟩ targets values span =
      StackCompiler.assignValues ⟨t', bindings⟩ targets values span := by
  have hpairwise : assignPairwise ⟨t, bindings⟩ targets values =
      assignPairwise ⟨t', bindings⟩ targets values := by
    simp only [assignPairwise, h.ofStoredList, h.storeThroughTemporaries, h.storeEach]
  have hdestructure : ∀ call, destructure ⟨t, bindings⟩ targets call =
      destructure ⟨t', bindings⟩ targets call := by
    intro call
    cases targets <;> simp only [destructure, h.ofExpr, h.storeEach]
  simp only [StackCompiler.assignValues, hpairwise, hdestructure]

theorem Agrees.specsForms (h : t.Agrees t') (specs : List ValueSpec) :
    StackCompiler.specsForms ⟨t, bindings⟩ specs =
      StackCompiler.specsForms ⟨t', bindings⟩ specs := by
  induction specs with
  | nil => rfl
  | cons spec rest ih =>
      simp only [StackCompiler.specsForms, specForms, h.assignValues, ih]

theorem Agrees.assignForms (h : t.Agrees t') (lhs : List Expr) (op : AssignOp) (rhs : List Expr)
    (span : Span) :
    StackCompiler.assignForms ⟨t, bindings⟩ lhs op rhs span =
      StackCompiler.assignForms ⟨t', bindings⟩ lhs op rhs span := by
  simp only [StackCompiler.assignForms, h.assignValues, h.ofExpr, h.store]

mutual
theorem Agrees.ofStmt (h : t.Agrees t') (s : Stmt) (inLoop : Bool) :
    Block.ofStmt ⟨t, bindings⟩ inLoop s = Block.ofStmt ⟨t', bindings⟩ inLoop s := by
  cases s with
  | expr e _ => simp only [Block.ofStmt, h.ofExpr]
  | decl keyword specs span => simp only [Block.ofStmt, declForms, h.specsForms]
  | assign lhs op rhs span => simp only [Block.ofStmt, h.assignForms]
  | step direction target span => simp only [Block.ofStmt, stepForms, h.ofExpr, h.store]
  | ret results span => simp only [Block.ofStmt, returnForms, h.ofStoredList]
  | block body _ => simp only [Block.ofStmt, h.ofStmts body]
  | branch init cond body els span =>
      cases init with
      | some _ => rfl
      | none => rw [ofStmt_branch, ofStmt_branch, h.ofExpr, h.ofStmts body, h.ofOption els]
  | loop init cond post body span =>
      have hcond : Form.ofCondition ⟨t, bindings⟩ cond = Form.ofCondition ⟨t', bindings⟩ cond := by
        cases cond <;> simp only [Form.ofCondition, h.ofExpr]
      rw [ofStmt_loop, ofStmt_loop, h.ofOption init, hcond, h.ofStmts body, h.ofOption post]
  | breakLoop _ | continueLoop _ => rfl
termination_by structural s

theorem Agrees.ofStmts (h : t.Agrees t') (ss : List Stmt) (inLoop : Bool) :
    Block.ofStmts ⟨t, bindings⟩ inLoop ss = Block.ofStmts ⟨t', bindings⟩ inLoop ss := by
  cases ss with
  | nil => rfl
  | cons s rest => simp only [Block.ofStmts, h.ofStmt s, h.ofStmts rest]
termination_by structural ss

theorem Agrees.ofOption (h : t.Agrees t') (s? : Option Stmt) (inLoop : Bool) :
    Block.ofOption ⟨t, bindings⟩ inLoop s? = Block.ofOption ⟨t', bindings⟩ inLoop s? := by
  cases s? with
  | none => rfl
  | some s => simp only [Block.ofOption, h.ofStmt s]
termination_by structural s?
end

/-! Code of forms -/

mutual
theorem Agrees.emitValue (h : t.Agrees t') (f : Form) :
    StackCompiler.emitValue t f = StackCompiler.emitValue t' f := by
  cases f with
  | array elems => simp only [StackCompiler.emitValue, h.emitValues elems]
  | sparseArray ctor stores =>
      simp only [StackCompiler.emitValue, h.emitValue ctor, h.emitStores stores]
  | copy source => simp only [StackCompiler.emitValue, h.emitValue source]
  | get source index => simp only [StackCompiler.emitValue, h.emitValue source, h.emitValue index]
  | op kind family args =>
      simp only [StackCompiler.emitValue, h.emitValues args, h.emitFold args]
  | unary kind family arg =>
      cases kind <;> cases family <;> simp only [StackCompiler.emitValue, h.emitValue arg]
  | not arg => simp only [StackCompiler.emitValue, h.emitValue arg]
  | and left right | or left right =>
      simp only [StackCompiler.emitValue, h.emitValue left, h.emitValue right]
  | call name args =>
      simp only [StackCompiler.emitValue, h.emitValues args, endCall, h.convention]
  | dynCall callee args =>
      simp only [StackCompiler.emitValue, h.emitValue callee, h.emitValues args]
  | _ => rfl
termination_by structural f

theorem Agrees.emitValues (h : t.Agrees t') (fs : List Form) :
    StackCompiler.emitValues t fs = StackCompiler.emitValues t' fs := by
  cases fs with
  | nil => rfl
  | cons f fs => simp only [StackCompiler.emitValues, h.emitValue f, h.emitValues fs]
termination_by structural fs

theorem Agrees.emitFold (h : t.Agrees t') (fs : List Form) (i : BinaryInstr) :
    StackCompiler.emitFold t i fs = StackCompiler.emitFold t' i fs := by
  cases fs with
  | nil => rfl
  | cons f fs => simp only [StackCompiler.emitFold, h.emitValue f, h.emitFoldRest fs]
termination_by structural fs

theorem Agrees.emitFoldRest (h : t.Agrees t') (fs : List Form) (i : BinaryInstr) :
    StackCompiler.emitFoldRest t i fs = StackCompiler.emitFoldRest t' i fs := by
  cases fs with
  | nil => rfl
  | cons f fs => simp only [StackCompiler.emitFoldRest, h.emitValue f, h.emitFoldRest fs]
termination_by structural fs

theorem Agrees.emitStores (h : t.Agrees t') (stores : List (Int64 × Form)) :
    StackCompiler.emitStores t stores = StackCompiler.emitStores t' stores := by
  match stores with
  | [] => rfl
  | (index, f) :: rest => simp only [StackCompiler.emitStores, h.emitValue f, h.emitStores rest]
termination_by structural stores
end

theorem Agrees.emitReturn (h : t.Agrees t') (results : List Form) :
    StackCompiler.emitReturn t results = StackCompiler.emitReturn t' results := by
  have hresults : ∀ vars fs, emitResults t vars fs = emitResults t' vars fs := by
    intro vars fs
    induction vars generalizing fs with
    | nil => rfl
    | cons var vars ih => cases fs <;> simp only [emitResults, h.emitValue, ih]
  cases results <;> simp only [StackCompiler.emitReturn, h.emitValue, hresults]

mutual
theorem Agrees.terminates (h : t.Agrees t') (f : Form) : f.terminates t = f.terminates t' := by
  cases f with
  | block body => exact h.lastTerminates body
  | call name args => simp only [Form.terminates, Form.callConvention?, h.convention]
  | _ => rfl
termination_by structural f

theorem Agrees.lastTerminates (h : t.Agrees t') (fs : List Form) :
    StackCompiler.lastTerminates t fs = StackCompiler.lastTerminates t' fs := by
  match fs with
  | [] => rfl
  | [f] => exact h.terminates f
  | _ :: f :: rest => exact h.lastTerminates (f :: rest)
termination_by structural fs
end

mutual
theorem Agrees.emitForm (h : t.Agrees t') (f : Form) :
    StackCompiler.emitForm t f = StackCompiler.emitForm t' f := by
  cases f with
  | block body => simp only [StackCompiler.emitForm, h.emitForms body]
  | branch cond body els =>
      cases els <;> simp only [StackCompiler.emitForm, h.emitValue, h.emitForms body,
        h.lastTerminates, h.emitForm]
  | loop cond body post =>
      cases post <;> simp only [StackCompiler.emitForm, h.emitValue, h.emitForms body, h.emitForm]
  | ret results => simp only [StackCompiler.emitForm, h.emitReturn]
  | breakLoop | continueLoop => rfl
  | call name args =>
      simp only [StackCompiler.emitForm, emitCall, h.emitValues, endCall, h.convention]
  | _ => simp only [StackCompiler.emitForm, h.emitValue]
termination_by structural f

theorem Agrees.emitForms (h : t.Agrees t') (fs : List Form) :
    StackCompiler.emitForms t fs = StackCompiler.emitForms t' fs := by
  cases fs with
  | nil => rfl
  | cons f fs => simp only [StackCompiler.emitForms, h.emitForm f, h.emitForms fs]
termination_by structural fs
end

/-- Tables that answer alike compile a function alike. -/
theorem Agrees.ofSource (h : t.Agrees t') (f : Function) :
    CompiledFunction.ofSource ⟨t, bindings⟩ f = CompiledFunction.ofSource ⟨t', bindings⟩ f := by
  simp only [CompiledFunction.ofSource, Block.ofFunction, h.ofStmts, CompiledFunction.ofBlock,
    emitBody, h.emitForms, h.emitReturn]

end SignatureTable

end

/-! ### What the declarations of a package add -/

def Source.Function.signature (f : Function) : Signature :=
  ⟨f.name, if f.results.isEmpty then .void else .value⟩

section

variable {t t' : SignatureTable} {fs fs' : List Function}

/-- The marks of a source function never contradict each other, so it is declared unless its name is
taken. -/
theorem SignatureTable.declare_function (f : Function) :
    t.declare f.name f.flags =
      if t.contains f.name then .error (.duplicateFunction f.name)
      else .ok ⟨(NameHash.ofName f.name, f.signature) :: t.entries⟩ := by
  unfold SignatureTable.declare Function.flags Function.signature
  cases f.results.isEmpty <;> rfl

theorem declareFunctions_cons (f : Function) :
    declareFunctions t (f :: fs) = .ok t' ↔ t.get? f.name = none ∧
      declareFunctions ⟨(NameHash.ofName f.name, f.signature) :: t.entries⟩ fs = .ok t' := by
  rw [declareFunctions, t.declare_function f, SignatureTable.contains]
  cases t.get? f.name with
  | none => simp only [Option.isSome_none, Bool.false_eq_true, if_false, true_and]; rfl
  | some sig => simp [bind, Except.bind]

/-- All functions are declared if no two names have the same hash and none was taken before. -/
theorem exists_declareFunctions_iff :
    (∃ t', declareFunctions t fs = .ok t') ↔
      fs.Pairwise (fun f g => NameHash.ofName f.name ≠ NameHash.ofName g.name) ∧
        ∀ f ∈ fs, t.get? f.name = none := by
  induction fs generalizing t with
  | nil => exact ⟨fun _ => ⟨.nil, by simp⟩, fun _ => ⟨t, rfl⟩⟩
  | cons f fs ih =>
      have hget : ∀ g : Function,
          SignatureTable.get? ⟨(NameHash.ofName f.name, f.signature) :: t.entries⟩ g.name = none ↔
            NameHash.ofName f.name ≠ NameHash.ofName g.name ∧ t.get? g.name = none := by
        intro g
        rw [SignatureTable.get?_of_entries (t := t) rfl]
        by_cases hhash : NameHash.ofName g.name = NameHash.ofName f.name
        · simp [hhash]
        · simp [hhash, Ne.symm hhash]
      simp only [declareFunctions_cons, exists_and_left, ih, hget, List.pairwise_cons,
        List.forall_mem_cons, forall_and]
      tauto

/-- A declared table has a signature for a name if it had one before, or if a function whose name
has the same hash is in the package. -/
theorem get?_declareFunctions (h : declareFunctions t fs = .ok t') (name : String)
    (sig : Signature) :
    t'.get? name = some sig ↔ t.get? name = some sig ∨
      ∃ f ∈ fs, NameHash.ofName f.name = NameHash.ofName name ∧ f.signature = sig := by
  induction fs generalizing t with
  | nil =>
      cases h
      simp
  | cons f fs ih =>
      obtain ⟨hfree, h⟩ := (declareFunctions_cons f).1 h
      rw [ih h, SignatureTable.get?_of_entries (t := t) rfl]
      by_cases hhash : NameHash.ofName name = NameHash.ofName f.name
      · rw [if_pos hhash, SignatureTable.get?_congr hhash, hfree]
        simp [hhash]
      · rw [if_neg hhash]
        simp [Ne.symm hhash]

/-- Functions in another order are declared as well, and the tables answer alike. -/
theorem declareFunctions_perm (hperm : fs.Perm fs') (h : declareFunctions t fs = .ok t') :
    ∃ t'', declareFunctions t fs' = .ok t'' ∧ t'.Agrees t'' := by
  have hdeclared := exists_declareFunctions_iff.1 ⟨t', h⟩
  rw [hperm.pairwise_iff fun hne => hne.symm] at hdeclared
  obtain ⟨t'', ht''⟩ := exists_declareFunctions_iff.2
    ⟨hdeclared.1, fun f hf => hdeclared.2 f (hperm.mem_iff.2 hf)⟩
  refine ⟨t'', ht'', fun name => Option.ext fun sig => ?_⟩
  simp only [get?_declareFunctions h, get?_declareFunctions ht'', hperm.mem_iff]

end

/-! ### Compiled functions in another order -/

section

variable {env env' : Environment} {fs fs' : List Function} {cs cs' : List CompiledFunction}

theorem CompiledFunction.name_ofSource {f : Function} {c : CompiledFunction}
    (h : ofSource env f = .ok c) : c.name = f.name := by
  unfold ofSource at h
  split at h
  · split at h
    · unfold ofBlock at h
      split at h
      · unfold ofAssembly at h
        split at h
        · cases h
          rfl
        · cases h
      · cases h
    · cases h
  · cases h

/-- Functions are compiled one by one, each without regard to the others. -/
theorem compileFunctions_iff : compileFunctions env fs = .ok cs ↔
    List.Forall₂ (fun f c => CompiledFunction.ofSource env f = .ok c) fs cs := by
  induction fs generalizing cs with
  | nil =>
      rw [compileFunctions, List.forall₂_nil_left_iff]
      exact ⟨fun h => by cases h; rfl, fun h => by rw [h]⟩
  | cons f fs ih =>
      rw [compileFunctions, List.forall₂_cons_left_iff]
      cases CompiledFunction.ofSource env f with
      | error e => simp
      | ok c =>
          cases hrest : compileFunctions env fs with
          | error e =>
              simp only [← ih, hrest]
              constructor
              · intro h
                cases h
              · rintro ⟨_, _, _, h, _⟩
                cases h
          | ok others =>
              simp only [← ih, hrest, Except.ok.injEq]
              constructor
              · intro h
                cases h
                exact ⟨c, others, rfl, rfl, rfl⟩
              · rintro ⟨_, _, rfl, rfl, rfl⟩
                rfl

/-- Functions in another order are compiled to the same functions in another order. -/
theorem compileFunctions_perm (hperm : fs.Perm fs')
    (hsource : ∀ f, CompiledFunction.ofSource env f = CompiledFunction.ofSource env' f)
    (h : compileFunctions env fs = .ok cs) :
    ∃ cs', compileFunctions env' fs' = .ok cs' ∧ cs.Perm cs' := by
  obtain ⟨cs', hcs', hperm'⟩ := List.perm_comp_forall₂ hperm.symm (compileFunctions_iff.1 h)
  simp only [hsource] at hcs'
  exact ⟨cs', compileFunctions_iff.2 hcs', hperm'.symm⟩

theorem map_name_compileFunctions (h : compileFunctions env fs = .ok cs) :
    cs.map (·.name) = fs.map (·.name) := by
  have hsources := compileFunctions_iff.1 h
  clear h
  induction hsources with
  | nil => rfl
  | cons hfirst _ ih => simp only [List.map_cons, CompiledFunction.name_ofSource hfirst, ih]

end

/-! ### Modules and units -/

/-- In a module without two functions of one name, a function is found by its name. -/
theorem Module.find?_eq_some_iff {m : Module} (hnames : (m.functions.map (·.name)).Nodup)
    {name : String} {c : CompiledFunction} :
    m.find? name = some c ↔ c ∈ m.functions ∧ c.name = name := by
  constructor
  · intro h
    exact ⟨List.mem_of_find?_eq_some h, by simpa using List.find?_some h⟩
  · rintro ⟨hmem, rfl⟩
    cases hfound : m.find? c.name with
    | none => exact absurd (List.find?_eq_none.1 hfound c hmem) (by simp)
    | some d =>
        have hname : d.name = c.name := by simpa using List.find?_some hfound
        rw [List.inj_on_of_nodup_map hnames (List.mem_of_find?_eq_some hfound) hmem hname]

theorem Module.find?_perm {m m' : Module} (hperm : m.functions.Perm m'.functions)
    (hnames : (m.functions.map (·.name)).Nodup) (name : String) : m.find? name = m'.find? name := by
  have hnames' := (hperm.map (·.name)).nodup_iff.1 hnames
  refine Option.ext fun c => ?_
  rw [find?_eq_some_iff hnames, find?_eq_some_iff hnames', hperm.mem_iff]

section

variable {env : Environment} {p p' : Package}

/-- A package that compiles has a function, and its functions are declared and then compiled. -/
theorem Source.Package.compile_iff {m : Module} : p.compile env = .ok m ↔ p.functions ≠ [] ∧
    ∃ t, declareFunctions env.functions p.functions = .ok t ∧
      compileFunctions { env with functions := t } p.functions = .ok m.functions := by
  unfold Package.compile
  by_cases hempty : p.functions = []
  · simp [hempty]
  · rw [if_neg (by simpa using hempty)]
    cases declareFunctions env.functions p.functions with
    | error e => simp
    | ok t =>
        simp only [ne_eq, hempty, not_false_eq_true, true_and, Except.ok.injEq, exists_eq_left']
        cases compileFunctions { env with functions := t } p.functions with
        | error e =>
            constructor <;> intro h <;> cases h
        | ok cs =>
            constructor <;> intro h <;> cases h <;> rfl

/-- The functions of a package that compiles have different names. -/
theorem Source.Package.nodup_of_compile {m : Module} (h : p.compile env = .ok m) :
    (m.functions.map (·.name)).Nodup := by
  obtain ⟨-, t, ht, hcs⟩ := compile_iff.1 h
  rw [map_name_compileFunctions hcs]
  refine List.pairwise_map.2 ((exists_declareFunctions_iff.1 ⟨t, ht⟩).1.imp ?_)
  exact fun hhash hname => hhash (by rw [hname])

/-- A package with its functions in another order compiles to the same functions in that order. -/
theorem Source.Package.compile_perm {m : Module} (hperm : p.functions.Perm p'.functions)
    (h : p.compile env = .ok m) :
    ∃ m', p'.compile env = .ok m' ∧ m.functions.Perm m'.functions := by
  obtain ⟨hfunctions, t, ht, hcs⟩ := compile_iff.1 h
  obtain ⟨t', ht', hagrees⟩ := declareFunctions_perm hperm ht
  have hsource : ∀ f, CompiledFunction.ofSource { env with functions := t } f =
      CompiledFunction.ofSource { env with functions := t' } f := fun f => hagrees.ofSource f
  obtain ⟨cs', hcs', hperm'⟩ := compileFunctions_perm hperm hsource hcs
  refine ⟨⟨cs'⟩, compile_iff.2 ⟨fun hnil => hfunctions ?_, t', ht', hcs'⟩, hperm'⟩
  rw [hnil] at hperm
  exact hperm.eq_nil

end

namespace CompilationUnit

theorem build_iff {c : Context} {u v : CompilationUnit} (hu : ofContext c = .ok u) {p : Package} :
    u.build p = .ok v ↔
      ∃ m, p.compile c.environment = .ok m ∧ v = { u with module? := some m } := by
  unfold ofContext at hu
  split at hu
  · cases hu
    simp only [build, isBuilt, Option.isSome_none, Bool.false_eq_true, if_false]
    cases p.compile c.environment with
    | ok m => simp [eq_comm]
    | error e => simp
  · cases hu

/-- Whether a fresh unit of a sealed context builds a package does not depend on the order of the
package's functions. The module lists the functions in the order of their declaration, and the
function of each name is compiled to the same code in every order. -/
theorem build_perm {c : Context} {u : CompilationUnit} (hu : ofContext c = .ok u)
    {p p' : Package} (hperm : p.functions.Perm p'.functions) :
    ((∃ v, u.build p = .ok v) ↔ ∃ v', u.build p' = .ok v') ∧
    ∀ v, u.build p = .ok v → ∃ m, v.module? = some m ∧
      m.functions.map (·.name) = p.functions.map (·.name) ∧
      ∀ v', u.build p' = .ok v' → ∃ m', v'.module? = some m' ∧
        m.functions.Perm m'.functions ∧ ∀ name, m.find? name = m'.find? name := by
  have hother : ∀ {p p' : Package}, p.functions.Perm p'.functions → (∃ v, u.build p = .ok v) →
      ∃ v', u.build p' = .ok v' := by
    rintro p p' hperm ⟨v, hv⟩
    obtain ⟨m, hm, -⟩ := (build_iff hu).1 hv
    obtain ⟨m', hm', -⟩ := Package.compile_perm hperm hm
    exact ⟨_, (build_iff hu).2 ⟨m', hm', rfl⟩⟩
  refine ⟨⟨hother hperm, hother hperm.symm⟩, fun v hv => ?_⟩
  obtain ⟨m, hm, rfl⟩ := (build_iff hu).1 hv
  obtain ⟨-, t, -, hcs⟩ := Package.compile_iff.1 hm
  refine ⟨m, rfl, map_name_compileFunctions hcs, fun v' hv' => ?_⟩
  obtain ⟨m', hm', rfl⟩ := (build_iff hu).1 hv'
  obtain ⟨m'', hm'', hsame⟩ := Package.compile_perm hperm hm
  cases hm'.symm.trans hm''
  exact ⟨m', rfl, hsame, Module.find?_perm hsame (Package.nodup_of_compile hm)⟩

/-- A function calls another one, which has no result and is declared later. -/
def forwardPackage : Package :=
  ⟨"main", [
    ⟨"main.run", [], [],
      [.expr (.call (.function "main.log") [.ofLiteral (.int 7)] .void {}) {}]⟩,
    ⟨"main.log", [⟨"n", .int⟩], [], []⟩]⟩

def backwardPackage : Package :=
  ⟨"main", forwardPackage.functions.reverse⟩

theorem build_perm_forwardPackage :
    ∃ u v v' m m', ofContext Context.empty.close = .ok u ∧
      u.build forwardPackage = .ok v ∧ u.build backwardPackage = .ok v' ∧
      v.module? = some m ∧ v'.module? = some m' ∧
      m.functions.map (·.name) = ["main.run", "main.log"] ∧
      (m.find? "main.run").isSome = true ∧ m.find? "main.run" = m'.find? "main.run" := by
  have hu : ofContext Context.empty.close = .ok ⟨Context.empty.close, none⟩ := rfl
  have hok : (build ⟨Context.empty.close, none⟩ forwardPackage).isOk = true := by decide +kernel
  have horder : forwardPackage.functions.Perm backwardPackage.functions :=
    (List.reverse_perm _).symm
  obtain ⟨hbuilt, hmodules⟩ := build_perm hu horder
  cases hbuild : build ⟨Context.empty.close, none⟩ forwardPackage with
  | error e =>
      rw [hbuild] at hok
      cases hok
  | ok v =>
      obtain ⟨v', hv'⟩ := hbuilt.1 ⟨v, hbuild⟩
      obtain ⟨m, hm, hnames, hsame⟩ := hmodules v hbuild
      obtain ⟨m', hm', -, hfind⟩ := hsame v' hv'
      refine ⟨_, v, v', m, m', hu, hbuild, hv', hm, hm', hnames, ?_, hfind _⟩
      have hmem : "main.run" ∈ m.functions.map (·.name) := by simp [hnames, forwardPackage]
      obtain ⟨c, hc, hname⟩ := List.mem_map.1 hmem
      exact List.find?_isSome.2 ⟨c, hc, by simp [hname]⟩

end CompilationUnit

end StackCompiler
