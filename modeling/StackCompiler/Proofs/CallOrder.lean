import Mathlib.Data.List.Forall2
import Mathlib.Data.List.ReduceOption
import StackCompiler.Proofs.OperandShape

/-!
Calls in expressions. Lowering resolves every call of an expression, and none is lost, repeated or
moved before another: read from the left, each after the calls in its parts, the calls of the form
are the targets of the calls in the source. Beside them a form calls only the helpers that compare
by identity and make arrays of zeros. The induction of `traces_ofExpr` follows the expression, with
one case for every way in which a call can be resolved.
-/

namespace StackCompiler

open Source

/-! ### Calls in forms -/

inductive Invocation where
  | named (name : String)
  | dynamic
  deriving DecidableEq

mutual
/-- The calls in a form, from the left, each after the calls in its parts. -/
def Form.calls : Form → List Invocation
  | .call name args => callsAll args ++ [.named name]
  | .dynCall callee args => callee.calls ++ callsAll args ++ [.dynamic]
  | .array elems => callsAll elems
  | .sparseArray ctor stores => ctor.calls ++ callsStores stores
  | .block body => callsAll body
  | .branch cond body els => cond.calls ++ callsAll body ++ callsOption els
  | .loop cond body post => cond.calls ++ callsAll body ++ callsOption post
  | .ret results => callsAll results
  | .bind _ f | .rebind _ f | .unary _ _ f | .not f | .copy f => f.calls
  | .op _ _ args => callsAll args
  | .and left right | .or left right | .get left right => left.calls ++ right.calls
  | .set target index value => target.calls ++ index.calls ++ value.calls
  | .bool _ | .char _ | .int _ | .float _ | .str _ | .symbol _ | .var _ | .breakLoop
  | .continueLoop | .resultRef _ => []

def Form.callsAll : List Form → List Invocation
  | [] => []
  | f :: fs => f.calls ++ callsAll fs

def Form.callsStores : List (Int64 × Form) → List Invocation
  | [] => []
  | (_, f) :: rest => f.calls ++ callsStores rest

def Form.callsOption : Option Form → List Invocation
  | none => []
  | some f => f.calls
end

/-- Whether the call is one that lowering an expression may add. -/
def Invocation.isHelper : Invocation → Bool
  | .named name => name = Host.eq || name = Host.makeVector
  | .dynamic => false

def withoutHelpers (calls : List Invocation) : List Invocation :=
  calls.filter fun call => !call.isHelper

@[simp] theorem withoutHelpers_append (calls others : List Invocation) :
    withoutHelpers (calls ++ others) = withoutHelpers calls ++ withoutHelpers others :=
  List.filter_append _ _

/-! ### Calls in the source -/

inductive CallExpr where
  | call (callee : Callee) (args : List Expr)
  | method (name : String)

mutual
/-- The calls in an expression, from the left, each after the calls in its parts. -/
def Source.Expr.callExprs : Expr → List CallExpr
  | .lit _ _ _ | .ident _ _ _ _ _ => []
  | .binary _ left right _ _ => left.callExprs ++ right.callExprs
  | .unary _ operand _ _ => operand.callExprs
  | .call callee args _ _ => callExprsAll args ++ [.call callee args]
  | .method receiver name args _ _ => receiver.callExprs ++ callExprsAll args ++ [.method name]
  | .index base at' _ _ => base.callExprs ++ at'.callExprs
  | .array elems _ _ => callExprsElements elems
  | .paren inner _ => inner.callExprs

def Source.Expr.callExprsAll : List Expr → List CallExpr
  | [] => []
  | e :: es => e.callExprs ++ callExprsAll es

def Source.Expr.callExprsElements : List (Option Int64 × Expr) → List CallExpr
  | [] => []
  | (_, e) :: rest => e.callExprs ++ callExprsElements rest
end

/-- A constant has no calls in it. -/
theorem Source.Expr.callExprs_of_literal? {e : Expr} {v : Literal} (h : e.literal? = some v) :
    e.callExprs = [] := by
  fun_induction Expr.literal? e with
  | case1 => rfl
  | case2 => rfl
  | case3 inner span ih => exact ih h
  | case4 => cases h

/-! ### What the calls stand for -/

/-- Intrinsics that mark a value as one of a kind. -/
def valueConstructors : List String := ["Int", "Float", "Str", "Symbol", "Bool"]

def coercions : List (String × String) :=
  [("Bool", Host.coerceBool), ("Int", Host.coerceInt), ("Float", Host.coerceFloat),
    ("String", Host.coerceString), ("Symbol", Host.coerceSymbol)]

/-- What a call in the source invokes. A call that marks a value, or that makes a symbol of a
constant, invokes nothing by itself. -/
inductive CallExpr.Resolves (env : Environment) : CallExpr → Option Invocation → Prop where
  | panic {name : String} {args : List Expr} (hname : name = "panic") :
      Resolves env (.call (.function name) args) (some (.named Host.raise))
  | len {name : String} {args : List Expr} (hname : name = "len") :
      Resolves env (.call (.function name) args) (some (.named Host.length))
  | declared {name : String} {args : List Expr} (hname : name ∉ ["panic", "len"])
      (hdeclared : env.functions.contains name = true) :
      Resolves env (.call (.function name) args) (some (.named name))
  | value {name : String} {arg : Expr} (hname : name ∈ valueConstructors) :
      Resolves env (.call (.intrinsic name) [arg]) none
  | dynCall {name : String} {target : Expr} {rest : List Expr} (hname : name = "DynCall") :
      Resolves env (.call (.intrinsic name) (target :: rest)) (some .dynamic)
  | callNamed {name host : String} {target : Expr} {rest : List Expr} (hname : name = "Call")
      (htarget : target.literal? = some (.str host)) :
      Resolves env (.call (.intrinsic name) (target :: rest)) (some (.named host))
  | callComputed {name : String} {target : Expr} {rest : List Expr} (hname : name = "Call")
      (htarget : ∀ host, target.literal? ≠ some (.str host)) :
      Resolves env (.call (.intrinsic name) (target :: rest)) (some .dynamic)
  | internConstant {name text : String} {arg : Expr} (hname : name = "Intern")
      (harg : arg.literal? = some (.str text)) :
      Resolves env (.call (.intrinsic name) [arg]) none
  | internComputed {name : String} {arg : Expr} (hname : name = "Intern")
      (harg : ∀ text, arg.literal? ≠ some (.str text)) :
      Resolves env (.call (.intrinsic name) [arg]) (some (.named Host.intern))
  | registered {name host : String} {args : List Expr}
      (hname : name ∉ "DynCall" :: "Call" :: "Intern" :: valueConstructors)
      (hhost : env.bindings.get? name = some host) :
      Resolves env (.call (.intrinsic name) args) (some (.named host))
  | coercion {name host : String} (hname : (name, host) ∈ coercions) :
      Resolves env (.method name) (some (.named host))

section

variable {env : Environment}

/-- No call can be resolved in two ways: the rules for a name exclude each other. -/
theorem CallExpr.Resolves.rightUnique : Relator.RightUnique (CallExpr.Resolves env) := by
  intro site target target' h h'
  cases h with
  | coercion h =>
      rcases h' with _ | _ | _ | _ | _ | _ | _ | _ | _ | _ | h'
      simp only [coercions, List.mem_cons, Prod.mk.injEq, List.not_mem_nil, or_false] at h h'
      rcases h with ⟨rfl, rfl⟩ | ⟨rfl, rfl⟩ | ⟨rfl, rfl⟩ | ⟨rfl, rfl⟩ | ⟨rfl, rfl⟩ <;> simp_all
  | _ => cases h' <;> simp_all [valueConstructors]

theorem resolves_of_resolveFunction {name host : String} {args : List Expr} {span : Span}
    (h : resolveFunction env name args.length span = .ok host) :
    CallExpr.Resolves env (.call (.function name) args) (some (.named host)) := by
  simp only [resolveFunction] at h
  split at h
  · split at h <;> cases h
    exact .panic ‹_›
  · split at h
    · split at h <;> cases h
      exact .len ‹_›
    · split at h <;> cases h
      exact .declared (by simp_all) ‹_›

def Intrinsic.names : Intrinsic → List String
  | .wrap => valueConstructors
  | .dynCall => ["DynCall"]
  | .call => ["Call"]
  | .intern => ["Intern"]

theorem Intrinsic.mem_names_of_ofName? {name : String} {i : Intrinsic}
    (h : ofName? name = some i) : name ∈ i.names := by
  unfold ofName? at h
  split at h <;> cases h <;> simp [names, valueConstructors]

/-- The name of an intrinsic that has only one. -/
theorem Intrinsic.name_eq {name text : String} {i : Intrinsic} (h : ofName? name = some i)
    (hnames : i.names = [text]) : name = text := by
  have hname := mem_names_of_ofName? h
  rwa [hnames, List.mem_singleton] at hname

theorem Intrinsic.notMem_of_ofName? {name : String} (h : ofName? name = none) :
    name ∉ "DynCall" :: "Call" :: "Intern" :: valueConstructors := by
  unfold ofName? at h
  split at h <;> simp_all [valueConstructors]

theorem mem_coercions_of_coercion? {name host : String} (h : coercion? name = some host) :
    (name, host) ∈ coercions := by
  unfold coercion? at h
  split at h <;> cases h <;> simp [coercions]

/-! ### Calls of a form and calls of the source -/

/-- Apart from helpers, the calls are what the calls in the source invoke, one after the other. -/
def Traces (env : Environment) (sites : List CallExpr) (calls : List Invocation) : Prop :=
  ∃ targets, List.Forall₂ (CallExpr.Resolves env) sites targets ∧
    withoutHelpers calls = withoutHelpers targets.reduceOption

namespace Traces

variable {sites sites' : List CallExpr} {calls calls' : List Invocation}

theorem nil : Traces env [] [] :=
  ⟨[], .nil, rfl⟩

theorem append (h : Traces env sites calls) (h' : Traces env sites' calls') :
    Traces env (sites ++ sites') (calls ++ calls') := by
  obtain ⟨targets, hsites, hcalls⟩ := h
  obtain ⟨targets', hsites', hcalls'⟩ := h'
  refine ⟨targets ++ targets', List.rel_append hsites hsites', ?_⟩
  rw [List.reduceOption_append, withoutHelpers_append, withoutHelpers_append, hcalls, hcalls']

/-- A call that invokes something comes after the calls in its parts. -/
theorem invoke {site : CallExpr} {call : Invocation} (h : Traces env sites calls)
    (hsite : site.Resolves env (some call)) : Traces env (sites ++ [site]) (calls ++ [call]) :=
  h.append ⟨[some call], .cons hsite .nil, rfl⟩

/-- A call that invokes nothing leaves no trace. -/
theorem skip {site : CallExpr} (h : Traces env sites calls) (hsite : site.Resolves env none) :
    Traces env (sites ++ [site]) calls := by
  have hskip : Traces env [site] [] := ⟨[none], .cons hsite .nil, rfl⟩
  rw [← List.append_nil calls]
  exact h.append hskip

theorem of_eq (h : Traces env sites calls) (heq : withoutHelpers calls' = withoutHelpers calls) :
    Traces env sites calls' := by
  obtain ⟨targets, hsites, hcalls⟩ := h
  exact ⟨targets, hsites, heq.trans hcalls⟩

end Traces

theorem callsAll_append (fs gs : List Form) :
    Form.callsAll (fs ++ gs) = Form.callsAll fs ++ Form.callsAll gs := by
  induction fs with
  | nil => rfl
  | cons f fs ih => rw [List.cons_append, Form.callsAll, Form.callsAll, ih, List.append_assoc]

theorem callsStores_eq (stores : List (Int64 × Form)) :
    Form.callsStores stores = Form.callsAll (stores.map (·.2)) := by
  induction stores with
  | nil => rfl
  | cons store rest ih => rw [List.map_cons, Form.callsStores, Form.callsAll, ih]

theorem calls_ofLiteral (v : Literal) (kind : Kind) : (Form.ofLiteral v kind).calls = [] := by
  unfold Form.ofLiteral
  split <;> rfl

theorem calls_asStored (e : Expr) (f : Form) : (asStored e f).calls = f.calls := by
  unfold asStored
  split <;> rfl

/-- A chain keeps its operands in order when another one is added. -/
theorem calls_applyOp (kind : OpKind) (family : Family) (left right : Form) :
    (Form.applyOp kind family left right).calls = left.calls ++ right.calls := by
  unfold Form.applyOp
  split
  · split <;> simp [Form.calls, callsAll_append, Form.callsAll]
  · simp [Form.calls, Form.callsAll]

theorem calls_ofStores (elem : Scalar) (declared : Option Nat) (stores : List (Int64 × Form)) :
    withoutHelpers (Form.ofStores elem declared stores).calls =
      withoutHelpers (Form.callsAll (stores.map (·.2))) := by
  have hzero : elem.zero.calls = [] := by cases elem <;> rfl
  have hctor (length : Nat) : withoutHelpers (Form.zeroArray elem length).calls = [] := by
    simp only [Form.zeroArray, Form.calls, Form.callsAll, hzero]
    rfl
  simp only [Form.ofStores]
  split
  · rfl
  · rw [Form.calls, withoutHelpers_append, hctor, callsStores_eq, List.nil_append]

theorem traces_ofBinary {op : BinaryOp} {family? : Option Family} {left right f : Form}
    {span : Span} {sites sites' : List CallExpr} (hleft : Traces env sites left.calls)
    (hright : Traces env sites' right.calls)
    (h : Form.ofBinary op family? left right span = .ok f) :
    Traces env (sites ++ sites') f.calls := by
  have hboth := hleft.append hright
  have hidentity : Traces env (sites ++ sites') (Form.call Host.eq [left, right]).calls := by
    apply hboth.of_eq
    simp only [Form.calls, Form.callsAll, withoutHelpers_append, List.append_nil]
    exact List.append_nil _
  unfold Form.ofBinary at h
  split at h
  · cases h
    exact hboth
  · cases h
    exact hboth
  · split at h
    · cases h
    · split at h
      · cases h
        rwa [calls_applyOp]
      · unfold Form.ofIdentityTest at h
        split at h <;> cases h <;> exact hidentity

theorem traces_ofStoredList_of_forall {es : List Expr} {fs : List Form}
    (hes : ∀ e ∈ es, ∀ f, Form.ofExpr env e = .ok f → Traces env e.callExprs f.calls)
    (h : Form.ofStoredList env es = .ok fs) :
    Traces env (Expr.callExprsAll es) (Form.callsAll fs) := by
  induction es generalizing fs with
  | nil =>
      cases h
      exact .nil
  | cons e es ih =>
      rw [List.forall_mem_cons] at hes
      obtain ⟨f, hf, h⟩ := lower_bind_ok h
      obtain ⟨rest, hrest, h⟩ := lower_bind_ok h
      cases h
      rw [Expr.callExprsAll, Form.callsAll, calls_asStored]
      exact (hes.1 f hf).append (ih hes.2 hrest)

theorem traces_ofElements_of_forall {elems : List (Option Int64 × Expr)} {declared : Option Nat}
    {next : Int64} {stores : List (Int64 × Form)}
    (helems : ∀ elem ∈ elems, ∀ f, Form.ofExpr env elem.2 = .ok f →
      Traces env elem.2.callExprs f.calls)
    (h : Form.ofElements env declared next elems = .ok stores) :
    Traces env (Expr.callExprsElements elems) (Form.callsAll (stores.map (·.2))) := by
  induction elems generalizing next stores with
  | nil =>
      cases h
      exact .nil
  | cons elem rest ih =>
      obtain ⟨key, e⟩ := elem
      rw [List.forall_mem_cons] at helems
      simp only [Form.ofElements] at h
      split at h
      · obtain ⟨f, hf, h⟩ := lower_bind_ok h
        obtain ⟨others, hothers, h⟩ := lower_bind_ok h
        cases h
        rw [Expr.callExprsElements, List.map_cons, Form.callsAll, calls_asStored]
        exact (helems.1 f hf).append (ih helems.2 hothers)
      · cases h

/-- The calls of a call: those of its arguments, and then what it invokes itself. -/
theorem traces_ofExpr_call {callee : Callee} {args : List Expr} {kind : Kind} {span : Span}
    {f : Form}
    (hargs : ∀ e ∈ args, ∀ f, Form.ofExpr env e = .ok f → Traces env e.callExprs f.calls)
    (h : Form.ofExpr env (.call callee args kind span) = .ok f) :
    Traces env (Expr.call callee args kind span).callExprs f.calls := by
  rw [Expr.callExprs]
  cases ofExpr_call h with
  | function hcallee hhost hfs =>
      subst hcallee
      exact (traces_ofStoredList_of_forall hargs hfs).invoke (resolves_of_resolveFunction hhost)
  | wrap hcallee hname heq harg =>
      subst hcallee heq
      rw [List.forall_mem_singleton] at hargs
      simp only [Expr.callExprsAll, List.append_nil]
      exact (hargs f harg).skip (.value (Intrinsic.mem_names_of_ofName? hname))
  | dynCall hcallee hname heq htarget hrest =>
      subst hcallee heq
      rw [List.forall_mem_cons] at hargs
      have hparts := (hargs.1 _ htarget).append (traces_ofStoredList_of_forall hargs.2 hrest)
      apply hparts.invoke
      rcases hname with hname | ⟨hname, hcomputed⟩
      · exact .dynCall (Intrinsic.name_eq hname rfl)
      · exact .callComputed (Intrinsic.name_eq hname rfl) hcomputed
  | named hcallee hname heq htarget hrest =>
      subst hcallee heq
      rw [List.forall_mem_cons] at hargs
      rw [Expr.callExprsAll, Expr.callExprs_of_literal? htarget, List.nil_append]
      apply (traces_ofStoredList_of_forall hargs.2 hrest).invoke
      exact .callNamed (Intrinsic.name_eq hname rfl) htarget
  | symbol hcallee hname heq harg =>
      subst hcallee heq
      rw [Expr.callExprsAll, Expr.callExprs_of_literal? harg]
      apply Traces.nil.skip
      exact .internConstant (Intrinsic.name_eq hname rfl) harg
  | intern hcallee hname heq harg =>
      subst hcallee heq
      rw [List.forall_mem_singleton] at hargs
      simp only [Expr.callExprsAll, Form.calls, Form.callsAll, List.append_nil]
      apply (hargs _ harg).invoke
      exact .internComputed (Intrinsic.name_eq hname.1 rfl) hname.2
  | bound hcallee hname hhost hfs =>
      subst hcallee
      apply (traces_ofStoredList_of_forall hargs hfs).invoke
      exact .registered (Intrinsic.notMem_of_ofName? hname) hhost

/-- The calls of a form are what the calls of its expression invoke. -/
theorem traces_ofExpr (e : Expr) {f : Form} (h : Form.ofExpr env e = .ok f) :
    Traces env e.callExprs f.calls := by
  induction e using Expr.induction generalizing f with
  | lit v kind span =>
      cases h
      rw [calls_ofLiteral]
      exact .nil
  | ident name defines kind value span =>
      cases value with
      | some v =>
          cases h
          rw [calls_ofLiteral]
          exact .nil
      | none =>
          simp only [Form.ofExpr] at h
          split at h <;> cases h
          exact .nil
  | binary op left right kind span ihleft ihright =>
      obtain ⟨l, hl, h⟩ := lower_bind_ok h
      obtain ⟨r, hr, h⟩ := lower_bind_ok h
      exact traces_ofBinary (ihleft hl) (ihright hr) h
  | unary op operand kind span ih =>
      by_cases hplus : op = .plus
      · subst hplus
        exact ih h
      · by_cases hnot : op = .not
        · subst hnot
          obtain ⟨f, hf, h⟩ := lower_bind_ok h
          cases h
          rw [Form.calls]
          exact ih hf
        · rw [Expr.callExprs]
          obtain ⟨v, -, hv, -, rfl⟩ | ⟨x, -, hx, rfl⟩ | ⟨sign, family, f, -, hf, rfl⟩ :=
            ExprAgrees.ofExpr_unary_cases h hplus hnot
          -- a folded constant had no calls in it
          · rw [Expr.callExprs_of_literal? hv]
            exact .nil
          · rw [Expr.callExprs_of_literal? hx]
            exact .nil
          · rw [Form.calls]
            exact ih hf
  | call callee args kind span ihargs =>
      exact traces_ofExpr_call (fun e he f hf => ihargs e he hf) h
  | method receiver name args kind span ih _ =>
      obtain ⟨host, g, rfl, hhost, hg, rfl⟩ := ofExpr_method h
      simp only [Expr.callExprs, Expr.callExprsAll, Form.calls, Form.callsAll, List.append_nil]
      exact (ih hg).invoke (.coercion (mem_coercions_of_coercion? hhost))
  | index base at' kind span ihbase ihat =>
      obtain ⟨b, hb, h⟩ := lower_bind_ok h
      obtain ⟨i, hi, h⟩ := lower_bind_ok h
      cases h
      exact (ihbase hb).append (ihat hi)
  | array elems kind span ihelems =>
      obtain ⟨elem, declared, stores, hstores, rfl⟩ := ofExpr_array h
      apply Traces.of_eq _ (calls_ofStores elem declared stores)
      exact traces_ofElements_of_forall (fun elem helem f hf => ihelems elem helem hf) hstores
  | paren inner span ih => exact ih h

/-- Lowering neither loses, repeats, moves nor leaves unresolved a call. The calls in the expression
can be resolved, and in one way only; apart from helpers, the calls in its form are what they
invoke, in the same order. -/
theorem ofExpr_keeps_calls (env : Environment) (e : Expr) (f : Form)
    (h : Form.ofExpr env e = .ok f) :
    ∃! targets, List.Forall₂ (CallExpr.Resolves env) e.callExprs targets ∧
      withoutHelpers f.calls = withoutHelpers targets.reduceOption := by
  obtain ⟨targets, hsites, hcalls⟩ := traces_ofExpr e h
  refine ⟨targets, ⟨hsites, hcalls⟩, fun targets' h' => ?_⟩
  exact CallExpr.Resolves.rightUnique.forall₂ h'.1 hsites

end

def clockHost : Environment :=
  ⟨⟨[(.ofName "f", ⟨"f", .value⟩)]⟩, ⟨[("Now", "current-time")]⟩⟩

/-- Source of `DynCall(Now(), Intern(x.String())) == Symbol(Call("g", []int{2: f(-len(s))}[2]))`. -/
def clockTest : Expr :=
  .ofBinary .eq
    (.call (.intrinsic "DynCall") [.call (.intrinsic "Now") [] (.scalar .object) {},
      .call (.intrinsic "Intern") [.method (.ofName "x" (.scalar .object)) "String" [] .string {}]
        (.scalar .symbol) {}] (.scalar .object) {})
    (.call (.intrinsic "Symbol") [.call (.intrinsic "Call") [.ofLiteral (.str "g"),
      .ofIndex (.array [(some 2, .call (.function "f") [.ofUnary .neg
          (.call (.function "len") [.ofName "s" (.slice .int)] .int {})] .int {})]
        (.slice .int) {}) (.ofLiteral (.int 2)) .int] (.scalar .object) {}] (.scalar .symbol) {})

theorem ofExpr_keeps_calls_clockTest :
    ∃ f, Form.ofExpr clockHost clockTest = .ok f ∧
      f.calls = [.named "current-time", .named Host.coerceString, .named Host.intern, .dynamic,
        .named Host.makeVector, .named Host.length, .named "f", .named "g", .named Host.eq] ∧
      ∃! targets, List.Forall₂ (CallExpr.Resolves clockHost) clockTest.callExprs targets ∧
        withoutHelpers f.calls = withoutHelpers targets.reduceOption := by
  have hcalls : (Form.ofExpr clockHost clockTest).toOption.map Form.calls =
      some [.named "current-time", .named Host.coerceString, .named Host.intern, .dynamic,
        .named Host.makeVector, .named Host.length, .named "f", .named "g", .named Host.eq] := by
    decide +kernel
  cases h : Form.ofExpr clockHost clockTest with
  | error e =>
      rw [h] at hcalls
      cases hcalls
  | ok f =>
      rw [h] at hcalls
      exact ⟨f, rfl, Option.some.inj hcalls, ofExpr_keeps_calls clockHost clockTest f h⟩

end StackCompiler
