import StackCompiler.Proofs.Parts
import StackCompiler.Proofs.SourceScope
import StackCompiler.Proofs.StmtMeaning

/-!
Forms that know kinds. A form has forgotten which of its variables are arrays, and what the source
asks of the values that it evaluates. A typed form keeps both. `map_ofStmt` shows that nothing else
is added: without kinds, the typed forms of a statement are its forms.

Beside this stands what it means that source respects its kinds: an array is asked for only where
an array is given.
-/

namespace StackCompiler

namespace Source

/-! ### Calls and their kinds -/

/-- The kinds of what a call passes, and the kind that its value is used as. -/
structure CallSite where
  args : List Kind
  kind : Kind

def givesArrays (asked given : List Kind) : Bool :=
  (asked.zip given).all fun (kind, other) => !kind.isArray || other.isArray

def startsWithArray (kinds : List Kind) : Bool :=
  kinds.head?.any Kind.isArray

def Function.yieldsArray (f : Function) : Bool :=
  match f.results with
  | [kind] => kind.isArray
  | _ => false

/-- Whether a function finds arrays where it has array parameters, and yields an array where the
call is used as one. -/
def CallSite.fits (site : CallSite) (f : Function) : Bool :=
  givesArrays (f.params.map Param.kind) site.args && (!site.kind.isArray || f.yieldsArray)

mutual
def Expr.parts : Expr → List Expr
  | .binary op left right kind span =>
    .binary op left right kind span :: (left.parts ++ right.parts)
  | .unary op operand kind span => .unary op operand kind span :: operand.parts
  | .call callee args kind span => .call callee args kind span :: Expr.listParts args
  | .method receiver name args kind span =>
    .method receiver name args kind span :: (receiver.parts ++ Expr.listParts args)
  | .index base at' kind span => .index base at' kind span :: (base.parts ++ at'.parts)
  | .array elems kind span => .array elems kind span :: Expr.elementParts elems
  | .paren inner span => .paren inner span :: inner.parts
  | e => [e]

def Expr.listParts : List Expr → List Expr
  | [] => []
  | e :: es => e.parts ++ Expr.listParts es

def Expr.elementParts : List (Option Int64 × Expr) → List Expr
  | [] => []
  | (_, e) :: rest => e.parts ++ Expr.elementParts rest
end

end Source

open Source

def Source.Expr.callsValue : Expr → Bool
  | .call (.intrinsic name) (target :: _) _ _ =>
    match Intrinsic.ofName? name, target.literal? with
    | some .dynCall, _ => true
    | some .call, some (.str _) => false
    | some .call, _ => true
    | _, _ => false
  | _ => false

def Source.Expr.namedCall? (env : Environment) : Expr → Option (String × CallSite)
  | .call (.function name) args kind span =>
    match resolveFunction env name args.length span with
    | .ok host => some (host, ⟨args.map Expr.kind, kind⟩)
    | .error _ => none
  | .call (.intrinsic name) args kind _ =>
    match Intrinsic.ofName? name, args with
    | some .call, target :: rest =>
      match target.literal? with
      | some (.str host) => some (host, ⟨rest.map Expr.kind, kind⟩)
      | _ => none
    | none, args => (env.bindings.get? name).map (·, ⟨args.map Expr.kind, kind⟩)
    | _, _ => none
  | _ => none

/-- Whether an expression marks a value as one of a kind. -/
def Source.Expr.isWrap : Expr → Bool
  | .call (.intrinsic name) _ _ _ => Intrinsic.ofName? name = some .wrap
  | _ => false

/-! ### Source that respects kinds -/

section

variable (P : Package) (env : Environment)

/-- Whether an expression, apart from its parts, respects kinds: a function of the package is called
as it is declared, and what marks a value makes no array of it. -/
def Source.Expr.keepsKinds (e : Expr) : Bool :=
  (match e.namedCall? env with
    | some (name, site) => (P.find? name).all site.fits
    | none => true) &&
  !(e.isWrap && e.kind.isArray)

def Source.Expr.areKinded (es : List Expr) : Bool :=
  (Expr.listParts es).all (Expr.keepsKinds P env)

/-- Whether values, or the results of a single call, may be stored where these kinds are asked for.
Only functions of the package have several results; which function a value is shows when it is
called. -/
def storable (asked : List Kind) (values : List Expr) : Bool :=
  if asked.length = values.length then givesArrays asked (values.map Expr.kind)
  else
    match values with
    | [call] =>
      match call.namedCall? env with
      | some (name, _) =>
        match P.find? name with
        | some f => f.results.length = asked.length && givesArrays asked f.results
        | none => name = Host.funcall
      | none => call.callsValue
    | _ => true

end

def Source.Expr.target? : Expr → Option (String × Kind)
  | .ident name _ kind _ _ => if name = blank then none else some (name, kind)
  | .paren inner _ => inner.target?
  | _ => none

/-- Names that source cannot use: those of result variables and of temporaries. -/
def isReserved (name : String) : Bool :=
  Host.resultVars.contains name || name.toList.contains '#'

def Source.ValueSpec.targets (spec : ValueSpec) : List (String × Kind) :=
  spec.defined.map (·, spec.kind)

/-- The kind of a name among targets; temporaries have none. -/
def kindAmong (targets : List (String × Kind)) (name : String) : Kind :=
  (targets.lookup name).getD .void

/-- Whether the targets of a statement are variables of the source, each of one kind. -/
def areNamed (targets : List (String × Kind)) : Bool :=
  targets.all fun (name, kind) => kindAmong targets name = kind && !isReserved name

section

variable (P : Package) (env : Environment) (results : List Kind)

def Source.ValueSpec.isKinded (spec : ValueSpec) : Bool :=
  Expr.areKinded P env spec.values && areNamed spec.targets &&
    (spec.values.isEmpty || storable P env (spec.names.map fun _ => spec.kind) spec.values)

mutual
def Source.Stmt.isKinded : Stmt → Bool
  | .expr e _ => Expr.areKinded P env [e]
  | .decl .var specs _ => specs.all (ValueSpec.isKinded P env)
  | .decl .const _ _ | .decl .type _ _ => true
  | .assign lhs op rhs _ =>
    Expr.areKinded P env (lhs ++ rhs) && areNamed (lhs.filterMap Expr.target?) &&
      (op.binary?.isSome || storable P env (lhs.map Expr.kind) rhs)
  | .step _ target _ => Expr.areKinded P env [target] && areNamed target.target?.toList
  | .ret values _ =>
    Expr.areKinded P env values && values.length = results.length &&
      givesArrays results (values.map Expr.kind)
  | .block body _ => Stmt.areKinded body
  | .branch _ cond body els _ =>
    Expr.areKinded P env [cond] && Stmt.areKinded body && Stmt.isKinded? els
  | .loop init cond post body _ =>
    Stmt.isKinded? init && Expr.areKinded P env cond.toList && Stmt.areKinded body &&
      Stmt.isKinded? post
  | .breakLoop _ | .continueLoop _ => true

def Source.Stmt.areKinded : List Stmt → Bool
  | [] => true
  | s :: rest => s.isKinded && Stmt.areKinded rest

def Source.Stmt.isKinded? : Option Stmt → Bool
  | none => true
  | some s => s.isKinded
end

end

def Source.Package.isKinded (P : Package) (env : Environment) : Bool :=
  P.functions.all fun f => Stmt.areKinded P env f.results f.body

/-! ### What a statement asks for -/

/-- What the source says of the values that the forms of a statement store: the kinds of the
variables, and the kinds of the results that it asks for, by the variable that takes the first of
them. -/
structure Usage where
  kind : String → Kind
  asked : Option String → List Kind

namespace Usage

/-- A statement that stores nothing and asks for these results. -/
def ofResults (results : List Kind) : Usage :=
  ⟨fun _ => .void, fun _ => results⟩

def temporaries (asked : List Kind) (position : Nat) : List (String × Kind) :=
  match asked with
  | [] => []
  | kind :: rest => (temporary position, kind) :: temporaries rest (position + 1)

/-- A statement that stores `count` values where these kinds are asked for: each value into a
variable or a temporary, or else all results of a single call. -/
def store (targets : List (String × Kind)) (asked : List Kind) (count : Nat) : Usage where
  kind := kindAmong targets
  asked name? :=
    if asked.length = count then name?.toList.map (kindAmong (targets ++ temporaries asked 0))
    else asked

end Usage

def Source.ValueSpec.usage (spec : ValueSpec) : Usage :=
  .store spec.targets (spec.names.map fun _ => spec.kind)
    (if spec.values.isEmpty then spec.names.length else spec.values.length)

/-- What a statement without statements inside asks for, in a function with these results. -/
def Source.Stmt.usage (results : List Kind) : Stmt → Usage
  | .assign lhs _ rhs _ =>
    .store (lhs.filterMap Expr.target?) (lhs.map Expr.kind) rhs.length
  | .step _ target _ => .store target.target?.toList [] 0
  | .ret _ _ => .ofResults results
  | _ => .ofResults []

/-! ### Typed forms -/

/-- A form that is run for its effect, with the kinds of the variables that it stores into and of
the results that it asks for. -/
inductive TypedForm where
  | block (body : List TypedForm)
  | branch (cond : Form) (body : List TypedForm) (els : Option TypedForm)
  | loop (cond : Form) (body : List TypedForm) (post : Option TypedForm)
  | bind (asked : List Kind) (name : String) (kind : Kind) (init : Form)
  | rebind (asked : List Kind) (name : String) (kind : Kind) (value : Form)
  | set (asked : List Kind) (target index value : Form)
  | ret (asked : List Kind) (results : List Form)
  | breakLoop
  | continueLoop
  | value (asked : List Kind) (f : Form) (hf : f.isStatement = false)

mutual
def TypedForm.form : TypedForm → Form
  | .block body => .block (typedForms body)
  | .branch cond body els => .branch cond (typedForms body) (typedForm? els)
  | .loop cond body post => .loop cond (typedForms body) (typedForm? post)
  | .bind _ name _ init => .bind name init
  | .rebind _ name _ value => .rebind name value
  | .set _ target index value => .set target index value
  | .ret _ results => .ret results
  | .breakLoop => .breakLoop
  | .continueLoop => .continueLoop
  | .value _ f _ => f

def typedForms : List TypedForm → List Form
  | [] => []
  | t :: ts => t.form :: typedForms ts

def typedForm? : Option TypedForm → Option Form
  | none => none
  | some t => some t.form
end

@[simp] theorem typedForms_append (ts us : List TypedForm) :
    typedForms (ts ++ us) = typedForms ts ++ typedForms us := by
  induction ts with
  | nil => rfl
  | cons t ts ih => simp [typedForms, ih]

mutual
def Form.typed (u : Usage) : Form → TypedForm
  | .block body => .block (typedList u body)
  | .branch cond body els => .branch cond (typedList u body) (typed? u els)
  | .loop cond body post => .loop cond (typedList u body) (typed? u post)
  | .bind name init => .bind (u.asked name) name (u.kind name) init
  | .rebind name value => .rebind (u.asked name) name (u.kind name) value
  | .set target index value => .set (u.asked none) target index value
  | .ret results => .ret (u.asked none) results
  | .breakLoop => .breakLoop
  | .continueLoop => .continueLoop
  -- only forms with a value are left
  | f => if hf : f.isStatement = false then .value (u.asked none) f hf else .breakLoop

def typedList (u : Usage) : List Form → List TypedForm
  | [] => []
  | f :: fs => f.typed u :: typedList u fs

def typed? (u : Usage) : Option Form → Option TypedForm
  | none => none
  | some f => some (f.typed u)
end

mutual
theorem Form.form_typed (u : Usage) (f : Form) : (f.typed u).form = f := by
  cases f with
  | block body => simp [Form.typed, TypedForm.form, typedForms_typedList u body]
  | branch cond body els =>
      simp [Form.typed, TypedForm.form, typedForms_typedList u body, typedForm?_typed? u els]
  | loop cond body post =>
      simp [Form.typed, TypedForm.form, typedForms_typedList u body, typedForm?_typed? u post]
  | _ => rfl
termination_by structural f

theorem typedForms_typedList (u : Usage) (fs : List Form) : typedForms (typedList u fs) = fs := by
  cases fs with
  | nil => rfl
  | cons f fs => simp [typedList, typedForms, Form.form_typed u f, typedForms_typedList u fs]
termination_by structural fs

theorem typedForm?_typed? (u : Usage) (f? : Option Form) : typedForm? (typed? u f?) = f? := by
  cases f? with
  | none => rfl
  | some f => simp [typed?, typedForm?, Form.form_typed u f]
termination_by structural f?
end

def asOneTyped : List TypedForm → TypedForm
  | [t] => t
  | ts => .block ts

def withInitTyped : Option (List TypedForm) → TypedForm → TypedForm
  | none, loop => loop
  | some ts, loop => .block (ts ++ [loop])

theorem form_asOneTyped (ts : List TypedForm) : (asOneTyped ts).form = asOne (typedForms ts) := by
  match ts with
  | [] | [_] | _ :: _ :: _ => rfl

theorem form_withInitTyped (ts : Option (List TypedForm)) (loop : TypedForm) :
    (withInitTyped ts loop).form = withInit (ts.map typedForms) loop.form := by
  cases ts with
  | none => rfl
  | some ts => simp [withInitTyped, withInit, TypedForm.form, typedForms]

/-- The typed forms of the names of a declaration. Names that are declared together have a kind of
their own. -/
def TypedForm.ofSpecs (env : Environment) : List ValueSpec → Lower (List TypedForm)
  | [] => .ok []
  | spec :: rest => do
    let first ← specForms env spec
    let others ← TypedForm.ofSpecs env rest
    return typedList spec.usage first ++ others

section

variable (env : Environment) (results : List Kind)

mutual
def TypedForm.ofStmt (inLoop : Bool) : Stmt → Lower (List TypedForm)
  | .block body _ => do
    let ts ← TypedForm.ofStmts inLoop body
    return [.block ts]
  | .branch init cond body els span =>
    match init with
    | some _ => refuse .branchInit span
    | none => do
      let c ← Form.ofExpr env cond
      let ts ← TypedForm.ofStmts inLoop body
      let other ← TypedForm.ofOption inLoop els
      return [.branch c ts (other.map asOneTyped)]
  | .loop init cond post body _ => do
    let prepared ← TypedForm.ofOption inLoop init
    let c ← Form.ofCondition env cond
    let ts ← TypedForm.ofStmts true body
    let after ← TypedForm.ofOption inLoop post
    return [withInitTyped prepared (.loop c ts (after.map asOneTyped))]
  | .decl .var specs _ => TypedForm.ofSpecs env specs
  | s => do
    let fs ← Block.ofStmt env inLoop s
    return typedList (s.usage results) fs

def TypedForm.ofStmts (inLoop : Bool) : List Stmt → Lower (List TypedForm)
  | [] => .ok []
  | s :: rest => do
    let first ← TypedForm.ofStmt inLoop s
    let others ← TypedForm.ofStmts inLoop rest
    return first ++ others

def TypedForm.ofOption (inLoop : Bool) : Option Stmt → Lower (Option (List TypedForm))
  | none => .ok none
  | some s => do
    let ts ← TypedForm.ofStmt inLoop s
    return some ts
end

theorem typedForm?_asOneTyped (ts : Option (List TypedForm)) :
    typedForm? (ts.map asOneTyped) = (ts.map typedForms).map asOne := by
  cases ts with
  | none => rfl
  | some ts => exact congrArg some (form_asOneTyped ts)

theorem TypedForm.map_ofSpecs (specs : List ValueSpec) :
    typedForms <$> TypedForm.ofSpecs env specs = specsForms env specs := by
  induction specs with
  | nil => rfl
  | cons spec rest ih =>
      rw [specsForms, ← ih, TypedForm.ofSpecs]
      cases specForms env spec with
      | error e => rfl
      | ok first =>
          cases TypedForm.ofSpecs env rest with
          | error e => rfl
          | ok others =>
              refine congrArg Except.ok ?_
              rw [typedForms_append, typedForms_typedList]

mutual
/-- Without kinds, the typed forms of a statement are its forms. -/
theorem TypedForm.map_ofStmt (inLoop : Bool) (s : Stmt) :
    typedForms <$> TypedForm.ofStmt env results inLoop s = Block.ofStmt env inLoop s := by
  have helementary : ∀ s : Stmt, typedForms <$> (do
      let fs ← Block.ofStmt env inLoop s
      return typedList (s.usage results) fs : Lower (List TypedForm)) =
        Block.ofStmt env inLoop s := by
    intro s
    cases Block.ofStmt env inLoop s with
    | error e => rfl
    | ok fs => exact congrArg Except.ok (typedForms_typedList _ fs)
  cases s with
  | expr _ _ | assign _ _ _ _ | step _ _ _ | ret _ _ | breakLoop _ | continueLoop _ =>
      exact helementary _
  | decl keyword specs span =>
      cases keyword with
      | var => exact TypedForm.map_ofSpecs env specs
      | const | type => exact helementary _
  | block body span =>
      rw [Block.ofStmt, ← TypedForm.map_ofStmts inLoop body, TypedForm.ofStmt]
      cases TypedForm.ofStmts env results inLoop body with
      | error e => rfl
      | ok ts => rfl
  | branch init cond body els span =>
      cases init with
      | some _ => rfl
      | none =>
          rw [ofStmt_branch, ← TypedForm.map_ofStmts inLoop body,
            ← TypedForm.map_ofOption inLoop els, TypedForm.ofStmt]
          cases Form.ofExpr env cond with
          | error e => rfl
          | ok c =>
              cases TypedForm.ofStmts env results inLoop body with
              | error e => rfl
              | ok ts =>
                  cases TypedForm.ofOption env results inLoop els with
                  | error e => rfl
                  | ok other =>
                      refine congrArg Except.ok ?_
                      simp [typedForms, TypedForm.form, typedForm?_asOneTyped]
  | loop init cond post body span =>
      rw [ofStmt_loop, ← TypedForm.map_ofStmts true body, ← TypedForm.map_ofOption inLoop init,
        ← TypedForm.map_ofOption inLoop post, TypedForm.ofStmt]
      cases TypedForm.ofOption env results inLoop init with
      | error e => rfl
      | ok prepared =>
          cases Form.ofCondition env cond with
          | error e => rfl
          | ok c =>
              cases TypedForm.ofStmts env results true body with
              | error e => rfl
              | ok ts =>
                  cases TypedForm.ofOption env results inLoop post with
                  | error e => rfl
                  | ok after =>
                      refine congrArg Except.ok ?_
                      simp [typedForms, form_withInitTyped, TypedForm.form,
                        typedForm?_asOneTyped]
termination_by structural s

theorem TypedForm.map_ofStmts (inLoop : Bool) (ss : List Stmt) :
    typedForms <$> TypedForm.ofStmts env results inLoop ss = Block.ofStmts env inLoop ss := by
  cases ss with
  | nil => rfl
  | cons s rest =>
      rw [Block.ofStmts, ← TypedForm.map_ofStmt inLoop s, ← TypedForm.map_ofStmts inLoop rest,
        TypedForm.ofStmts]
      cases TypedForm.ofStmt env results inLoop s with
      | error e => rfl
      | ok ts =>
          cases TypedForm.ofStmts env results inLoop rest with
          | error e => rfl
          | ok us => exact congrArg Except.ok (typedForms_append ts us)
termination_by structural ss

theorem TypedForm.map_ofOption (inLoop : Bool) (s? : Option Stmt) :
    Option.map typedForms <$> TypedForm.ofOption env results inLoop s? =
      Block.ofOption env inLoop s? := by
  cases s? with
  | none => rfl
  | some s =>
      rw [Block.ofOption, ← TypedForm.map_ofStmt inLoop s, TypedForm.ofOption]
      cases TypedForm.ofStmt env results inLoop s with
      | error e => rfl
      | ok ts => rfl
termination_by structural s?
end

end

end StackCompiler
