import StackCompiler.Source.Stmt

/-!
Which variables source refers to and which it defines. A statement is scoped where every variable
that it reads or assigns has been defined before it, in the same block or in one around it. Beside
this stands what source must not do after the body of a loop.
-/

namespace StackCompiler.Source

/-! ### Scopes -/

abbrev Scope := String → Bool

namespace Scope

def bind (names : List String) (visible : Scope) : Scope :=
  fun name => names.contains name || visible name

def everything : Scope := fun _ => true

variable {names : List String} {visible : Scope} {name : String}

theorem bind_eq_true : visible.bind names name = true ↔ name ∈ names ∨ visible name = true := by
  simp [bind]

@[simp] theorem bind_nil (visible : Scope) : visible.bind [] = visible := by
  funext name
  simp [bind]

theorem bind_append (names names' : List String) (visible : Scope) :
    visible.bind (names' ++ names) = (visible.bind names).bind names' := by
  funext name
  simp [bind, Bool.or_assoc]

@[simp] theorem bind_everything (names : List String) : everything.bind names = everything := by
  funext name
  simp [bind, everything]

end Scope

/-! ### Expressions -/

mutual
/-- The variables that an expression reads. Neither the blank identifier nor the name of a constant
is one. -/
def Expr.reads : Expr → List String
  | .lit _ _ _ => []
  | .ident name _ _ value _ => if value.isNone && name ≠ blank then [name] else []
  | .binary _ left right _ _ => left.reads ++ right.reads
  | .unary _ operand _ _ => operand.reads
  | .call _ args _ _ => Expr.readsAll args
  | .method receiver _ args _ _ => receiver.reads ++ Expr.readsAll args
  | .index base at' _ _ => base.reads ++ at'.reads
  | .array elems _ _ => Expr.elementReads elems
  | .paren inner _ => inner.reads

def Expr.readsAll : List Expr → List String
  | [] => []
  | e :: es => e.reads ++ Expr.readsAll es

def Expr.elementReads : List (Option Int64 × Expr) → List String
  | [] => []
  | (_, e) :: rest => e.reads ++ Expr.elementReads rest
end

namespace Expr

def isScoped (visible : Scope) (e : Expr) : Bool :=
  e.reads.all visible

def areScoped (visible : Scope) (es : List Expr) : Bool :=
  (readsAll es).all visible

def defined : Expr → List String
  | .ident name true _ _ _ => if name = blank then [] else [name]
  | .paren inner _ => inner.defined
  | _ => []

/-- Whether the target of an assignment is new, or a variable in scope, or an element chosen by
variables in scope. -/
def isScopedTarget (visible : Scope) : Expr → Bool
  | .ident name defines _ _ _ => defines || name = blank || visible name
  | .index base at' _ _ => base.isScoped visible && at'.isScoped visible
  | .paren inner _ => inner.isScopedTarget visible
  | _ => true

end Expr

/-! ### Statements -/

namespace ValueSpec

def defined (spec : ValueSpec) : List String :=
  spec.names.filter (· ≠ blank)

def definedAll (specs : List ValueSpec) : List String :=
  specs.flatMap defined

/-- Whether declarations are scoped, each in the scope of those before it. -/
def areScoped (visible : Scope) : List ValueSpec → Bool
  | [] => true
  | spec :: rest =>
    Expr.areScoped visible spec.values && areScoped (visible.bind spec.defined) rest

end ValueSpec

/-- The variables that a statement defines in the block it stands in. -/
def Stmt.defined : Stmt → List String
  | .decl .var specs _ => ValueSpec.definedAll specs
  | .assign targets _ _ _ => targets.flatMap Expr.defined
  | .step _ target _ => target.defined
  | _ => []

def Stmt.definedOption : Option Stmt → List String
  | none => []
  | some s => s.defined

mutual
/-- Whether every variable that a statement reads or assigns is in scope there. A compound
assignment reads its target, too. -/
def Stmt.isScoped (visible : Scope) : Stmt → Bool
  | .expr e _ => e.isScoped visible
  | .decl .var specs _ => ValueSpec.areScoped visible specs
  | .decl .const _ _ | .decl .type _ _ => true
  | .assign targets op values _ =>
    targets.all (·.isScopedTarget visible) && Expr.areScoped visible values &&
      (op.binary?.isNone || Expr.areScoped visible targets)
  | .step _ target _ => target.isScopedTarget visible && target.isScoped visible
  | .ret results _ => Expr.areScoped visible results
  | .block body _ => Stmt.areScoped visible body
  | .branch init cond body els _ =>
    Stmt.isScopedOption visible init && cond.isScoped (visible.bind (Stmt.definedOption init)) &&
      Stmt.areScoped (visible.bind (Stmt.definedOption init)) body &&
        Stmt.isScopedOption (visible.bind (Stmt.definedOption init)) els
  | .loop init cond post body _ =>
    Stmt.isScopedOption visible init &&
      cond.all (·.isScoped (visible.bind (Stmt.definedOption init))) &&
        Stmt.areScoped (visible.bind (Stmt.definedOption init)) body &&
          Stmt.isScopedOption (visible.bind (Stmt.definedOption init)) post
  | .breakLoop _ | .continueLoop _ => true

def Stmt.areScoped (visible : Scope) : List Stmt → Bool
  | [] => true
  | s :: rest => s.isScoped visible && Stmt.areScoped (visible.bind s.defined) rest

def Stmt.isScopedOption (visible : Scope) : Option Stmt → Bool
  | none => true
  | some s => s.isScoped visible
end

/-- Whether every variable that the function refers to is a parameter or defined before. -/
def Function.isScoped (f : Function) : Bool :=
  Stmt.areScoped (fun name => (f.params.map (·.name)).contains name) f.body

/-! ### Where everything is in scope -/

theorem Expr.isScoped_everything (e : Expr) : e.isScoped .everything = true :=
  List.all_eq_true.2 fun _ _ => rfl

theorem Expr.areScoped_everything (es : List Expr) : Expr.areScoped .everything es = true :=
  List.all_eq_true.2 fun _ _ => rfl

theorem Expr.isScopedTarget_everything (e : Expr) : e.isScopedTarget .everything = true := by
  match e with
  | .ident .. => simp [isScopedTarget, Scope.everything]
  | .index .. => simp [isScopedTarget, isScoped_everything]
  | .paren inner _ => exact isScopedTarget_everything inner
  | .lit .. | .binary .. | .unary .. | .call .. | .method .. | .array .. => rfl

theorem ValueSpec.areScoped_everything (specs : List ValueSpec) :
    areScoped .everything specs = true := by
  induction specs with
  | nil => rfl
  | cons spec rest ih => simp [areScoped, Expr.areScoped_everything, ih]

mutual
theorem Stmt.isScoped_everything (s : Stmt) : s.isScoped .everything = true := by
  cases s with
  | decl keyword specs span =>
      cases keyword with
      | var => exact ValueSpec.areScoped_everything specs
      | const | type => rfl
  | branch init cond body els span =>
      simp [Stmt.isScoped, isScopedOption_everything init, Expr.isScoped_everything,
        areScoped_everything body, isScopedOption_everything els]
  | loop init cond post body span =>
      simp [Stmt.isScoped, isScopedOption_everything init, Expr.isScoped_everything,
        areScoped_everything body, isScopedOption_everything post]
  | block body span => exact areScoped_everything body
  | expr _ _ | assign _ _ _ _ | step _ _ _ | ret _ _ | breakLoop _ | continueLoop _ =>
      simp [Stmt.isScoped, Expr.isScoped_everything, Expr.areScoped_everything,
        Expr.isScopedTarget_everything]

theorem Stmt.areScoped_everything (ss : List Stmt) : Stmt.areScoped .everything ss = true := by
  match ss with
  | [] => rfl
  | s :: rest => simp [Stmt.areScoped, isScoped_everything s, areScoped_everything rest]

theorem Stmt.isScopedOption_everything (s? : Option Stmt) :
    Stmt.isScopedOption .everything s? = true := by
  match s? with
  | none => rfl
  | some s => exact isScoped_everything s
end

/-! ### Jumps -/

mutual
/-- Whether a jump out of a loop occurs in the statement. -/
def Stmt.jumps : Stmt → Bool
  | .breakLoop _ | .continueLoop _ => true
  | .block body _ => Stmt.jumpsAny body
  | .branch init _ body els _ =>
    Stmt.jumpsOption init || Stmt.jumpsAny body || Stmt.jumpsOption els
  | .loop init _ post body _ =>
    Stmt.jumpsOption init || Stmt.jumpsOption post || Stmt.jumpsAny body
  | .expr _ _ | .decl _ _ _ | .assign _ _ _ _ | .step _ _ _ | .ret _ _ => false

def Stmt.jumpsAny : List Stmt → Bool
  | [] => false
  | s :: rest => s.jumps || Stmt.jumpsAny rest

def Stmt.jumpsOption : Option Stmt → Bool
  | none => false
  | some s => s.jumps
end

mutual
/-- Whether no loop in the statement jumps in what it does after its body. -/
def Stmt.postsStay : Stmt → Bool
  | .block body _ => Stmt.postsStayAll body
  | .branch init _ body els _ =>
    Stmt.postsStayOption init && Stmt.postsStayAll body && Stmt.postsStayOption els
  | .loop init _ post body _ =>
    Stmt.postsStayOption init && Stmt.postsStayAll body && !Stmt.jumpsOption post &&
      Stmt.postsStayOption post
  | .expr _ _ | .decl _ _ _ | .assign _ _ _ _ | .step _ _ _ | .ret _ _ | .breakLoop _
  | .continueLoop _ => true

def Stmt.postsStayAll : List Stmt → Bool
  | [] => true
  | s :: rest => s.postsStay && Stmt.postsStayAll rest

def Stmt.postsStayOption : Option Stmt → Bool
  | none => true
  | some s => s.postsStay
end

end StackCompiler.Source
