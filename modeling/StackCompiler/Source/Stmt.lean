import StackCompiler.Source.Expr

/-!
Source statements, functions and packages.
-/

namespace StackCompiler.Source

inductive DeclKind where
  | var | const | type
  deriving DecidableEq, Inhabited, Repr

/-- Names declared together, with their kind and the values they start with. Without values they
start as zero. -/
structure ValueSpec where
  names : List String
  kind : Kind
  values : List Expr
  span : Span
  deriving Inhabited

inductive Stmt where
  | expr (e : Expr) (span : Span)
  | decl (keyword : DeclKind) (specs : List ValueSpec) (span : Span)
  | assign (targets : List Expr) (op : AssignOp) (values : List Expr) (span : Span)
  | step (direction : Step) (target : Expr) (span : Span)
  | ret (results : List Expr) (span : Span)
  | block (body : List Stmt) (span : Span)
  | branch (init : Option Stmt) (cond : Expr) (body : List Stmt) (els : Option Stmt) (span : Span)
  | loop (init : Option Stmt) (cond : Option Expr) (post : Option Stmt) (body : List Stmt)
      (span : Span)
  | breakLoop (span : Span)
  | continueLoop (span : Span)
  deriving Inhabited

def Stmt.span : Stmt → Span
  | expr _ s | decl _ _ s | assign _ _ _ s | step _ _ s | ret _ s | block _ s
  | branch _ _ _ _ s | loop _ _ _ _ s | breakLoop s | continueLoop s => s

structure Param where
  name : String
  kind : Kind
  deriving DecidableEq, Inhabited

/-- A function, under the name by which the host knows it. -/
structure Function where
  name : String
  params : List Param
  results : List Kind
  body : List Stmt
  deriving Inhabited

structure Package where
  name : String
  functions : List Function
  deriving Inhabited

def Package.find? (p : Package) (name : String) : Option Function :=
  p.functions.find? (·.name == name)

end StackCompiler.Source
