import StackCompiler.Binary64
import StackCompiler.Span
import StackCompiler.Source.Kind
import StackCompiler.Source.Operator

/-!
Source expressions. Every expression knows its static kind, and an identifier that names a constant
carries the constant's value.
-/

namespace StackCompiler.Source

inductive Literal where
  | bool (value : Bool)
  | int (value : Int64)
  | float (value : Binary64)
  | char (value : Char)
  | str (value : String)
  deriving DecidableEq, Inhabited

namespace Literal

def kind : Literal → Kind
  | bool _ => .bool
  | int _ => .int
  | float _ => .float
  | char _ => .char
  | str _ => .string

def str? : Literal → Option String
  | str s => some s
  | _ => none

/-- Equality of values; floating point numbers are compared as numbers. -/
def sameValue : Literal → Literal → Bool
  | float x, float y => x.numEq y
  | v, w => v == w

def sameOptional : Option Literal → Option Literal → Bool
  | none, none => true
  | some v, some w => v.sameValue w
  | _, _ => false

end Literal

/-- What a call by name invokes: a function of the program, or one of the host's intrinsics. -/
inductive Callee where
  | function (name : String)
  | intrinsic (name : String)
  deriving DecidableEq, Inhabited

/-- A source expression. The elements of an array literal may carry the index they are stored at. -/
inductive Expr where
  | lit (value : Literal) (kind : Kind) (span : Span)
  | ident (name : String) (defines : Bool) (kind : Kind) (value : Option Literal) (span : Span)
  | binary (op : BinaryOp) (left right : Expr) (kind : Kind) (span : Span)
  | unary (op : UnaryOp) (operand : Expr) (kind : Kind) (span : Span)
  | call (callee : Callee) (args : List Expr) (kind : Kind) (span : Span)
  | method (receiver : Expr) (name : String) (args : List Expr) (kind : Kind) (span : Span)
  | index (base at' : Expr) (kind : Kind) (span : Span)
  | array (elems : List (Option Int64 × Expr)) (kind : Kind) (span : Span)
  | paren (inner : Expr) (span : Span)
  deriving Inhabited

/-- The identifier that stands for no variable. -/
def blank : String := "_"

namespace Expr

def span : Expr → Span
  | lit _ _ s | ident _ _ _ _ s | binary _ _ _ _ s | unary _ _ _ s | call _ _ _ s
  | method _ _ _ _ s | index _ _ _ s | array _ _ s | paren _ s => s

/-- The static kind; parentheses have that of what they enclose. -/
def kind : Expr → Kind
  | lit _ k _ | ident _ _ k _ _ | binary _ _ _ k _ | unary _ _ k _ | call _ _ k _
  | method _ _ _ k _ | index _ _ k _ | array _ k _ => k
  | paren inner _ => inner.kind

/-- The value of an expression that is a literal or names a constant. -/
def literal? : Expr → Option Literal
  | lit v _ _ => some v
  | ident _ _ _ v _ => v
  | paren inner _ => inner.literal?
  | _ => none

def unparen : Expr → Expr
  | paren inner _ => inner.unparen
  | e => e

def isCall : Expr → Bool
  | call .. | method .. => true
  | _ => false

/-- Whether evaluation yields an array that nothing else refers to. -/
def isFresh (e : Expr) : Bool :=
  match e.unparen with
  | call .. | method .. | array .. => true
  | _ => false

mutual
def containsCall : Expr → Bool
  | lit .. | ident .. => false
  | call .. | method .. => true
  | binary _ left right _ _ => left.containsCall || right.containsCall
  | unary _ operand _ _ => operand.containsCall
  | index base at' _ _ => base.containsCall || at'.containsCall
  | array elems _ _ => elementsContainCall elems
  | paren inner _ => inner.containsCall

def elementsContainCall : List (Option Int64 × Expr) → Bool
  | [] => false
  | (_, value) :: rest => value.containsCall || elementsContainCall rest
end

mutual
/-- Equality of expressions, spans and kinds included; literals are compared by value. -/
def same : Expr → Expr → Bool
  | lit v k s, lit v' k' s' => v.sameValue v' && k == k' && s == s'
  | ident n d k v s, ident n' d' k' v' s' =>
    n == n' && d == d' && k == k' && Literal.sameOptional v v' && s == s'
  | binary op l r k s, binary op' l' r' k' s' =>
    op == op' && l.same l' && r.same r' && k == k' && s == s'
  | unary op e k s, unary op' e' k' s' => op == op' && e.same e' && k == k' && s == s'
  | call c args k s, call c' args' k' s' => c == c' && sameArgs args args' && k == k' && s == s'
  | method e n args k s, method e' n' args' k' s' =>
    e.same e' && n == n' && sameArgs args args' && k == k' && s == s'
  | index b i k s, index b' i' k' s' => b.same b' && i.same i' && k == k' && s == s'
  | array es k s, array es' k' s' => sameElements es es' && k == k' && s == s'
  | paren e s, paren e' s' => e.same e' && s == s'
  | _, _ => false

def sameArgs : List Expr → List Expr → Bool
  | [], [] => true
  | e :: es, e' :: es' => e.same e' && sameArgs es es'
  | _, _ => false

def sameElements : List (Option Int64 × Expr) → List (Option Int64 × Expr) → Bool
  | [], [] => true
  | (i, e) :: es, (i', e') :: es' => i == i' && e.same e' && sameElements es es'
  | _, _ => false
end

/-- Induction on an expression, with a hypothesis for each argument of a call and for each element
of an array literal. -/
@[elab_as_elim]
theorem induction {motive : Expr → Prop}
    (lit : ∀ v kind span, motive (.lit v kind span))
    (ident : ∀ name defines kind v span, motive (.ident name defines kind v span))
    (binary : ∀ op left right kind span, motive left → motive right →
      motive (.binary op left right kind span))
    (unary : ∀ op operand kind span, motive operand → motive (.unary op operand kind span))
    (call : ∀ callee args kind span, (∀ e ∈ args, motive e) → motive (.call callee args kind span))
    (method : ∀ receiver name args kind span, motive receiver → (∀ e ∈ args, motive e) →
      motive (.method receiver name args kind span))
    (index : ∀ base at' kind span, motive base → motive at' → motive (.index base at' kind span))
    (array : ∀ elems kind span, (∀ elem ∈ elems, motive elem.2) → motive (.array elems kind span))
    (paren : ∀ inner span, motive inner → motive (.paren inner span)) (e : Expr) : motive e := by
  refine @Expr.rec motive (fun es => ∀ e ∈ es, motive e)
    (fun elems => ∀ elem ∈ elems, motive elem.2) (fun elem => motive elem.2)
    lit ident binary unary call method index array paren ?_ ?_ ?_ ?_ ?_ e
  · simp
  · intro e es he hes
    exact List.forall_mem_cons.2 ⟨he, hes⟩
  · simp
  · intro elem elems helem helems
    exact List.forall_mem_cons.2 ⟨helem, helems⟩
  · intro key e he
    exact he

end Expr

end StackCompiler.Source
