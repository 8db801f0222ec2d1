import StackCompiler.Source.Stmt

/-!
Expressions built from their parts alone. The kind of an operation follows from its operands, and
operations and index expressions cover the source text of both operands; all else stands at no
place until it is given one.
-/

namespace StackCompiler.Source.Expr

def ofLiteral (v : Literal) : Expr :=
  .lit v v.kind {}

def ofName (name : String) (kind : Kind) : Expr :=
  .ident name false kind none {}

/-- The occurrence of a name that defines the variable. -/
def ofDefinition (name : String) (kind : Kind) : Expr :=
  .ident name true kind none {}

def ofConstant (name : String) (kind : Kind) (value : Literal) : Expr :=
  .ident name false kind (some value) {}

/-- An operation on two operands: comparisons and connectives yield a truth value, all others have
the kind of the left operand. -/
def ofBinary (op : BinaryOp) (left right : Expr) : Expr :=
  .binary op left right (if op.yieldsBool then .bool else left.kind) (left.span.cover right.span)

def ofUnary (op : UnaryOp) (operand : Expr) : Expr :=
  .unary op operand (if op = .not then .bool else operand.kind) {}

def ofIndex (base at' : Expr) (kind : Kind) : Expr :=
  .index base at' kind (base.span.cover at'.span)

def withSpan (e : Expr) (s : Span) : Expr :=
  match e with
  | lit v k _ => lit v k s
  | ident n d k v _ => ident n d k v s
  | binary op l r k _ => binary op l r k s
  | unary op o k _ => unary op o k s
  | call c args k _ => call c args k s
  | method r n args k _ => method r n args k s
  | index b i k _ => index b i k s
  | array es k _ => array es k s
  | paren inner _ => paren inner s

/-- The expression with another kind; parentheses have none of their own. -/
def withKind (e : Expr) (k : Kind) : Expr :=
  match e with
  | lit v _ s => lit v k s
  | ident n d _ v s => ident n d k v s
  | binary op l r _ s => binary op l r k s
  | unary op o _ s => unary op o k s
  | call c args _ s => call c args k s
  | method r n args _ s => method r n args k s
  | index b i _ s => index b i k s
  | array es _ s => array es k s
  | paren inner s => paren inner s

end StackCompiler.Source.Expr
