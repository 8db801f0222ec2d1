import StackCompiler.Diagnostic

/-!
Forms of source expressions. This is where static kinds are resolved: which family an operator works
on, where an array is copied, what an array literal holds, and what a call stands for.
-/

namespace StackCompiler

open Source

abbrev Lower := Except CompileError

def refuse {α : Type} (what : Unsupported) (span : Span) : Lower α :=
  .error (.unsupported what span)

/-- The form of a literal used at a kind: an integer becomes a floating point number and a character
an integer where the kind asks for one. -/
def Form.ofLiteral : Literal → Kind → Form
  | .int v, .scalar .float => .float (.ofInt64 v)
  | .char c, .scalar .int => .int (.ofNat c.toNat)
  | .bool v, _ => .bool v
  | .int v, _ => .int v
  | .float x, _ => .float x
  | .char c, _ => .char c
  | .str s, _ => .str s

/-- What a variable or an element of a scalar kind holds before anything is stored. -/
def Source.Scalar.zero : Scalar → Form
  | .int => .int 0
  | .float => .float .zero
  | .string => .str ""
  | .char => .char '\x00'
  | .bool | .symbol | .object => .bool false

def Form.zeroArray (elem : Scalar) (length : Nat) : Form :=
  .call Host.makeVector [.int (.ofNat length), elem.zero]

/-- The form of a stored value: an array that something else may refer to is copied. -/
def asStored (e : Expr) (f : Form) : Form :=
  if e.kind.isArray && !e.isFresh then .copy f else f

/-- Operators that stand for an operation on operands of one family. -/
def Source.BinaryOp.opKind? : BinaryOp → Option OpKind
  | .add => some .add
  | .sub => some .sub
  | .mul => some .mul
  | .div => some .div
  | .rem => some .rem
  | .bitAnd => some .bitAnd
  | .bitOr => some .bitOr
  | .bitXor => some .bitXor
  | .eq => some .eq
  | .notEq => some .notEq
  | .less => some .less
  | .lessEq => some .lessEq
  | .greater => some .greater
  | .greaterEq => some .greaterEq
  | .andNot | .shl | .shr | .logicalAnd | .logicalOr => none

/-- Applies an operator to operands of a family. A chain of one operator that repeats is one
operation on all operands. -/
def Form.applyOp (kind : OpKind) (family : Family) (left right : Form) : Form :=
  match left with
  | .op kind' family' args =>
    if kind.isVariadic && kind' = kind && family' = family then .op kind family (args ++ [right])
    else .op kind family [left, right]
  | left => .op kind family [left, right]

/-- Compares operands without a family, which is possible only for identity. -/
def Form.ofIdentityTest (op : BinaryOp) (kind : OpKind) (left right : Form) (span : Span) :
    Lower Form :=
  match kind with
  | .eq => .ok (.call Host.eq [left, right])
  | .notEq => .ok (.not (.call Host.eq [left, right]))
  | _ => refuse (.operatorWithoutFamily op) span

def Form.ofBinary (op : BinaryOp) (family? : Option Family) (left right : Form) (span : Span) :
    Lower Form :=
  match op with
  | .logicalAnd => .ok (.and left right)
  | .logicalOr => .ok (.or left right)
  | other =>
    match other.opKind? with
    | none => refuse (.operator other) span
    | some kind =>
      match family? with
      | some family => .ok (applyOp kind family left right)
      | none => ofIdentityTest other kind left right span

/-- The operation of a sign before an operand of a family, where it is defined. -/
def unaryKind? : UnaryOp → Option Family → Option (UnaryKind × Family)
  | .neg, some .int => some (.neg, .int)
  | .neg, some .float => some (.neg, .float)
  | .bitNot, some .int => some (.bitNot, .int)
  | _, _ => none

/-- Whether the indices are zero, one, two and so on. -/
def countsUp (stores : List (Int64 × Form)) : Bool :=
  stores.zipIdx.all fun ((index, _), position) => index.toInt == position

/-- The length of an array literal: the declared one, or enough for the greatest index. -/
def literalLength (declared : Option Nat) (stores : List (Int64 × Form)) : Nat :=
  match declared with
  | some length => length
  | none => stores.foldl (fun length (index, _) => max length (index.toInt.toNat + 1)) 0

/-- The form of an array literal: a dense array if every element is given in order, and otherwise an
array of zeros into which the given elements are stored. -/
def Form.ofStores (elem : Scalar) (declared : Option Nat) (stores : List (Int64 × Form)) : Form :=
  let length := literalLength declared stores
  if length = stores.length && countsUp stores then .array (stores.map (·.2))
  else .sparseArray (zeroArray elem length) stores

def indexAllowed (declared : Option Nat) (index : Int64) : Bool :=
  0 ≤ index.toInt && match declared with
    | some length => index.toInt < length
    | none => true

/-- The host function that a function name stands for: two builtin names take one argument, and
every other function must be declared. -/
def resolveFunction (env : Environment) (name : String) (args : Nat) (span : Span) :
    Lower String :=
  if name = "panic" then
    if args = 1 then .ok Host.raise else refuse (.builtinArity name args) span
  else if name = "len" then
    if args = 1 then .ok Host.length else refuse (.builtinArity name args) span
  else if env.functions.contains name then .ok name
  else .error (.unresolved name span)

/-- Intrinsics with a meaning of their own. -/
inductive Intrinsic where
  /-- Marks a value as one of a kind, without changing it. -/
  | wrap
  /-- Calls a function value. -/
  | dynCall
  /-- Calls a function by its name, which may be known or computed. -/
  | call
  /-- Makes a symbol of a name, which may be known or computed. -/
  | intern
  deriving DecidableEq

def Intrinsic.ofName? : String → Option Intrinsic
  | "Int" | "Float" | "Str" | "Symbol" | "Bool" => some .wrap
  | "DynCall" => some .dynCall
  | "Call" => some .call
  | "Intern" => some .intern
  | _ => none

/-- The host function that a method of host objects stands for. -/
def coercion? : String → Option String
  | "Bool" => some Host.coerceBool
  | "Int" => some Host.coerceInt
  | "Float" => some Host.coerceFloat
  | "String" => some Host.coerceString
  | "Symbol" => some Host.coerceSymbol
  | _ => none

def Form.ofSymbolName (name : String) : Form :=
  .symbol (if name = "" then Host.emptySymbol else name)

mutual
def Form.ofExpr (env : Environment) : Expr → Lower Form
  | .lit v kind _ => .ok (ofLiteral v kind)
  | .ident _ _ kind (some v) _ => .ok (ofLiteral v kind)
  | .ident name _ _ none span =>
    if name = blank then refuse .blankValue span else .ok (.var name)
  | .binary sign left right _ span => do
    let l ← ofExpr env left
    let r ← ofExpr env right
    ofBinary sign (left.kind.family? <|> right.kind.family?) l r span
  | .unary .plus operand _ _ => ofExpr env operand
  | .unary .not operand _ _ => do
    let f ← ofExpr env operand
    return .not f
  | .unary sign operand _ span =>
    match sign, operand.literal? with
    | .neg, some (.int v) =>
      if v = Int64.minValue then refuse .constantOverflow span else .ok (.int (-v))
    | .neg, some (.float x) => .ok (.float (-x))
    | sign, _ =>
      match unaryKind? sign operand.kind.family? with
      | none => refuse (.unaryOperand sign) span
      | some (kind, family) => do
        let f ← ofExpr env operand
        return .unary kind family f
  | .call callee args _ span =>
    match args.find? (·.kind.isTuple) with
    | some arg => refuse .tupleArgument arg.span
    | none =>
      match callee with
      | .function name => do
        let host ← resolveFunction env name args.length span
        let fs ← ofStoredList env args
        return .call host fs
      | .intrinsic name =>
        match Intrinsic.ofName? name, args with
        | some .wrap, [arg] => ofExpr env arg
        | some .dynCall, target :: rest => do
          let f ← ofExpr env target
          let fs ← ofStoredList env rest
          return .dynCall f fs
        | some .call, target :: rest =>
          match target.literal? with
          | some (.str host) => do
            let fs ← ofStoredList env rest
            return .call host fs
          | _ => do
            let f ← ofExpr env target
            let fs ← ofStoredList env rest
            return .dynCall f fs
        | some .intern, [arg] =>
          match arg.literal? with
          | some (.str s) => .ok (ofSymbolName s)
          | _ => do
            let f ← ofExpr env arg
            return .call Host.intern [f]
        | some _, args => refuse (.intrinsicArity name args.length) span
        | none, args =>
          match env.bindings.get? name with
          | none => .error (.unresolved name span)
          | some host => do
            let fs ← ofStoredList env args
            return .call host fs
  | .method receiver name args _ span =>
    match args.find? (·.kind.isTuple) with
    | some arg => refuse .tupleArgument arg.span
    | none =>
      match coercion? name with
      | none => .error (.unresolved name span)
      | some host =>
        if args.isEmpty then do
          let f ← ofExpr env receiver
          return .call host [f]
        else refuse (.coercionArguments name) span
  | .index base at' _ _ => do
    let b ← ofExpr env base
    let i ← ofExpr env at'
    return .get b i
  | .array elems kind span =>
    match kind with
    | .array elem length => do
      let stores ← ofElements env (some length) 0 elems
      return ofStores elem (some length) stores
    | .slice elem => do
      let stores ← ofElements env none 0 elems
      return ofStores elem none stores
    | _ => refuse .literalOfNonArray span
  | .paren inner _ => ofExpr env inner

/-- The forms of expressions whose values are stored somewhere. -/
def Form.ofStoredList (env : Environment) : List Expr → Lower (List Form)
  | [] => .ok []
  | e :: es => do
    let f ← ofExpr env e
    let fs ← ofStoredList env es
    return asStored e f :: fs

/-- The elements of an array literal with their indices. An element without an index follows the one
before it. -/
def Form.ofElements (env : Environment) (declared : Option Nat) (next : Int64) :
    List (Option Int64 × Expr) → Lower (List (Int64 × Form))
  | [] => .ok []
  | (key, e) :: rest =>
    let index := key.getD next
    if indexAllowed declared index then do
      let f ← ofExpr env e
      let stores ← ofElements env declared (index + 1) rest
      return (index, asStored e f) :: stores
    else refuse (.literalIndex index) e.span
end

def Form.ofStored (env : Environment) (e : Expr) : Lower Form := do
  let f ← ofExpr env e
  return asStored e f

end StackCompiler
