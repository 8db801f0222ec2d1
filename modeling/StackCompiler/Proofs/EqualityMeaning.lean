import StackCompiler.Proofs.Chains
import StackCompiler.Proofs.ExprMeaning
import StackCompiler.Proofs.ValueSemantics
import StackCompiler.Source.Build

/-!
What equality means. Values of the source are told apart by what they are, wherever the host keeps
them: numbers by value, strings by their characters, arrays by their elements. The form of a
comparison is chosen by the family of its operands alone, and all operands without a family are
compared by identity. `equality_meaning` shows that this is equality for truth values and symbols,
as it is for numbers and strings, and that arrays are equal only to themselves.
-/

namespace StackCompiler

open Source

/-! ### Equality in the source -/

namespace Source

/-- What a value of a scalar kind is. A character is its number. -/
inductive ScalarDatum where
  | bool (value : Bool)
  | int (value : Int64)
  | float (value : Binary64)
  | string (value : String)
  | symbol (name : String)

namespace ScalarDatum

def hasKind : ScalarDatum → Scalar → Bool
  | .bool _, s => s = .bool
  | .int _, s => s = .int || s = .char
  | .float _, s => s = .float
  | .string _, s => s = .string
  | .symbol _, s => s = .symbol

/-- Equality of scalars; floating point numbers are compared as numbers. -/
def equal : ScalarDatum → ScalarDatum → Bool
  | .bool u, .bool v => u = v
  | .int u, .int v => u = v
  | .float x, .float y => x.numEq y
  | .string u, .string v => u = v
  | .symbol u, .symbol v => u = v
  | _, _ => false

/-- Two scalars of one kind are of one sort. -/
theorem sort_of_hasKind {a b : ScalarDatum} {s : Scalar} (ha : a.hasKind s = true)
    (hb : b.hasKind s = true) :
    (s = .bool ∧ ∃ u v, a = .bool u ∧ b = .bool v) ∨
      (s = .symbol ∧ ∃ u v, a = .symbol u ∧ b = .symbol v) ∨
      (s.family? = some .int ∧ ∃ u v, a = .int u ∧ b = .int v) ∨
      (s.family? = some .float ∧ ∃ u v, a = .float u ∧ b = .float v) ∨
      (s.family? = some .string ∧ ∃ u v, a = .string u ∧ b = .string v) := by
  cases a <;> cases s <;> cases ha <;> cases b <;> cases hb <;> simp [Scalar.family?]

end ScalarDatum

inductive Datum where
  | scalar (value : ScalarDatum)
  | array (elems : List ScalarDatum)

namespace Datum

def hasKind : Datum → Kind → Bool
  | .scalar a, .scalar s => a.hasKind s
  | .array elems, .array elem length => elems.length = length && elems.all (·.hasKind elem)
  | _, _ => false

/-- Equality of values; arrays are compared element by element. -/
def equal : Datum → Datum → Bool
  | .scalar a, .scalar b => a.equal b
  | .array as, .array bs => as.isEqv bs ScalarDatum.equal
  | _, _ => false

end Datum

def BinaryOp.answer (sign : BinaryOp) (equal : Bool) : Bool :=
  if sign = .notEq then !equal else equal

end Source

/-! ### Hosts -/

def Runtime.truth (R : Runtime) (b : Bool) : R.Value :=
  R.constant (.symbol (if b then Host.truth else Host.nil))

/-- A host that compares numbers and strings by value, and symbols and vectors by identity. It knows
which of its values represent which scalars, and the elements of its vectors. -/
structure EqualityHost (R : Runtime) where
  represents : R.Heap → R.Value → ScalarDatum → Prop
  contents : R.Heap → R.Value → Option (List R.Value)
  same : R.Value → R.Value → Bool
  same_iff : ∀ {x y}, same x y = true ↔ x = y
  eq_truth : ∀ {heap x b}, represents heap x (.bool b) → x = R.truth b
  eq_symbol : ∀ {heap x name}, represents heap x (.symbol name) → x = R.constant (.symbol name)
  numEq_int : ∀ {s x y a b}, represents s.heap x (.int a) → represents s.heap y (.int b) →
    R.binary .numEq x y s = .ok (R.truth (a = b)) s
  numEq_float : ∀ {s x y a b}, represents s.heap x (.float a) → represents s.heap y (.float b) →
    R.binary .numEq x y s = .ok (R.truth (a.numEq b)) s
  stringEq : ∀ {s x y a b}, represents s.heap x (.string a) → represents s.heap y (.string b) →
    R.binary .stringEq x y s = .ok (R.truth (a = b)) s
  eq_symbols : ∀ a b s, R.call (R.constant (.symbol Host.eq))
    [R.constant (.symbol a), R.constant (.symbol b)] s = .ok (R.truth (a = b)) s
  eq_vectors : ∀ {s x y xs ys}, contents s.heap x = some xs → contents s.heap y = some ys →
    R.call (R.constant (.symbol Host.eq)) [x, y] s = .ok (R.truth (same x y)) s
  not_truth : ∀ b s, R.unary .not (R.truth b) s = .ok (R.truth !b) s

namespace EqualityHost

variable {R : Runtime} (H : EqualityHost R)

def Stands (heap : R.Heap) (x : R.Value) : Datum → Prop
  | .scalar a => H.represents heap x a
  | .array as => ∃ xs, H.contents heap x = some xs ∧ List.Forall₂ (H.represents heap) xs as

/-- A form compares two others: it evaluates each once, from left to right, stops where one of them
stops, and otherwise answers for what their values stand for. Comparing changes nothing. -/
structure Compares (ρ : Env R) (kind : Kind) (f g h : Form)
    (answer : R.Value → R.Value → Datum → Datum → Bool) : Prop where
  left : ∀ {w e w'}, evalValue R ρ g w = .error e w' → evalValue R ρ f w = .error e w'
  right : ∀ {w x w₁ e w'}, evalValue R ρ g w = .ok x w₁ → evalValue R ρ h w₁ = .error e w' →
    evalValue R ρ f w = .error e w'
  answers : ∀ {w x w₁ y w₂ a b}, evalValue R ρ g w = .ok x w₁ → evalValue R ρ h w₁ = .ok y w₂ →
    H.Stands w₂.store.heap x a → H.Stands w₂.store.heap y b → a.hasKind kind = true →
    b.hasKind kind = true → ∃ w', evalValue R ρ f w = .ok (R.truth (answer x y a b)) w' ∧
      w'.store = w₂.store

variable {H}

def Answers (H : EqualityHost R) (kind : Kind) (compare : R.Value → R.Value → Run R R.Value)
    (answer : R.Value → R.Value → Datum → Datum → Bool) : Prop :=
  ∀ w x y a b, H.Stands w.store.heap x a → H.Stands w.store.heap y b → a.hasKind kind = true →
    b.hasKind kind = true → ∃ w', compare x y w = .ok (R.truth (answer x y a b)) w' ∧
      w'.store = w.store

/-- The comparison of two forms is that of their values. -/
theorem Answers.compares {ρ : Env R} {kind : Kind} {f g h : Form}
    {compare : R.Value → R.Value → Run R R.Value}
    {answer : R.Value → R.Value → Datum → Datum → Bool}
    (hanswers : H.Answers kind compare answer)
    (hf : evalValue R ρ f = (do
      let x ← evalValue R ρ g
      let y ← evalValue R ρ h
      compare x y)) : H.Compares ρ kind f g h answer where
  left hg := by
    rw [hf]
    exact bind_of_error hg _
  right hg hh := by
    rw [hf, bind_of_ok hg]
    exact bind_of_error hh _
  answers hg hh hx hy ha hb := by
    rw [hf, bind_of_ok hg, bind_of_ok hh]
    exact hanswers _ _ _ _ _ hx hy ha hb

/-- A step of the host that changes nothing. -/
theorem primitive_of_ok {x : Action R.Value R.Heap R.Value} {v : R.Value} {w : World R}
    (h : x w.store = .ok v w.store) : Run.primitive x w = .ok v w := by
  simp only [Run.primitive, h]

theorem callNamed_of_ok {name : String} {args : List R.Value} {v : R.Value} {w : World R}
    (h : R.call (R.constant (.symbol name)) args w.store = .ok v w.store) :
    ∃ w', Run.callNamed name args w = .ok v w' ∧ w'.store = w.store :=
  ⟨{ w with calls := w.calls ++ [(R.constant (.symbol name), args)] },
    by simp only [Run.callNamed, Run.call, Run.primitive, h], rfl⟩

/-- Scalars are compared by what they are. -/
theorem answers_scalar (s : Scalar) :
    H.Answers (.scalar s) (Kind.equal R (.scalar s)) fun _ _ a b => a.equal b := by
  intro w x y a b hx hy ha hb
  cases a with
  | array as => cases ha
  | scalar a =>
    cases b with
    | array bs => cases hb
    | scalar b =>
      obtain ⟨rfl, u, v, rfl, rfl⟩ | ⟨rfl, u, v, rfl, rfl⟩ | ⟨hs, u, v, rfl, rfl⟩ |
        ⟨hs, u, v, rfl, rfl⟩ | ⟨hs, u, v, rfl, rfl⟩ := ScalarDatum.sort_of_hasKind ha hb
      · obtain rfl := H.eq_truth hx
        obtain rfl := H.eq_truth hy
        -- the two truth values are different symbols
        have hsymbols : decide ((if u then Host.truth else Host.nil) =
            if v then Host.truth else Host.nil) = decide (u = v) := by
          cases u <;> cases v <;> rfl
        have heq := H.eq_symbols (if u then Host.truth else Host.nil)
          (if v then Host.truth else Host.nil) w.store
        rw [hsymbols] at heq
        exact callNamed_of_ok heq
      · obtain rfl := H.eq_symbol hx
        obtain rfl := H.eq_symbol hy
        exact callNamed_of_ok (H.eq_symbols u v w.store)
      · simp only [Kind.equal, Kind.family?, hs]
        exact ⟨w, primitive_of_ok (H.numEq_int hx hy), rfl⟩
      · simp only [Kind.equal, Kind.family?, hs]
        exact ⟨w, primitive_of_ok (H.numEq_float hx hy), rfl⟩
      · simp only [Kind.equal, Kind.family?, hs]
        exact ⟨w, primitive_of_ok (H.stringEq hx hy), rfl⟩

/-- Arrays are compared by identity. -/
theorem answers_array (elem : Scalar) (length : Nat) :
    H.Answers (.array elem length) (Kind.equal R (.array elem length))
      fun x y _ _ => H.same x y := by
  intro w x y a b hx hy ha hb
  cases a with
  | scalar a => cases ha
  | array as =>
    cases b with
    | scalar b => cases hb
    | array bs =>
      obtain ⟨xs, hxs, -⟩ := hx
      obtain ⟨ys, hys, -⟩ := hy
      exact callNamed_of_ok (H.eq_vectors hxs hys)

theorem answers_of_isArray {kind : Kind} (hkind : kind.isArray = true) :
    H.Answers kind (kind.equal R) fun x y _ _ => H.same x y := by
  cases kind with
  | array elem length => exact answers_array elem length
  | _ => cases hkind

/-- Values of kinds that are neither scalar nor array stand for nothing. -/
theorem answers_of_not_isArray {kind : Kind} (hkind : kind.isArray = false) :
    H.Answers kind (kind.equal R) fun _ _ a b => a.equal b := by
  cases kind with
  | scalar s => exact answers_scalar s
  | array elem length => cases hkind
  | void | slice _ | tuple _ =>
      intro w x y a b hx hy ha
      cases a <;> cases ha

/-- An inequality is the negation of an equality. -/
theorem Answers.sign {kind : Kind} {answer : R.Value → R.Value → Datum → Datum → Bool}
    (h : H.Answers kind (kind.equal R) answer) {sign : BinaryOp}
    (hsign : sign = .eq ∨ sign = .notEq) :
    H.Answers kind (sign.apply R kind) fun x y a b => sign.answer (answer x y a b) := by
  intro w x y a b hx hy ha hb
  obtain ⟨w', hequal, hstore⟩ := h w x y a b hx hy ha hb
  obtain rfl | rfl := hsign
  · exact ⟨w', hequal, hstore⟩
  · refine ⟨w', ?_, hstore⟩
    rw [BinaryOp.apply, bind_of_ok hequal]
    exact primitive_of_ok (H.not_truth _ _)

end EqualityHost

/-! ### Comparisons -/

/-- The form of a comparison evaluates its operands and compares their values. -/
theorem evalValue_comparison {R : Runtime} {sign : BinaryOp} (hsign : sign = .eq ∨ sign = .notEq)
    {kind : Kind} {g h f : Form} {span : Span}
    (hf : Form.ofBinary sign kind.family? g h span = .ok f) (ρ : Env R) :
    evalValue R ρ f = (do
      let x ← evalValue R ρ g
      let y ← evalValue R ρ h
      sign.apply R kind x y) := by
  cases hfamily : kind.family? with
  | none =>
      rw [hfamily] at hf
      obtain rfl | rfl := hsign <;> cases hf <;>
        simp [evalValue, evalValues, BinaryOp.apply, Kind.equal, hfamily]
  | some family =>
      rw [hfamily] at hf
      obtain rfl | rfl := hsign <;> cases hf <;> rw [Form.applyOp_pair rfl] <;> cases family <;>
        simp [evalValue, evalChain, evalChainRest, OpKind.operation?, OpKind.onNumbers?,
          OpKind.onStrings?, BinaryOp.apply, Kind.equal, OpKind.apply, hfamily]

/-- Values of scalar kinds are compared by what they are, and arrays by identity: whatever their
elements are, an array is equal to itself and to no other. -/
theorem equality_meaning {R : Runtime} (H : EqualityHost R) {env : Environment} {sign : BinaryOp}
    (hsign : sign = .eq ∨ sign = .notEq) {left right : Expr} (hkind : left.kind = right.kind)
    {kind : Kind} {span : Span} {f : Form}
    (hf : Form.ofExpr env (.binary sign left right kind span) = .ok f) :
    ∃ g h, Form.ofExpr env left = .ok g ∧ Form.ofExpr env right = .ok h ∧ ∀ ρ : Env R,
      (left.kind.isArray = false →
        H.Compares ρ left.kind f g h fun _ _ a b => sign.answer (a.equal b)) ∧
      (left.kind.isArray = true →
        H.Compares ρ left.kind f g h fun x y _ _ => sign.answer (H.same x y)) := by
  rw [Form.ofExpr] at hf
  obtain ⟨g, hg, hf⟩ := lower_bind_ok hf
  obtain ⟨h, hh, hf⟩ := lower_bind_ok hf
  have hfamily : (left.kind.family? <|> left.kind.family?) = left.kind.family? := by
    cases left.kind.family? <;> rfl
  rw [← hkind, hfamily] at hf
  refine ⟨g, h, hg, hh, fun ρ => ?_⟩
  have heval := evalValue_comparison hsign hf ρ
  exact ⟨fun h => (EqualityHost.answers_of_not_isArray h).sign hsign |>.compares heval,
    fun h => (EqualityHost.answers_of_isArray h).sign hsign |>.compares heval⟩

/-! ### A host that compares cells -/

namespace Cell

def truth (b : Bool) : Cell :=
  .constant (.symbol (if b then Host.truth else Host.nil))

def compare (op : BinaryInstr) (a b : Cell) : Action Cell Heap Cell :=
  match op, a, b with
  | .numEq, .constant (.int u), .constant (.int v) => return truth (u = v)
  | .numEq, .constant (.float u), .constant (.float v) => return truth (u.numEq v)
  | .stringEq, .constant (.str u), .constant (.str v) => return truth (u = v)
  | _, _, _ => throw ()

def negate (op : UnaryInstr) (a : Cell) : Action Cell Heap Cell :=
  match op with
  | .not => return truth (a = truth false)
  | _ => throw ()

def callEq (f : Cell) (args : List Cell) : Action Cell Heap Cell :=
  if f = .constant (.symbol Host.eq) then
    match args with
    | [a, b] => return truth (a = b)
    | _ => throw ()
  else call f args

def same (a b : Cell) : Bool :=
  a = b

theorem same_iff {a b : Cell} : a.same b = true ↔ a = b :=
  decide_eq_true_iff

def contents? (heap : Heap) : Cell → Option (List Cell)
  | .vector place => heap[place]?
  | .constant _ => none

def ofScalar : ScalarDatum → Cell
  | .bool b => truth b
  | .int n => .constant (.int n)
  | .float x => .constant (.float x)
  | .string s => .constant (.str s)
  | .symbol name => .constant (.symbol name)

end Cell

def Runtime.comparing : Runtime :=
  { Runtime.cells with unary := Cell.negate, binary := Cell.compare, call := Cell.callEq }

def EqualityHost.comparing : EqualityHost .comparing where
  represents _ x a := x = Cell.ofScalar a
  contents := Cell.contents?
  same := Cell.same
  same_iff := Cell.same_iff
  eq_truth h := h
  eq_symbol h := h
  numEq_int hx hy := by
    subst hx hy
    rfl
  numEq_float hx hy := by
    subst hx hy
    rfl
  stringEq hx hy := by
    subst hx hy
    rfl
  eq_symbols a b s := by
    have heq : decide (Cell.constant (.symbol a) = .constant (.symbol b)) = decide (a = b) := by
      simp
    exact congrArg (fun b => EStateM.Result.ok (Cell.truth b) s) heq
  eq_vectors _ _ := rfl
  not_truth b _ := by
    cases b <;> rfl

/-- The condition `s != "m"`. -/
def differsFromM : Expr :=
  .ofBinary .notEq (.ofName "s" .string) (.ofLiteral (.str "m"))

theorem equality_meaning_differsFromM :
    ∃ f, Form.ofExpr {} differsFromM = .ok f ∧ ∀ (w : World .comparing) (s : String), ∃ w',
      evalValue .comparing [("s", .constant (.str s))] f w =
        .ok (Runtime.comparing.truth !decide (s = "m")) w' ∧ w'.store = w.store := by
  obtain ⟨g, h, hg, hh, hmeaning⟩ := @equality_meaning _ EqualityHost.comparing {} .notEq (.inr rfl)
    (.ofName "s" .string) (.ofLiteral (.str "m")) rfl .bool {} _ rfl
  cases hg
  cases hh
  refine ⟨_, rfl, fun w s => ?_⟩
  exact ((hmeaning [("s", .constant (.str s))]).1 rfl).answers (a := .scalar (.string s))
    (b := .scalar (.string "m")) rfl rfl rfl rfl rfl rfl

/-- The condition `a == b` on arrays of one integer. -/
def sameArrays : Expr :=
  .ofBinary .eq (.ofName "a" (.array .int 1)) (.ofName "b" (.array .int 1))

/-- Two arrays with the same element are equal, but are not found so. -/
theorem equality_meaning_arrays :
    let heap : Cell.Heap := [[.constant (.int 1)], [.constant (.int 1)]]
    EqualityHost.comparing.Stands heap (.vector 0) (.array [.int 1]) ∧
      EqualityHost.comparing.Stands heap (.vector 1) (.array [.int 1]) ∧
      Datum.equal (.array [.int 1]) (.array [.int 1]) = true ∧
      ∃ f w', Form.ofExpr {} sameArrays = .ok f ∧
        evalValue .comparing [("a", .vector 0), ("b", .vector 1)] f
            ⟨⟨fun _ => Cell.truth false, heap⟩, []⟩ =
          .ok (Runtime.comparing.truth false) w' :=
  ⟨⟨_, rfl, .cons rfl .nil⟩, ⟨_, rfl, .cons rfl .nil⟩, rfl, _, _, rfl, rfl⟩

end StackCompiler
