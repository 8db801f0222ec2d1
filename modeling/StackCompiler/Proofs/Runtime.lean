import StackCompiler.Bytecode.Constant
import StackCompiler.Bytecode.Instr
import StackCompiler.Host

/-!
What compiled code runs on. The values, the heap, the primitives and the functions of the host are
left open: a `Runtime` is one choice of them. A computation may read and change the host's store,
and it may stop; every function that is called is written down with its arguments, so that two
computations can be compared by what they call.
-/

namespace StackCompiler

/-- A bind succeeds if its first part succeeds and the rest succeeds from there. -/
theorem bind_eq_ok {ε σ α β : Type} {x : EStateM ε σ α} {f : α → EStateM ε σ β} {s t : σ} {b : β} :
    (x >>= f) s = .ok b t ↔ ∃ a u, x s = .ok a u ∧ f a u = .ok b t := by
  show EStateM.bind x f s = .ok b t ↔ _
  unfold EStateM.bind
  cases x s with
  | ok a u =>
      constructor
      · intro h
        exact ⟨a, u, rfl, h⟩
      · rintro ⟨_, _, heq, h⟩
        cases heq
        exact h
  | error e u => simp

theorem bind_of_ok {ε σ α β : Type} {x : EStateM ε σ α} {s u : σ} {a : α} (h : x s = .ok a u)
    (f : α → EStateM ε σ β) : (x >>= f) s = f a u := by
  show EStateM.bind x f s = _
  simp only [EStateM.bind, h]

theorem bind_of_error {ε σ α β : Type} {x : EStateM ε σ α} {s u : σ} {e : ε}
    (h : x s = .error e u) (f : α → EStateM ε σ β) : (x >>= f) s = .error e u := by
  show EStateM.bind x f s = _
  simp only [EStateM.bind, h]

/-- A bind stops if its first part stops, or if the rest stops from where that ends. -/
theorem bind_eq_error {ε σ α β : Type} {x : EStateM ε σ α} {f : α → EStateM ε σ β} {s t : σ}
    {e : ε} : (x >>= f) s = .error e t ↔
      x s = .error e t ∨ ∃ a u, x s = .ok a u ∧ f a u = .error e t := by
  cases hx : x s with
  | ok a u =>
      rw [bind_of_ok hx]
      constructor
      · intro h
        exact .inr ⟨a, u, rfl, h⟩
      · rintro (⟨⟨⟩⟩ | ⟨_, _, ⟨⟩, h⟩)
        exact h
  | error e' u =>
      rw [bind_of_error hx]
      simp

@[simp] theorem pure_eq_ok {ε σ α : Type} {a b : α} {s t : σ} :
    (pure a : EStateM ε σ α) s = .ok b t ↔ a = b ∧ s = t := by
  show EStateM.Result.ok a s = _ ↔ _
  simp

@[simp] theorem throw_ne_ok {ε σ α : Type} {e : ε} {b : α} {s t : σ} :
    (throw e : EStateM ε σ α) s ≠ .ok b t := by
  show EStateM.Result.error e s ≠ _
  simp

/-- Two computations that go on alike after every result go on alike. -/
theorem bind_congr_of_ok {ε σ α β : Type} {x : EStateM ε σ α} {f g : α → EStateM ε σ β} {s : σ}
    (h : ∀ a t, x s = .ok a t → f a t = g a t) : (x >>= f) s = (x >>= g) s := by
  cases hx : x s with
  | ok a t => rw [bind_of_ok hx, bind_of_ok hx, h a t hx]
  | error e t => rw [bind_of_error hx, bind_of_error hx]

/-- The first parts may also differ, as long as they do the same from here. -/
theorem bind_congr_of_eq {ε σ α β : Type} {x y : EStateM ε σ α} {f g : α → EStateM ε σ β} {s : σ}
    (hxy : x s = y s) (h : ∀ a t, y s = .ok a t → f a t = g a t) : (x >>= f) s = (y >>= g) s := by
  rw [← bind_congr_of_ok h]
  cases hy : y s with
  | ok a t => rw [bind_of_ok hy, bind_of_ok (hxy.trans hy)]
  | error e t => rw [bind_of_error hy, bind_of_error (hxy.trans hy)]

/-- Why a computation ends without a result: the host raised an error, the program means nothing
here, or it ran longer than it was allowed to. -/
inductive Stop where
  | panic | stuck | timeout
  deriving DecidableEq

/-- The part of the host that calls and primitives may change: dynamic variables and the heap. -/
structure Store (Value Heap : Type) where
  vars : String → Value
  heap : Heap

def Store.setVar {Value Heap : Type} (s : Store Value Heap) (name : String) (v : Value) :
    Store Value Heap :=
  { s with vars := fun other => if other = name then v else s.vars other }

/-- A step of the host, which may raise an error. -/
abbrev Action (Value Heap : Type) := EStateM Unit (Store Value Heap)

theorem Constant.beq_nil_iff (c : Constant) :
    (c == .symbol Host.nil) = true ↔ c = .symbol Host.nil :=
  beq_iff_eq

/-- Values and what the host does with them. Truth values are symbols, and one of them is false. -/
structure Runtime where
  Value : Type
  Heap : Type
  constant : Constant → Value
  isNil : Value → Bool
  isNil_iff : ∀ v, isNil v = true ↔ v = constant (.symbol Host.nil)
  unary : UnaryInstr → Value → Action Value Heap Value
  binary : BinaryInstr → Value → Value → Action Value Heap Value
  concat : List Value → Action Value Heap Value
  arrayRef : Value → Value → Action Value Heap Value
  arraySet : Value → Value → Value → Action Value Heap Unit
  call : Value → List Value → Action Value Heap Value

/-- The store and all calls so far, the earliest first. -/
structure World (R : Runtime) where
  store : Store R.Value R.Heap
  calls : List (R.Value × List R.Value)

abbrev Run (R : Runtime) := EStateM Stop (World R)

namespace Run

variable {R : Runtime}

def primitive {α : Type} (x : Action R.Value R.Heap α) : Run R α := fun w =>
  match x w.store with
  | .ok a store => .ok a { w with store }
  | .error _ store => .error .panic { w with store }

theorem primitive_eq_ok {α : Type} {x : Action R.Value R.Heap α} {w w' : World R} {a : α} :
    primitive x w = .ok a w' ↔ ∃ s, x w.store = .ok a s ∧ w' = { w with store := s } := by
  unfold primitive
  cases x w.store with
  | ok b s =>
      constructor
      · rintro ⟨⟩
        exact ⟨s, rfl, rfl⟩
      · rintro ⟨_, ⟨⟩, rfl⟩
        rfl
  | error e s => simp

def call (f : R.Value) (args : List R.Value) : Run R R.Value := fun w =>
  primitive (R.call f args) { w with calls := w.calls ++ [(f, args)] }

def callNamed (name : String) (args : List R.Value) : Run R R.Value :=
  call (R.constant (.symbol name)) args

theorem callNamed_eq_ok {name : String} {args : List R.Value} {w w' : World R} {v : R.Value} :
    callNamed name args w = .ok v w' ↔
      ∃ s, R.call (R.constant (.symbol name)) args w.store = .ok v s ∧
        w' = ⟨s, w.calls ++ [(R.constant (.symbol name), args)]⟩ :=
  primitive_eq_ok

def readVar (name : String) : Run R R.Value := fun w =>
  .ok (w.store.vars name) w

def writeVar (name : String) (v : R.Value) : Run R Unit := fun w =>
  .ok () { w with store := w.store.setVar name v }

end Run

end StackCompiler
