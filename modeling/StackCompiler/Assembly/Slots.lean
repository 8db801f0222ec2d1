import StackCompiler.Diagnostic

/-!
The static stack: for every value on the machine's stack at one point of the code, the name of the
variable it belongs to, if any. The topmost slot stands first.
-/

namespace StackCompiler

/-- Slots of the static stack, topmost first, with the greatest depth so far. The depth is kept
beside the slots. -/
structure Slots where
  names : List (Option String) := []
  depth : Nat := names.length
  maxDepth : Nat := 0
  depth_eq : depth = names.length := by rfl

namespace Slots

def empty : Slots := {}

instance : Inhabited Slots := ⟨empty⟩

/-- Pushes slots without names. -/
def push (s : Slots) (count : Nat) : Slots where
  names := List.replicate count none ++ s.names
  depth := count + s.depth
  maxDepth := max s.maxDepth (count + s.depth)
  depth_eq := by simp [s.depth_eq]

def pushNamed (s : Slots) (name : String) : Slots where
  names := some name :: s.names
  depth := s.depth + 1
  maxDepth := max s.maxDepth (s.depth + 1)
  depth_eq := by simp [s.depth_eq]

def pop (s : Slots) (count : Nat) : Except Fault Slots :=
  if count ≤ s.depth then
    .ok {
      names := s.names.drop count
      depth := s.depth - count
      maxDepth := s.maxDepth
      depth_eq := by simp [s.depth_eq] }
  else .error (.underflow count s.depth)

/-- The stack with another name for its topmost slot, if it has one. -/
def rename? (s : Slots) (name : Option String) : Option Slots :=
  match s with
  | ⟨_ :: rest, depth, maxDepth, h⟩ => some ⟨name :: rest, depth, maxDepth, h⟩
  | ⟨[], _, _, _⟩ => none

def bind (s : Slots) (name : String) : Except Fault Slots :=
  match s.rename? (some name) with
  | some t => .ok t
  | none => .error .bindOnEmpty

def unbindTop (s : Slots) : Except Fault Slots :=
  match s.rename? none with
  | some t => .ok t
  | none => .error .unbindOnEmpty

/-- How far below the top the latest slot of a variable is. -/
def find? (s : Slots) (name : String) : Option Nat :=
  s.names.findIdx? (· == some name)

/-- The names of all slots, lowest first. -/
def toList (s : Slots) : List (Option String) :=
  s.names.reverse

end Slots

end StackCompiler
