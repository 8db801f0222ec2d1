import StackCompiler.Bytecode.Instr

/-!
The loops around the code under construction, innermost first.
-/

namespace StackCompiler

/-- A loop whose body is being emitted: the depth of the stack at its start, and the labels that
`continue` and `break` jump to, as far as they exist. -/
structure LoopContext where
  depth : Nat
  continueLabel : Option Label := none
  breakLabel : Option Label := none
  deriving DecidableEq, Inhabited

/-- The open loops, innermost first. -/
structure LoopStack where
  loops : List LoopContext := []
  deriving DecidableEq, Inhabited

namespace LoopStack

def empty : LoopStack := {}

def size (s : LoopStack) : Nat :=
  s.loops.length

def inLoop (s : LoopStack) : Bool :=
  !s.loops.isEmpty

def current? (s : LoopStack) : Option LoopContext :=
  s.loops.head?

def enter (s : LoopStack) (depth : Nat) (continueLabel : Option Label) : LoopStack :=
  ⟨{ depth, continueLabel } :: s.loops⟩

def exit? (s : LoopStack) : Option (LoopContext × LoopStack) :=
  match s.loops with
  | [] => none
  | c :: rest => some (c, ⟨rest⟩)

def modifyCurrent (s : LoopStack) (f : LoopContext → LoopContext) : LoopStack :=
  match s.loops with
  | [] => s
  | c :: rest => ⟨f c :: rest⟩

end LoopStack

end StackCompiler
