import StackCompiler.Text.Quoted
import StackCompiler.Bytecode.Instr

/-!
Finished code: instructions, the position of every label, and the depth that the stack reaches.
-/

namespace StackCompiler

/-- The code of a function. Labels are indexed by their number. -/
structure Chunk where
  code : Array Instr := #[]
  labels : Array Nat := #[]
  maxDepth : Nat := 0
  deriving DecidableEq, Inhabited

namespace Chunk

def labelPosition? (c : Chunk) (l : Label) : Option Nat :=
  c.labels[l.id]?

def jumpTarget? (c : Chunk) (index : Nat) : Option Nat := do
  let instr ← c.code[index]?
  let label ← instr.label?
  c.labelPosition? label

def opcodes (c : Chunk) : List Opcode :=
  c.code.toList.map Instr.opcode

/-- The lines that mark the labels at a position, in the order of their numbers. -/
def labelLines (c : Chunk) (position : Nat) : List String :=
  c.labels.toList.zipIdx.filterMap fun (p, id) =>
    if p = position then some ((Label.mk id).text ++ ":\n") else none

def instrLine (index : Nat) (i : Instr) : String :=
  "  " ++ Text.decimalPadded 4 index ++ "  " ++ i.text ++ "\n"

/-- One line for each instruction, after the labels that stand there. -/
def listing (c : Chunk) : String :=
  String.join (c.code.toList.zipIdx.flatMap fun (i, index) =>
      c.labelLines index ++ [instrLine index i]) ++
    String.join (c.labelLines c.code.size)

end Chunk

/-- What is left of `expected` after matching it, greedily and in order, against `actual`. -/
def missingOpcodes : List Opcode → List Opcode → List Opcode
  | [], _ => []
  | expected, [] => expected
  | e :: expected, a :: actual =>
    if e = a then missingOpcodes expected actual else missingOpcodes (e :: expected) actual

namespace Chunk

/-- The opcodes of `expected` that the code does not contain in this order, if any. -/
def missing? (c : Chunk) (expected : List Opcode) : Option (List Opcode) :=
  match missingOpcodes expected c.opcodes with
  | [] => none
  | rest => some rest

def missingMessage (c : Chunk) (missing : List Opcode) : String :=
  "Missing opcodes in sequence.\nExpected to find: " ++
    Text.quotedList (missing.map Opcode.mnemonic) ++
    "\nActual bytecode:  " ++ Text.quotedList (c.opcodes.map Opcode.mnemonic)

end Chunk

end StackCompiler
