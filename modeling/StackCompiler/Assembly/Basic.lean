import StackCompiler.Bytecode.Chunk
import StackCompiler.Bytecode.Pool
import StackCompiler.Assembly.Labels
import StackCompiler.Assembly.Loops
import StackCompiler.Assembly.Slots

/-!
Code under construction. A step appends instructions and keeps the static stack, the constants, the
labels and the open loops in line with them. A step that fails keeps what it has done so far.
-/

namespace StackCompiler

/-- All that is built up while one function is compiled. -/
structure Assembly where
  code : Array Instr := #[]
  pool : Pool := .empty
  slots : Slots := .empty
  labels : LabelTable := .empty
  loops : LoopStack := .empty
  deriving Inhabited

/-- A step of code construction. -/
abbrev Emit := EStateM CompileError Assembly

namespace Emit

def fault {α : Type} (f : Fault) : Emit α :=
  throw (.internal f)

def onSlots (f : Slots → Except Fault Slots) : Emit Unit := fun s =>
  match f s.slots with
  | .ok slots => .ok () { s with slots }
  | .error e => .error (.internal e) s

def onLabels (f : LabelTable → Except Fault LabelTable) : Emit Unit := fun s =>
  match f s.labels with
  | .ok labels => .ok () { s with labels }
  | .error e => .error (.internal e) s

/-- Notes a parameter, which the caller has pushed. -/
def param (name : String) : Emit Unit :=
  modify fun s => { s with slots := s.slots.pushNamed name }

/-- Appends an instruction without regard to the static stack. -/
def append (i : Instr) : Emit Unit :=
  modify fun s => { s with code := s.code.push i }

/-- Appends an instruction and applies its effect to the static stack. -/
def instr (i : Instr) : Emit Unit := do
  onSlots (·.pop i.pops)
  modify fun s => { s with slots := s.slots.push i.pushes }
  match i.label? with
  | some l => onLabels (·.markUsed l)
  | none => pure ()
  append i

/-- Drops slots that the code before leaves unused because it never gets this far. -/
def discardModel (count : Nat) : Emit Unit :=
  onSlots (·.pop count)

def bindLocal (name : String) : Emit Unit :=
  onSlots (·.bind name)

/-- Takes the name from the topmost slot, which may hold another value than that of the variable
where two ways meet. -/
def unbindTop : Emit Unit :=
  onSlots (·.unbindTop)

/-- A number as an operand of two bytes. -/
def word (r : Resource) (n : Nat) : Emit UInt16 :=
  if n ≤ r.limit then pure (.ofNat n) else throw (.capacity r n)

/-- A number as an operand of one byte. -/
def byte (r : Resource) (n : Nat) : Emit UInt8 :=
  if n ≤ r.limit then pure (.ofNat n) else throw (.capacity r n)

/-- Drops values from the stack, if there are any to drop. -/
def discard (count : Nat) : Emit Unit :=
  if count = 0 then pure ()
  else do
    let n ← word .discardCount count
    instr (.discard n)

def addConstant (c : Constant) : Emit Nat :=
  modifyGet fun ⟨code, pool, slots, labels, loops⟩ =>
    match pool.add c with
    | (i, pool) => (i, ⟨code, pool, slots, labels, loops⟩)

def poolIndex (c : Constant) : Emit UInt16 := do
  let i ← addConstant c
  word .constantPool i

def constant (c : Constant) : Emit Unit := do
  let i ← poolIndex c
  instr (.constRef i)

def symbol (name : String) : Emit Unit :=
  constant (.symbol name)

def int (v : Int64) : Emit Unit :=
  constant (.int v)

def float (x : Binary64) : Emit Unit :=
  constant (.float x)

def str (s : String) : Emit Unit :=
  constant (.str s)

def nil : Emit Unit :=
  symbol Host.nil

/-- Pushes a truth value, which is one of two symbols. -/
def bool (b : Bool) : Emit Unit :=
  symbol (if b then Host.truth else Host.nil)

def dynamicRef (name : String) : Emit Unit := do
  let i ← poolIndex (.symbol name)
  instr (.varRef i)

def dynamicSet (name : String) : Emit Unit := do
  let i ← poolIndex (.symbol name)
  instr (.varSet i)

/-- How far below the top the slot of a variable is. -/
def find? (name : String) : Emit (Option Nat) := fun s =>
  .ok (s.slots.find? name) s

/-- Pushes the value of a variable: from its slot, or else as a dynamic variable. The copy is a slot
of the variable, too. -/
def varRef (name : String) : Emit Unit := do
  match ← find? name with
  | some offset =>
    let n ← word .stackOffset offset
    instr (.stackRef n)
  | none => dynamicRef name
  bindLocal name

/-- Pops a value into a variable: into its slot, or else as a dynamic variable. -/
def varSet (name : String) : Emit Unit := do
  match ← find? name with
  | some offset =>
    let n ← word .stackOffset offset
    instr (.stackSet n)
  | none => dynamicSet name

/-- Calls the function below the arguments. -/
def call (args : Nat) : Emit Unit := do
  let n ← byte .callArguments args
  instr (.call n)

def concat (count : Nat) : Emit Unit := do
  let n ← byte .concatOperands count
  instr (.concat n)

def ret : Emit Unit :=
  instr .ret

def newLabel (name : String) : Emit Label :=
  modifyGet fun ⟨code, pool, slots, labels, loops⟩ =>
    (labels.next, ⟨code, pool, slots, labels.create name, loops⟩)

/-- Places a label at the next instruction. -/
def bindLabel (l : Label) : Emit Unit := fun s =>
  onLabels (·.bind l s.code.size) s

def jump (kind : JumpKind) (target : Label) : Emit Unit :=
  instr (.jump kind target)

/-- Opens a loop at the present depth. Without a label for `continue`, one is created when it is
first needed. -/
def enterLoop (continueLabel : Option Label) : Emit Unit :=
  modify fun s => { s with loops := s.loops.enter s.slots.depth continueLabel }

def currentLoop? : Emit (Option LoopContext) := fun s =>
  .ok s.loops.current? s

/-- The label that `continue` of the innermost loop jumps to, if there is one yet. -/
def pendingContinue : Emit (Option Label) := do
  let loop? ← currentLoop?
  return loop?.bind (·.continueLabel)

def closeLoop : Emit LoopContext := fun s =>
  match s.loops.exit? with
  | some (c, loops) => .ok c { s with loops }
  | none => .error (.internal .exitOutsideLoop) s

/-- Closes the innermost loop; a `break` out of it leads here. -/
def exitLoop : Emit Unit := do
  let c ← closeLoop
  match c.breakLabel with
  | some l => bindLabel l
  | none => pure ()

end Emit

namespace LoopJump

def label? : LoopJump → LoopContext → Option Label
  | .breakLoop, c => c.breakLabel
  | .continueLoop, c => c.continueLabel

def setLabel (j : LoopJump) (l : Label) (c : LoopContext) : LoopContext :=
  match j with
  | .breakLoop => { c with breakLabel := some l }
  | .continueLoop => { c with continueLabel := some l }

def labelName : LoopJump → String
  | .breakLoop => "loop-break"
  | .continueLoop => "loop-continue"

end LoopJump

namespace Emit

/-- The label of a jump in the given innermost loop, created on first use. -/
def loopLabel (j : LoopJump) (c : LoopContext) : Emit Label :=
  match j.label? c with
  | some l => pure l
  | none => do
    let l ← newLabel j.labelName
    modify fun s => { s with loops := s.loops.modifyCurrent (j.setLabel l) }
    return l

def depth : Emit Nat := fun s =>
  .ok s.slots.depth s

/-- Drops the values above a depth and jumps. The static stack still describes the code after the
jump, which is reached another way. -/
def leaveTo (target : Nat) (l : Label) : Emit Unit := do
  let present ← depth
  if present < target then fault .shallowerThanLoop
  else if present = target then jump .always l
  else do
    let n ← word .discardCount (present - target)
    append (.discard n)
    jump .always l

def loopJump (j : LoopJump) : Emit Unit := do
  match ← currentLoop? with
  | none => fault (.jumpOutsideLoop j)
  | some c =>
    let l ← loopLabel j c
    leaveTo c.depth l

end Emit

namespace Assembly

def ofParams (params : List String) : Assembly :=
  { slots := params.foldl Slots.pushNamed .empty }

/-- The finished code, once no loop is open and every label has its place and its use. -/
def finish (s : Assembly) : Except CompileError Chunk :=
  if s.loops.inLoop then .error (.internal .endedInLoop)
  else
    match s.labels.resolve with
    | .error e => .error (.internal e)
    | .ok positions => .ok ⟨s.code, positions.toArray, s.slots.maxDepth⟩

end Assembly

end StackCompiler
