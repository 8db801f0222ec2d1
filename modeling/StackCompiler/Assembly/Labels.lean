import StackCompiler.Diagnostic

/-!
Labels of the code under construction. A label is created before it is used, stands at one place,
and is left over neither without a place nor without a jump to it.
-/

namespace StackCompiler

structure LabelInfo where
  name : String
  position : Option Nat := none
  used : Bool := false
  deriving DecidableEq, Inhabited

structure LabelTable where
  labels : Array LabelInfo := #[]
  deriving DecidableEq, Inhabited

namespace LabelTable

def empty : LabelTable := {}

def size (t : LabelTable) : Nat :=
  t.labels.size

def get? (t : LabelTable) (l : Label) : Option LabelInfo :=
  t.labels[l.id]?

def next (t : LabelTable) : Label :=
  ⟨t.size⟩

def create (t : LabelTable) (name : String) : LabelTable :=
  match t with
  | ⟨labels⟩ => ⟨labels.push { name }⟩

def update (t : LabelTable) (l : Label) (info : LabelInfo) : LabelTable :=
  ⟨t.labels.setIfInBounds l.id info⟩

/-- Notes that a jump leads to the label. -/
def markUsed (t : LabelTable) (l : Label) : Except Fault LabelTable :=
  match t.get? l with
  | none => .error (.unknownLabel l)
  | some info => .ok (t.update l { info with used := true })

/-- Puts the label at a position, once. -/
def bind (t : LabelTable) (l : Label) (position : Nat) : Except Fault LabelTable :=
  match t.get? l with
  | none => .error (.unknownLabel l)
  | some info =>
    match info.position with
    | some previous => .error (.boundTwice info.name l previous position)
    | none => .ok (t.update l { info with position := some position })

def isBound (t : LabelTable) (l : Label) : Bool :=
  match t.get? l with
  | some info => info.position.isSome
  | none => false

/-- The position of a label that is both placed and used. -/
def position (l : Label) (info : LabelInfo) : Except Fault Nat :=
  match info.position, info.used with
  | none, _ => .error (.neverBound info.name l)
  | some _, false => .error (.neverUsed info.name l)
  | some p, true => .ok p

/-- The positions of labels numbered from `id` on; the first label at fault is reported. -/
def positions (id : Nat) : List LabelInfo → Except Fault (List Nat)
  | [] => .ok []
  | info :: rest => do
    let p ← position ⟨id⟩ info
    let ps ← positions (id + 1) rest
    return p :: ps

def resolve (t : LabelTable) : Except Fault (List Nat) :=
  positions 0 t.labels.toList

end LabelTable

end StackCompiler
