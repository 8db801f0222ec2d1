import StackCompiler.Proofs.Evaluation
import StackCompiler.Proofs.NewArrays

/-!
Runs of a package on a host. A call of one of the package's functions runs its body, and every other
call is left to the host; a function value may be either. Beside the host's heap, a run keeps the
variables of all calls that have not ended, with the kinds that the source gives them, and it writes
down every moment at which one of them changes.

What the source asks for cannot all be known before a run. Where a run does something else, it notes
a breach and goes on. What holds of a run until its first breach is shown for strict runs, which end
there.
-/

namespace StackCompiler

open Source

def finalState {ε σ α : Type} : EStateM.Result ε σ α → σ
  | .ok _ s => s
  | .error _ s => s

structure Variable (Value : Type) where
  name : String
  kind : Kind
  value : Value

/-- The variables of a call, the latest first. -/
abbrev Frame (Value : Type) := List (Variable Value)

namespace Frame

variable {Value : Type}

def env (fr : Frame Value) : List (String × Value) :=
  fr.map fun x => (x.name, x.value)

def ofArgs (params : List Param) (args : List Value) : Frame Value :=
  ((params.zip args).map fun (param, v) => ⟨param.name, param.kind, v⟩).reverse

def find? (name : String) (fr : Frame Value) : Option (Variable Value) :=
  List.find? (·.name = name) fr

def update (name : String) (v : Value) : Frame Value → Frame Value
  | [] => []
  | x :: rest => if x.name = name then { x with value := v } :: rest else x :: update name v rest

theorem env_ofArgs (params : List Param) (args : List Value) :
    (ofArgs params args).env = ((params.map Param.name).zip args).reverse := by
  simp [ofArgs, env, List.zip_map_left]

theorem lowest_env (outer fr : Frame Value) :
    lowest outer.env.length fr.env = Frame.env (lowest outer.length fr) := by
  simp [lowest, env]

end Frame

/-- What a run may do that the source does not ask for. `kinds`: a function value is called with
other kinds than the function has, a variable is stored into as one of another kind, or a function
with several results ends without returning them. `lostResult`: a function returns although one of
its results is no longer where it was stored. -/
inductive Breach where
  | kinds
  | lostResult
  deriving DecidableEq

/-- The variables of all calls that have not ended, the innermost call first, and the breaches until
then. -/
structure Moment (Value : Type) where
  frames : List (Frame Value)
  breaches : List Breach

/-- The heap of a host, the variables of all calls that have not ended, every moment so far and the
breaches so far. A strict run ends at its first breach. -/
structure Memory (H : Runtime) where
  heap : H.Heap
  frames : List (Frame H.Value)
  moments : List (Moment H.Value)
  breaches : List Breach
  isStrict : Bool

namespace Memory

variable {H : Runtime}

def withFrames (frames : List (Frame H.Value)) (m : Memory H) : Memory H :=
  { m with frames, moments := ⟨frames, m.breaches⟩ :: m.moments }

/-- A step of the host, which knows nothing of the record. -/
def onHeap {α : Type} (x : Action H.Value H.Heap α) : Action H.Value (Memory H) α := fun s =>
  match x ⟨s.vars, s.heap.heap⟩ with
  | .ok a t => .ok a ⟨t.vars, { s.heap with heap := t.heap }⟩
  | .error e t => .error e ⟨t.vars, { s.heap with heap := t.heap }⟩

end Memory

/-- A package on a host. Loops run for at most `fuel` rounds. -/
structure Deployment where
  package : Package
  environment : Environment
  host : Runtime
  sameValue : DecidableEq host.Value
  fuel : Nat

namespace Deployment

abbrev Calls (D : Deployment) :=
  Function → List D.host.Value → Action D.host.Value (Memory D.host) D.host.Value

section

variable (D : Deployment)

instance : DecidableEq D.host.Value := D.sameValue

def callee? (f : D.host.Value) : Option Function :=
  D.package.functions.find? fun g => D.host.constant (.symbol g.name) = f

/-- What happens at a call: a function of the package is called by its name or through a value, or
the host is asked. -/
def dispatch {α : Type} (calls : Function → List D.host.Value → α) (onHost : α)
    (f : D.host.Value) (args : List D.host.Value) : α :=
  match D.callee? f with
  | some g => calls g args
  | none =>
    match args with
    | [] => onHost
    | target :: rest =>
      if f = D.host.constant (.symbol Host.funcall) then
        match D.callee? target with
        | some g => calls g rest
        | none => onHost
      else onHost

/-- The host, with the functions of the package and with a record of their variables. -/
abbrev runtime (calls : D.Calls) : Runtime where
  Value := D.host.Value
  Heap := Memory D.host
  constant := D.host.constant
  isNil := D.host.isNil
  isNil_iff := D.host.isNil_iff
  unary i v := Memory.onHeap (D.host.unary i v)
  binary i v w := Memory.onHeap (D.host.binary i v w)
  concat vs := Memory.onHeap (D.host.concat vs)
  arrayRef a i := Memory.onHeap (D.host.arrayRef a i)
  arraySet a i v := Memory.onHeap (D.host.arraySet a i v)
  call f args := D.dispatch calls (Memory.onHeap (D.host.call f args)) f args

/-- Whether a function value respects the kinds of a call. A function of the package finds new
arrays where it has array parameters, which `givesNew_ofStoredList` shows of arguments of such
kinds, and it yields arrays where they are asked for. Functions of the host have one result. -/
def fits (asked : List Kind) (args : List Form) (target : D.host.Value) : Bool :=
  match D.callee? target with
  | some g =>
    passesNew D.package g args && (!asked.any Kind.isArray ||
      (asked.length = g.results.length && givesArrays asked g.results))
  | none => !asked.tail.any Kind.isArray

end

def paramKinds (f? : Option Function) : List Kind :=
  f?.elim [] fun f => f.params.map Param.kind

section

variable {D : Deployment} {calls : D.Calls}

def frame : Run (D.runtime calls) (Frame D.host.Value) := fun w =>
  .ok (w.store.heap.frames.headD []) w

def withFrame (fr : Frame D.host.Value) (w : World (D.runtime calls)) : World (D.runtime calls) :=
  { w with store.heap := w.store.heap.withFrames (fr :: w.store.heap.frames.tail) }

def setFrame (fr : Frame D.host.Value) : Run (D.runtime calls) Unit := fun w =>
  .ok () (withFrame fr w)

/-- Notes a breach if a condition does not hold. -/
def require (holds : (String → D.host.Value) → Bool) (breach : Breach) :
    Run (D.runtime calls) Unit := fun w =>
  if holds w.store.vars then .ok () w
  else if w.store.heap.isStrict then .error .stuck w
  else .ok () { w with store.heap.breaches := breach :: w.store.heap.breaches }

def callValue (asked : List Kind) (args : List Form) (target : D.host.Value)
    (vs : List D.host.Value) : Run (D.runtime calls) D.host.Value := do
  require (fun _ => D.fits asked args target) .kinds
  Run.callNamed Host.funcall (target :: vs)

mutual
/-- The value of a form where results of these kinds are asked for. Arguments are asked for what the
function that is called has as parameters. -/
def evalAs (env : List (String × D.host.Value)) (asked : List Kind) :
    Form → Run (D.runtime calls) D.host.Value
  | .array elems => do
    let vs ← evalAllAs env [] elems
    Run.callNamed Host.vector vs
  | .sparseArray ctor stores => do
    let a ← evalAs env asked ctor
    storesAs env a stores
    return a
  | .copy source => do
    let a ← evalAs env [] source
    Run.callNamed Host.copySequence [a]
  | .get source index => do
    let a ← evalAs env [] source
    let i ← evalAs env [] index
    Run.primitive ((D.runtime calls).arrayRef a i)
  | .op kind family args =>
    match kind.operation? family with
    | none => throw .stuck
    | some .concat => do
      let vs ← evalAllAs env [] args
      Run.primitive ((D.runtime calls).concat vs)
    | some (.host name) => do
      let vs ← evalAllAs env [] args
      Run.callNamed name vs
    | some (.fold i) => chainAs env i args
    | some (.foldNot i) => do
      let v ← chainAs env i args
      Run.primitive ((D.runtime calls).unary .not v)
  | .unary kind family arg =>
    match kind, family with
    | .neg, .int | .neg, .float => do
      let v ← evalAs env [] arg
      Run.primitive ((D.runtime calls).unary .negate v)
    | .bitNot, .int => do
      let v ← evalAs env [] arg
      Run.callNamed Host.bitNot [v]
    | _, _ => throw .stuck
  | .not arg => do
    let v ← evalAs env [] arg
    Run.primitive ((D.runtime calls).unary .not v)
  | .and left right => do
    let v ← evalAs env [] left
    if D.host.isNil v then return v else evalAs env [] right
  | .or left right => do
    let v ← evalAs env [] left
    if D.host.isNil v then evalAs env [] right else return v
  | .call name args =>
    if name = Host.funcall then funcallAs env asked args
    else do
      let vs ← evalAllAs env (paramKinds (D.package.find? name)) args
      Run.callNamed name vs
  | .dynCall callee args => do
    let target ← evalAs env [] callee
    let vs ← evalAllAs env (paramKinds (D.callee? target)) args
    callValue asked args target vs
  -- the others have no parts that are evaluated
  | f => evalValue (D.runtime calls) env f

def evalAllAs (env : List (String × D.host.Value)) (kinds : List Kind) :
    List Form → Run (D.runtime calls) (List D.host.Value)
  | [] => return []
  | f :: fs => do
    let v ← evalAs env (kinds.take 1) f
    let vs ← evalAllAs env kinds.tail fs
    return v :: vs

/-- A call of a function value that the host is asked for by name. -/
def funcallAs (env : List (String × D.host.Value)) (asked : List Kind) :
    List Form → Run (D.runtime calls) D.host.Value
  | [] => do
    require (fun _ => !asked.tail.any Kind.isArray) .kinds
    Run.callNamed Host.funcall []
  | callee :: args => do
    let target ← evalAs env [] callee
    let vs ← evalAllAs env (paramKinds (D.callee? target)) args
    callValue asked args target vs

def chainAs (env : List (String × D.host.Value)) (i : BinaryInstr) :
    List Form → Run (D.runtime calls) D.host.Value
  | [] => throw .stuck
  | f :: fs => do
    let v ← evalAs env [] f
    chainRestAs env i v fs

def chainRestAs (env : List (String × D.host.Value)) (i : BinaryInstr) (left : D.host.Value) :
    List Form → Run (D.runtime calls) D.host.Value
  | [] => return left
  | f :: fs => do
    let right ← evalAs env [] f
    let v ← Run.primitive ((D.runtime calls).binary i left right)
    chainRestAs env i v fs

def storesAs (env : List (String × D.host.Value)) (a : D.host.Value) :
    List (Int64 × Form) → Run (D.runtime calls) Unit
  | [] => return ()
  | (index, f) :: rest => do
    let v ← evalAs env [] f
    Run.primitive ((D.runtime calls).arraySet a (D.host.constant (.int index)) v)
    storesAs env a rest
end

def valueOf (asked : List Kind) (f : Form) : Run (D.runtime calls) D.host.Value := do
  let fr ← frame
  evalAs fr.env asked f

/-- Leaves a block: the variables that were bound in it end. -/
def inBlock (x : Run (D.runtime calls) (Flow D.host.Value)) :
    Run (D.runtime calls) (Flow D.host.Value) := do
  let outer ← frame
  let flow ← x
  let inner ← frame
  setFrame (lowest outer.length inner)
  return flow

/-- Stores a value into the latest variable of a name, which has the kind that the source gives it
there, or into a dynamic variable if there is none. -/
def assign (name : String) (kind : Kind) (v : D.host.Value) : Run (D.runtime calls) Unit := do
  let fr ← frame
  match fr.find? name with
  | some x => do
    require (fun _ => x.kind = kind) .kinds
    setFrame (fr.update name v)
  | none => Run.writeVar name v

/-- Evaluates further results and stores each in its variable; tells what is stored where. -/
def storeResults (env : List (String × D.host.Value)) :
    List Kind → List String → List Form → Run (D.runtime calls) (List (String × D.host.Value))
  | _, _, [] => return []
  | _, [], _ :: _ => throw .stuck
  | kinds, var :: vars, f :: fs => do
    let v ← evalAs env (kinds.take 1) f
    Run.writeVar var v
    let stored ← storeResults env kinds.tail vars fs
    return (var, v) :: stored

def yieldAs (env : List (String × D.host.Value)) (asked : List Kind) (results : List Form) :
    Run (D.runtime calls) (Flow D.host.Value) :=
  match results with
  | [] => return .ret (D.host.constant (.symbol Host.nil))
  | first :: rest => do
    let v ← evalAs env (asked.take 1) first
    let stored ← storeResults env asked.tail Host.resultVars rest
    require (fun vars => stored.all fun (var, u) => vars var = u) .lostResult
    return .ret v

/-- Rounds of a loop: the test, then the body and what stands after it. -/
def rounds (test : Run (D.runtime calls) D.host.Value)
    (body post : Run (D.runtime calls) (Flow D.host.Value)) :
    Nat → Run (D.runtime calls) (Flow D.host.Value)
  | 0 => throw .timeout
  | n + 1 => do
    let c ← test
    if D.host.isNil c then return .next
    else
      match ← body with
      | .ret v => return .ret v
      | .breakLoop => return .next
      | _ =>
        match ← post with
        | .next => rounds test body post n
        | .ret v => return .ret v
        | _ => throw .stuck

mutual
def exec : TypedForm → Run (D.runtime calls) (Flow D.host.Value)
  | .block body => inBlock (execAll body)
  | .branch cond body els => do
    let c ← valueOf [] cond
    if D.host.isNil c then
      match els with
      | none => return .next
      | some other => exec other
    else inBlock (execAll body)
  | .loop cond body post =>
    rounds (valueOf [] cond) (inBlock (execAll body))
      (match post with
        | none => return .next
        | some after => exec after)
      D.fuel
  | .bind asked name kind init => do
    let v ← valueOf asked init
    let fr ← frame
    setFrame (⟨name, kind, v⟩ :: fr)
    return .next
  | .rebind asked name kind value => do
    let v ← valueOf asked value
    assign name kind v
    return .next
  | .set asked target index value => do
    let a ← valueOf [] target
    let i ← valueOf [] index
    let v ← valueOf asked value
    Run.primitive ((D.runtime calls).arraySet a i v)
    return .next
  | .ret asked results => do
    let fr ← frame
    yieldAs fr.env asked results
  | .breakLoop => return .breakLoop
  | .continueLoop => return .continueLoop
  | .value asked f _ => do
    let _ ← valueOf asked f
    return .next

def execAll : List TypedForm → Run (D.runtime calls) (Flow D.host.Value)
  | [] => return .next
  | t :: ts => do
    match ← exec t with
    | .next => execAll ts
    | flow => return flow
end

/-- The value that a body returns. A function with several results has to return. -/
def execBody (f : Function) (body : List TypedForm) : Run (D.runtime calls) D.host.Value := do
  match ← execAll body with
  | .next => do
    require (fun _ => f.results.length ≤ 1) .kinds
    return D.host.constant (.symbol Host.nil)
  | .ret v => return v
  | _ => throw .stuck

def entered (f : Function) (args : List D.host.Value) (s : Store D.host.Value (Memory D.host)) :
    World (D.runtime calls) :=
  ⟨{ s with heap := s.heap.withFrames (Frame.ofArgs f.params args :: s.heap.frames) }, []⟩

/-- How a call from a store ends, in which its own variables end. -/
def leave (s : Store D.host.Value (Memory D.host)) :
    EStateM.Result Stop (World (D.runtime calls)) D.host.Value →
      EStateM.Result Unit (Store D.host.Value (Memory D.host)) D.host.Value
  | .ok v w => .ok v ⟨w.store.vars, { w.store.heap with frames := s.heap.frames }⟩
  | .error _ w => .error () w.store

end

/-- Calls a function of the package, whose body calls others through `calls`. -/
def enter (D : Deployment) (calls : D.Calls) : D.Calls := fun f args s =>
  match TypedForm.ofStmts D.environment f.results false f.body with
  | .error _ => .error () s
  | .ok body =>
    if f.params.length = args.length then
      leave s ((execBody f body : Run (D.runtime calls) _) (entered f args s))
    else .error () s

/-- Calls a function of the package; calls are nested at most `depth` deep. -/
def call (D : Deployment) : Nat → D.Calls
  | 0 => fun _ _ s => .error () s
  | depth + 1 => D.enter (D.call depth)

/-- A store of the host where no function of the package is running. -/
def start {D : Deployment} (s : Store D.host.Value D.host.Heap) :
    Store D.host.Value (Memory D.host) :=
  ⟨s.vars, ⟨s.heap, [], [], [], false⟩⟩

/-- The moments of a run, whether or not it returns. -/
def moments (D : Deployment) (depth : Nat) (f : Function) (args : List D.host.Value)
    (s : Store D.host.Value D.host.Heap) : List (Moment D.host.Value) :=
  (finalState (D.call depth f args (start s))).heap.moments

/-! ### Runs without a record -/

abbrev PlainCalls (D : Deployment) :=
  Function → List D.host.Value → Action D.host.Value D.host.Heap D.host.Value

abbrev plainRuntime (D : Deployment) (plain : D.PlainCalls) : Runtime :=
  { D.host with call := fun f args => D.dispatch plain (D.host.call f args) f args }

/-- Calls a function of the package by evaluating its block. -/
def plainEnter (D : Deployment) (plain : D.PlainCalls) : D.PlainCalls := fun f args s =>
  match Block.ofFunction D.environment f with
  | .error _ => .error () s
  | .ok body =>
    if f.params.length = args.length then
      match evalBody (D.plainRuntime plain) D.fuel (f.params.map Param.name) body args ⟨s, []⟩ with
      | .ok v w => .ok v w.store
      | .error _ w => .error () w.store
    else .error () s

def plainCall (D : Deployment) : Nat → D.PlainCalls
  | 0 => fun _ _ s => .error () s
  | depth + 1 => D.plainEnter (D.plainCall depth)

end Deployment

end StackCompiler
