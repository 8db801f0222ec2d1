import Mathlib.Data.Set.Function
import StackCompiler.Proofs.Visibility

/-!
Other names for variables. Forms, static stacks and assemblies are renamed alike, and constructions
from an assembly and from the renamed one are held against each other: `Mirrored` says that both
fail, or both end with assemblies that differ only in the names of slots. Most steps do not look at
names at all and mirror themselves.
-/

namespace StackCompiler

open Source

/-! ### Forms with other names -/

mutual
/-- The form with other names for variables. -/
def Form.rename (ρ : String → String) : Form → Form
  | .var name => .var (ρ name)
  | .bind name init => .bind (ρ name) (init.rename ρ)
  | .rebind name value => .rebind (ρ name) (value.rename ρ)
  | .array elems => .array (renameAll ρ elems)
  | .sparseArray ctor stores => .sparseArray (ctor.rename ρ) (renameStores ρ stores)
  | .block body => .block (renameAll ρ body)
  | .branch cond body els => .branch (cond.rename ρ) (renameAll ρ body) (renameOption ρ els)
  | .loop cond body post => .loop (cond.rename ρ) (renameAll ρ body) (renameOption ρ post)
  | .ret results => .ret (renameAll ρ results)
  | .op kind family args => .op kind family (renameAll ρ args)
  | .unary kind family arg => .unary kind family (arg.rename ρ)
  | .not arg => .not (arg.rename ρ)
  | .and left right => .and (left.rename ρ) (right.rename ρ)
  | .or left right => .or (left.rename ρ) (right.rename ρ)
  | .call name args => .call name (renameAll ρ args)
  | .dynCall callee args => .dynCall (callee.rename ρ) (renameAll ρ args)
  | .copy source => .copy (source.rename ρ)
  | .get source index => .get (source.rename ρ) (index.rename ρ)
  | .set target index value => .set (target.rename ρ) (index.rename ρ) (value.rename ρ)
  | f => f

def Form.renameAll (ρ : String → String) : List Form → List Form
  | [] => []
  | f :: fs => f.rename ρ :: renameAll ρ fs

def Form.renameStores (ρ : String → String) : List (Int64 × Form) → List (Int64 × Form)
  | [] => []
  | (index, f) :: rest => (index, f.rename ρ) :: renameStores ρ rest

def Form.renameOption (ρ : String → String) : Option Form → Option Form
  | none => none
  | some f => some (f.rename ρ)
end

mutual
def Form.variables : Form → List String
  | .var name => [name]
  | .bind name f | .rebind name f => name :: f.variables
  | .array fs | .block fs | .ret fs | .op _ _ fs | .call _ fs => variablesAll fs
  | .sparseArray ctor stores => ctor.variables ++ variablesStores stores
  | .branch cond body f | .loop cond body f =>
    cond.variables ++ variablesAll body ++ variablesOption f
  | .unary _ _ f | .not f | .copy f => f.variables
  | .and f g | .or f g | .get f g => f.variables ++ g.variables
  | .dynCall callee args => callee.variables ++ variablesAll args
  | .set f g h => f.variables ++ g.variables ++ h.variables
  | .bool _ | .char _ | .int _ | .float _ | .str _ | .symbol _ | .breakLoop | .continueLoop
  | .resultRef _ => []

def Form.variablesAll : List Form → List String
  | [] => []
  | f :: fs => f.variables ++ variablesAll fs

def Form.variablesStores : List (Int64 × Form) → List String
  | [] => []
  | (_, f) :: rest => f.variables ++ variablesStores rest

def Form.variablesOption : Option Form → List String
  | none => []
  | some f => f.variables
end

mutual
/-- Whether every variable that is read or set in a form is in scope there, wherever in the form it
is. Only a binding of a block puts a variable in scope. -/
def Form.isClosed (visible : Scope) : Form → Bool
  | .var name => visible name
  | .bind _ init => init.isClosed visible
  | .rebind name value => visible name && value.isClosed visible
  | .block body => areClosed visible body
  | .branch cond body f | .loop cond body f =>
    cond.isClosed visible && areClosed visible body && isClosed? visible f
  | .array fs | .ret fs | .op _ _ fs | .call _ fs => allClosed visible fs
  | .sparseArray ctor stores => ctor.isClosed visible && storesClosed visible stores
  | .unary _ _ f | .not f | .copy f => f.isClosed visible
  | .and f g | .or f g | .get f g => f.isClosed visible && g.isClosed visible
  | .dynCall callee args => callee.isClosed visible && allClosed visible args
  | .set f g h => f.isClosed visible && g.isClosed visible && h.isClosed visible
  | .bool _ | .char _ | .int _ | .float _ | .str _ | .symbol _ | .breakLoop | .continueLoop
  | .resultRef _ => true

/-- Whether the forms of a block are closed, each in the scope of the bindings before it. -/
def areClosed (visible : Scope) : List Form → Bool
  | [] => true
  | f :: fs => f.isClosed visible && areClosed (visible.bind f.bound) fs

def allClosed (visible : Scope) : List Form → Bool
  | [] => true
  | f :: fs => f.isClosed visible && allClosed visible fs

def storesClosed (visible : Scope) : List (Int64 × Form) → Bool
  | [] => true
  | (_, f) :: rest => f.isClosed visible && storesClosed visible rest

def isClosed? (visible : Scope) : Option Form → Bool
  | none => true
  | some f => f.isClosed visible
end

section Shape

variable (ρ : String → String)

theorem renameAll_eq_map (fs : List Form) : Form.renameAll ρ fs = fs.map (Form.rename ρ) := by
  induction fs with
  | nil => rfl
  | cons f fs ih => rw [Form.renameAll, List.map_cons, ih]

@[simp] theorem length_renameAll (fs : List Form) : (Form.renameAll ρ fs).length = fs.length := by
  rw [renameAll_eq_map, List.length_map]

@[simp] theorem locals_renameAll (fs : List Form) :
    Block.locals (Form.renameAll ρ fs) = Block.locals fs := by
  have hbind : Form.isBind ∘ Form.rename ρ = Form.isBind := by
    funext f
    cases f <;> rfl
  rw [Block.locals, renameAll_eq_map, List.countP_map, hbind, Block.locals]

theorem find?_clashesWith_renameAll (fs : List Form) (family : Family) :
    (Form.renameAll ρ fs).find? (·.clashesWith family) =
      (fs.find? (·.clashesWith family)).map (Form.rename ρ) := by
  have hclashes : (·.clashesWith family) ∘ Form.rename ρ = (·.clashesWith family) := by
    funext f
    cases f <;> rfl
  rw [renameAll_eq_map, List.find?_map, hclashes]

mutual
theorem terminates_rename (functions : SignatureTable) (f : Form) :
    (f.rename ρ).terminates functions = f.terminates functions := by
  cases f with
  | block body => exact lastTerminates_renameAll functions body
  | _ => rfl
termination_by structural f

@[simp] theorem lastTerminates_renameAll (functions : SignatureTable) (fs : List Form) :
    lastTerminates functions (Form.renameAll ρ fs) = lastTerminates functions fs := by
  match fs with
  | [] => rfl
  | [f] => exact terminates_rename functions f
  | _ :: g :: fs => exact lastTerminates_renameAll functions (g :: fs)
termination_by structural fs
end

@[simp] theorem endsInReturn_renameAll (fs : List Form) :
    endsInReturn (Form.renameAll ρ fs) = endsInReturn fs := by
  rw [endsInReturn, endsInReturn, renameAll_eq_map, List.getLast?_map]
  cases fs.getLast? with
  | none => rfl
  | some f => cases f <;> rfl

end Shape

/-! ### Slots with other names -/

namespace Slots

variable {ρ : String → String}

def renamed (ρ : String → String) (s : Slots) : Slots where
  names := s.names.map (Option.map ρ)
  depth := s.depth
  maxDepth := s.maxDepth
  depth_eq := by rw [List.length_map, s.depth_eq]

theorem pop_renamed (s : Slots) (count : Nat) :
    (s.renamed ρ).pop count = (s.pop count).map (renamed ρ) := by
  by_cases h : count ≤ s.depth
  · simp only [pop, renamed, h, if_true, Except.map, List.map_drop]
  · simp only [pop, renamed, h, if_false, Except.map]

theorem push_renamed (s : Slots) (count : Nat) :
    (s.renamed ρ).push count = (s.push count).renamed ρ := by
  simp [push, renamed]

theorem pushNamed_renamed (s : Slots) (name : String) :
    (s.renamed ρ).pushNamed (ρ name) = (s.pushNamed name).renamed ρ := by
  simp [pushNamed, renamed]

theorem rename?_renamed (s : Slots) (name : Option String) :
    (s.renamed ρ).rename? (name.map ρ) = (s.rename? name).map (renamed ρ) := by
  obtain ⟨_ | ⟨top, rest⟩, depth, maxDepth, hdepth⟩ := s
  · rfl
  · rfl

theorem bind_renamed (s : Slots) (name : String) :
    (s.renamed ρ).bind (ρ name) = (s.bind name).map (renamed ρ) := by
  have hrename := rename?_renamed (ρ := ρ) s (some name)
  simp only [bind, show (s.renamed ρ).rename? (some (ρ name)) = _ from hrename]
  cases s.rename? (some name) <;> rfl

theorem unbindTop_renamed (s : Slots) :
    (s.renamed ρ).unbindTop = s.unbindTop.map (renamed ρ) := by
  have hrename := rename?_renamed (ρ := ρ) s none
  simp only [unbindTop, show (s.renamed ρ).rename? none = _ from hrename]
  cases s.rename? none <;> rfl

/-- Different variables stay different, so that the same slot is found. -/
theorem find?_renamed {N : Set String} (hinj : Set.InjOn ρ N) {s : Slots}
    (hs : ∀ name, some name ∈ s.names → name ∈ N) {name : String} (hname : name ∈ N) :
    (s.renamed ρ).find? (ρ name) = s.find? name := by
  have hslot : ∀ slot ∈ s.names, (slot.map ρ == some (ρ name)) = (slot == some name) := by
    intro slot hslot
    rw [Bool.eq_iff_iff, beq_iff_eq, beq_iff_eq]
    cases slot with
    | none => simp
    | some other => simpa using hinj.eq_iff (hs other hslot) hname
  -- slot by slot from the top, both find it or both go on
  simp only [find?, renamed]
  generalize s.names = names at hslot
  induction names with
  | nil => rfl
  | cons slot rest ih =>
      rw [List.forall_mem_cons] at hslot
      rw [List.map_cons, List.findIdx?_cons, List.findIdx?_cons, hslot.1, ih hslot.2]

end Slots

namespace Assembly

def renamed (ρ : String → String) (s : Assembly) : Assembly :=
  { s with slots := s.slots.renamed ρ }

def Within (N : Set String) (s : Assembly) : Prop :=
  ∀ name, some name ∈ s.slots.names → name ∈ N

end Assembly

/-! ### Constructions that mirror each other -/

/-- Two outcomes: both are errors, or they have the same value and assemblies that differ only in
the names of variables. Errors may show forms, so nothing more is said of them. -/
inductive Mirrors (ρ : String → String) (N : Set String) {α : Type} :
    EStateM.Result CompileError Assembly α → EStateM.Result CompileError Assembly α → Prop where
  | ok {a : α} {t : Assembly} (h : t.Within N) : Mirrors ρ N (.ok a t) (.ok a (t.renamed ρ))
  | error {e e' : CompileError} {t t' : Assembly} : Mirrors ρ N (.error e t) (.error e' t')

def Mirrored (ρ : String → String) (N : Set String) {α : Type} (s : Assembly) (x x' : Emit α) :
    Prop :=
  Mirrors ρ N (x s) (x' (s.renamed ρ))

/-- A construction that does not look at the names of variables. -/
def Blind (ρ : String → String) (N : Set String) {α : Type} (x : Emit α) : Prop :=
  ∀ s : Assembly, s.Within N → Mirrored ρ N s x x

section

variable {ρ : String → String} {N : Set String} {α β : Type} {s : Assembly}

theorem Mirrored.bind {x x' : Emit α} {f f' : α → Emit β} (hx : Mirrored ρ N s x x')
    (hf : ∀ a t, x s = .ok a t → t.Within N → Mirrored ρ N t (f a) (f' a)) :
    Mirrored ρ N s (x >>= f) (x' >>= f') := by
  unfold Mirrored at hx ⊢
  generalize hr : x s = r, hr' : x' (s.renamed ρ) = r' at hx
  rcases hx with hwithin | _
  · rw [bind_of_ok hr, bind_of_ok hr']
    exact hf _ _ hr hwithin
  · rw [bind_of_error hr, bind_of_error hr']
    exact .error

theorem Mirrored.throw (e e' : CompileError) :
    Mirrored ρ N s (MonadExcept.throw e : Emit α) (MonadExcept.throw e') :=
  .error

theorem Mirrored.onSlots {g g' : Slots → Except Fault Slots}
    (hrenamed : g' (s.slots.renamed ρ) = (g s.slots).map (Slots.renamed ρ))
    (hwithin : ∀ t, Emit.onSlots g s = .ok () t → t.Within N) :
    Mirrored ρ N s (Emit.onSlots g) (Emit.onSlots g') := by
  simp only [Mirrored, Emit.onSlots, Assembly.renamed, hrenamed] at hwithin ⊢
  cases hslots : g s.slots with
  | error e => exact .error
  | ok slots =>
      rw [hslots] at hwithin
      exact .ok (hwithin _ rfl)

namespace Blind

theorem bind {x : Emit α} {f : α → Emit β} (hx : Blind ρ N x) (hf : ∀ a, Blind ρ N (f a)) :
    Blind ρ N (x >>= f) :=
  fun s hs => (hx s hs).bind fun a t _ ht => hf a t ht

theorem pure (a : α) : Blind ρ N (Pure.pure a : Emit α) :=
  fun _ hs => .ok hs

theorem throw (e : CompileError) : Blind ρ N (MonadExcept.throw e : Emit α) :=
  fun _ _ => .error

/-- A change that has nothing to do with names. -/
theorem change {g : Assembly → Assembly} (hrenamed : ∀ s, g (s.renamed ρ) = (g s).renamed ρ)
    (hwithin : ∀ s : Assembly, s.Within N → (g s).Within N) :
    Blind ρ N (modify g : Emit Unit) := by
  intro s hs
  show Mirrors ρ N (.ok () (g s)) (.ok () (g (s.renamed ρ)))
  rw [hrenamed]
  exact .ok (hwithin s hs)

theorem append (i : Instr) : Blind ρ N (Emit.append i) :=
  change (fun _ => rfl) fun _ hs => hs

theorem pop (count : Nat) : Blind ρ N (Emit.onSlots (·.pop count)) := by
  intro s hs
  refine .onSlots (s.slots.pop_renamed count) fun t ht name hname => hs name ?_
  obtain ⟨slots, rfl, -, hnames, -⟩ := Emit.discardModel_ok ht
  rw [show (_ : Assembly).slots.names = _ from hnames] at hname
  exact List.mem_of_mem_drop hname

theorem push (count : Nat) :
    Blind ρ N (modify fun s => { s with slots := s.slots.push count } : Emit Unit) := by
  refine change (fun s => ?_) fun s hs name hname => hs name ?_
  · simp only [Assembly.renamed, Slots.push_renamed]
  · simpa [Slots.push] using hname

theorem unbindTop : Blind ρ N Emit.unbindTop := by
  intro s hs
  refine .onSlots s.slots.unbindTop_renamed fun t ht name hname => hs name ?_
  obtain ⟨slots, old, rest, rfl, hold, hnew, -⟩ := Emit.unbindTop_ok ht
  rw [show (_ : Assembly).slots.names = _ from hnew] at hname
  rw [hold]
  exact List.mem_cons_of_mem _ (List.mem_of_ne_of_mem (by simp) hname)

theorem onLabels (g : LabelTable → Except Fault LabelTable) : Blind ρ N (Emit.onLabels g) := by
  intro s hs
  simp only [Mirrored, Emit.onLabels, Assembly.renamed]
  cases g s.labels with
  | error e => exact .error
  | ok labels => exact .ok hs

theorem instr (i : Instr) : Blind ρ N (Emit.instr i) := by
  refine .bind (.pop i.pops) fun _ => .bind (.push i.pushes) fun _ => ?_
  cases i.label? with
  | none => exact .append i
  | some l => exact .bind (.onLabels _) fun _ => .append i

theorem word (r : Resource) (n : Nat) : Blind ρ N (Emit.word r n) := by
  unfold Emit.word
  split
  · exact .pure _
  · exact .throw _

theorem byte (r : Resource) (n : Nat) : Blind ρ N (Emit.byte r n) := by
  unfold Emit.byte
  split
  · exact .pure _
  · exact .throw _

theorem discard (count : Nat) : Blind ρ N (Emit.discard count) := by
  unfold Emit.discard
  split
  · exact .pure _
  · exact .bind (.word _ _) fun _ => .instr _

theorem poolIndex (c : Constant) : Blind ρ N (Emit.poolIndex c) := by
  have hadd : Blind ρ N (Emit.addConstant c) := fun s hs => .ok hs
  exact .bind hadd fun _ => .word _ _

theorem constant (c : Constant) : Blind ρ N (Emit.constant c) :=
  .bind (.poolIndex c) fun _ => .instr _

theorem dynamicRef (name : String) : Blind ρ N (Emit.dynamicRef name) :=
  .bind (.poolIndex _) fun _ => .instr _

theorem dynamicSet (name : String) : Blind ρ N (Emit.dynamicSet name) :=
  .bind (.poolIndex _) fun _ => .instr _

theorem call (args : Nat) : Blind ρ N (Emit.call args) :=
  .bind (.byte _ _) fun _ => .instr _

theorem concat (count : Nat) : Blind ρ N (Emit.concat count) :=
  .bind (.byte _ _) fun _ => .instr _

theorem newLabel (name : String) : Blind ρ N (Emit.newLabel name) :=
  fun _ hs => .ok hs

theorem bindLabel (l : Label) : Blind ρ N (Emit.bindLabel l) :=
  fun s hs => onLabels (·.bind l s.code.size) s hs

theorem enterLoop (l : Option Label) : Blind ρ N (Emit.enterLoop l) :=
  change (fun _ => rfl) fun _ hs => hs

theorem currentLoop? : Blind ρ N Emit.currentLoop? :=
  fun _ hs => .ok hs

theorem pendingContinue : Blind ρ N Emit.pendingContinue :=
  .bind .currentLoop? fun _ => .pure _

theorem exitLoop : Blind ρ N Emit.exitLoop := by
  refine .bind (fun s hs => ?_) fun c => ?_
  · simp only [Mirrored, Emit.closeLoop, Assembly.renamed]
    cases s.loops.exit? with
    | none => exact .error
    | some closed => exact .ok hs
  · cases c.breakLabel with
    | none => exact .pure _
    | some l => exact .bindLabel l

theorem loopLabel (j : LoopJump) (c : LoopContext) : Blind ρ N (Emit.loopLabel j c) := by
  unfold Emit.loopLabel
  split
  · exact .pure _
  · refine .bind (.newLabel _) fun l => .bind ?_ fun _ => .pure _
    exact change (fun _ => rfl) fun _ hs => hs

theorem leaveTo (target : Nat) (l : Label) : Blind ρ N (Emit.leaveTo target l) := by
  have hdepth : Blind ρ N Emit.depth := fun s hs => .ok hs
  refine .bind hdepth fun present => ?_
  split
  · exact .throw _
  · split
    · exact .instr _
    · exact .bind (.word _ _) fun n => .bind (.append _) fun _ => .instr _

theorem loopJump (j : LoopJump) : Blind ρ N (Emit.loopJump j) := by
  refine .bind .currentLoop? fun loop? => ?_
  cases loop? with
  | none => exact .throw _
  | some c => exact .bind (.loopLabel j c) fun l => .leaveTo _ l

theorem endCall (functions : SignatureTable) (name : String) (args : Nat) :
    Blind ρ N (endCall functions name args) := by
  refine .bind (.call args) fun _ => ?_
  cases functions.convention name with
  | never => exact .bind (.pop 1) fun _ => .pure _
  | void => exact .bind (.discard 1) fun _ => .pure _
  | value => exact .pure _

theorem emitResultRef (index : Nat) : Blind ρ N (emitResultRef index) := by
  unfold StackCompiler.emitResultRef
  split
  · exact .throw _
  · split
    · exact .dynamicRef _
    · exact .throw _

end Blind

end

end StackCompiler
