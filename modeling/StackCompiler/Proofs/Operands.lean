import StackCompiler.Proofs.Evaluation
import StackCompiler.Proofs.Parts

/-!
Values as compiled code computes them. The code keeps its operands on the stack, and a copy of a
variable that lies there is read again in place of the variable. So evaluation depends on the
operands below, each with the name of its slot. Where every variable that a form reads is bound, a
copy never differs from what it was copied from, and evaluation on the stack is plain evaluation.
-/

namespace StackCompiler

/-- The variable whose copy the slot of a value counts as. -/
def Form.slotName : Form → Option String
  | .var name => some name
  | .sparseArray ctor _ => ctor.slotName
  | _ => none

/-- The values on the stack with the names of their slots, the topmost first. -/
abbrev Operands (R : Runtime) := List (Option String × R.Value)

namespace Operands

variable {R : Runtime}

def names (σ : Operands R) : List (Option String) :=
  σ.map Prod.fst

def values (σ : Operands R) : List R.Value :=
  σ.map Prod.snd

@[simp] theorem names_cons (name : Option String) (v : R.Value) (σ : Operands R) :
    names ((name, v) :: σ) = name :: names σ := rfl

@[simp] theorem values_cons (name : Option String) (v : R.Value) (σ : Operands R) :
    values ((name, v) :: σ) = v :: values σ := rfl

end Operands

section

variable (R : Runtime) (lit : Constant → R.Value)

mutual
/-- The value of a form on top of operands. Constants have the values that `lit` gives them. -/
def stackValue : Operands R → Form → Run R R.Value
  | _, .bool b => return lit (.symbol (if b then Host.truth else Host.nil))
  | _, .char c => return lit (.int (.ofNat c.toNat))
  | _, .int v => return lit (.int v)
  | _, .float x => return lit (.float x)
  | _, .str s => return lit (.str s)
  | _, .symbol name => return lit (.symbol name)
  | σ, .var name =>
    match σ.lookup (some name) with
    | some v => return v
    | none => Run.readVar name
  | σ, .array elems => do
    let vs ← stackValues ((none, lit (.symbol Host.vector)) :: σ) elems
    Run.call (lit (.symbol Host.vector)) vs
  | σ, .sparseArray ctor stores => do
    let a ← stackValue σ ctor
    stackStores σ ctor.slotName a stores
    return a
  | σ, .copy source => do
    let a ← stackValue ((none, lit (.symbol Host.copySequence)) :: σ) source
    Run.call (lit (.symbol Host.copySequence)) [a]
  | σ, .get source index => do
    let a ← stackValue σ source
    let i ← stackValue ((source.slotName, a) :: σ) index
    Run.primitive (R.arrayRef a i)
  | σ, .op kind family args =>
    match kind.operation? family with
    | none => throw .stuck
    | some .concat => do
      let vs ← stackValues σ args
      Run.primitive (R.concat vs)
    | some (.host name) => do
      let vs ← stackValues ((none, lit (.symbol name)) :: σ) args
      Run.call (lit (.symbol name)) vs
    | some (.fold i) => stackChain σ i args
    | some (.foldNot i) => do
      let v ← stackChain σ i args
      Run.primitive (R.unary .not v)
  | σ, .unary kind family arg =>
    match kind, family with
    | .neg, .int | .neg, .float => do
      let v ← stackValue σ arg
      Run.primitive (R.unary .negate v)
    | .bitNot, .int => do
      let v ← stackValue ((none, lit (.symbol Host.bitNot)) :: σ) arg
      Run.call (lit (.symbol Host.bitNot)) [v]
    | _, _ => throw .stuck
  | σ, .not arg => do
    let v ← stackValue σ arg
    Run.primitive (R.unary .not v)
  | σ, .and left right => do
    let v ← stackValue σ left
    if R.isNil v then return v else stackValue σ right
  | σ, .or left right => do
    let v ← stackValue σ left
    if R.isNil v then stackValue σ right else return v
  | σ, .call name args => do
    let vs ← stackValues ((none, lit (.symbol name)) :: σ) args
    Run.call (lit (.symbol name)) vs
  | σ, .dynCall callee args => do
    let f ← stackValue ((none, lit (.symbol Host.funcall)) :: σ) callee
    let vs ← stackValues ((callee.slotName, f) :: (none, lit (.symbol Host.funcall)) :: σ) args
    Run.call (lit (.symbol Host.funcall)) (f :: vs)
  | _, .resultRef index =>
    match Host.resultVar? index with
    | some var => Run.readVar var
    | none => throw .stuck
  | _, .block _ | _, .branch _ _ _ | _, .loop _ _ _ | _, .ret _ | _, .breakLoop
  | _, .continueLoop | _, .bind _ _ | _, .rebind _ _ | _, .set _ _ _ => throw .stuck

/-- The values of forms, each on top of those before it. -/
def stackValues : Operands R → List Form → Run R (List R.Value)
  | _, [] => return []
  | σ, f :: fs => do
    let v ← stackValue σ f
    let vs ← stackValues ((f.slotName, v) :: σ) fs
    return v :: vs

def stackChain : Operands R → BinaryInstr → List Form → Run R R.Value
  | _, _, [] => throw .stuck
  | σ, i, f :: fs => do
    let v ← stackValue σ f
    stackChainRest σ i f.slotName v fs

def stackChainRest : Operands R → BinaryInstr → Option String → R.Value → List Form → Run R R.Value
  | _, _, _, left, [] => return left
  | σ, i, name, left, f :: fs => do
    let right ← stackValue ((name, left) :: σ) f
    let v ← Run.primitive (R.binary i left right)
    stackChainRest σ i none v fs

def stackStores : Operands R → Option String → R.Value → List (Int64 × Form) → Run R Unit
  | _, _, _, [] => return ()
  | σ, name, a, (index, f) :: rest => do
    let v ← stackValue ((none, lit (.int index)) :: (none, a) :: (name, a) :: σ) f
    Run.primitive (R.arraySet a (lit (.int index)) v)
    stackStores σ name a rest
end

end

section Agreement

variable {R : Runtime} {lit : Constant → R.Value} {env : Env R}

/-- A variable is bound, and a read on the stack finds the value that it is bound to. -/
def Visible (σ : Operands R) (env : Env R) (name : String) : Prop :=
  ∃ v, σ.lookup (some name) = some v ∧ env.lookup name = some v

theorem Visible.push {σ : Operands R} {name : String} (h : Visible σ env name)
    {slot : Option String} {v : R.Value} (hslot : ∀ x, slot = some x → env.lookup x = some v) :
    Visible ((slot, v) :: σ) env name := by
  obtain ⟨value, hσ, henv⟩ := h
  cases slot with
  | none => exact ⟨value, by simpa [List.lookup_cons] using hσ, henv⟩
  | some x =>
      by_cases hx : name = x
      · subst hx
        exact ⟨v, by simp, hslot name rfl⟩
      · have hne : (some name == some x) = false := by simpa using hx
        exact ⟨value, by simpa [List.lookup_cons, hne] using hσ, henv⟩

/-- The value that is left in a slot with a name is that of the variable. -/
theorem lookup_of_slotName {f : Form} {x : String} (hname : f.slotName = some x)
    (hbound : ∀ y, .var y ∈ f.parts → (env.lookup y).isSome) {w w' : World R} {v : R.Value}
    (h : evalValue R env f w = .ok v w') : env.lookup x = some v := by
  induction f using Form.slotName.induct generalizing v w w' with
  | case1 name =>
      cases hname
      have hsome := hbound x (by simp [Form.parts])
      rw [evalValue] at h
      obtain ⟨u, hu⟩ := Option.isSome_iff_exists.1 hsome
      rw [hu] at h ⊢
      cases h
      rfl
  | case2 ctor stores ih =>
      rw [evalValue] at h
      obtain ⟨a, w₁, hctor, h⟩ := bind_eq_ok.1 h
      obtain ⟨_, w₂, -, h⟩ := bind_eq_ok.1 h
      cases h
      exact ih hname (fun y hy => hbound y (by simp [Form.parts, hy])) hctor
  | case3 f hvar hsparse =>
      cases f <;> simp_all [Form.slotName]

/-- A part of a form whose value on the stack needs no more than the environment: a variable that
is bound and visible, or a number that is loaded as it is written. -/
def Readable (lit : Constant → R.Value) (σ : Operands R) (env : Env R) : Form → Prop
  | .var name => Visible σ env name
  | .float x => lit (.float x) = R.constant (.float x)
  | _ => True

theorem Readable.push {σ : Operands R} {fs : List Form} (h : ∀ g ∈ fs, Readable lit σ env g)
    {slot : Option String} {v : R.Value} (hslot : ∀ x, slot = some x → env.lookup x = some v) :
    ∀ g ∈ fs, Readable lit ((slot, v) :: σ) env g := by
  intro g hg
  have hread := h g hg
  cases g with
  | var name => exact Visible.push hread hslot
  | float x => exact hread
  | _ => trivial

theorem Readable.pushNone {σ : Operands R} {fs : List Form} (h : ∀ g ∈ fs, Readable lit σ env g)
    (v : R.Value) : ∀ g ∈ fs, Readable lit ((none, v) :: σ) env g :=
  Readable.push h (by simp)

/-- The slot of a readable form holds what its name says. -/
theorem Readable.slot {σ : Operands R} {f : Form} (h : ∀ g ∈ f.parts, Readable lit σ env g)
    {w w' : World R} {v : R.Value} (hv : evalValue R env f w = .ok v w') (x : String)
    (hx : f.slotName = some x) : env.lookup x = some v := by
  refine lookup_of_slotName hx (fun y hy => ?_) hv
  obtain ⟨value, -, henv⟩ := h _ hy
  simp [henv]

def LoadsExactly (lit : Constant → R.Value) : Prop :=
  ∀ c, (∀ x, c ≠ .float x) → lit c = R.constant c

mutual
/-- Evaluation on the stack is plain evaluation if every part is readable. -/
theorem stackValue_eq (hlit : LoadsExactly lit) (f : Form) {σ : Operands R}
    (h : ∀ g ∈ f.parts, Readable lit σ env g) (w : World R) :
    stackValue R lit σ f w = evalValue R env f w := by
  have hsymbol : ∀ name, lit (.symbol name) = R.constant (.symbol name) :=
    fun name => hlit _ (by simp)
  cases f with
  | bool b => rw [stackValue, evalValue, hsymbol]
  | char c => rw [stackValue, evalValue, hlit _ (by simp)]
  | int v => rw [stackValue, evalValue, hlit _ (by simp)]
  | float x =>
      have hx : lit (.float x) = R.constant (.float x) := h (.float x) (by simp [Form.parts])
      rw [stackValue, evalValue, hx]
  | str s => rw [stackValue, evalValue, hlit _ (by simp)]
  | symbol name => rw [stackValue, evalValue, hsymbol]
  | var name =>
      -- copies that bear the name of the variable hold its value, so the latest of them will do
      obtain ⟨v, hσ, henv⟩ : Visible σ env name := h (.var name) (by simp [Form.parts])
      simp only [stackValue, evalValue, hσ, henv]
  | array elems =>
      simp only [Form.parts, List.forall_mem_cons] at h
      simp only [stackValue, evalValue, hsymbol, Run.callNamed]
      exact bind_congr_of_eq (stackValues_eq hlit elems (Readable.pushNone h.2 _) w)
        fun _ _ _ => rfl
  | sparseArray ctor stores =>
      simp only [Form.parts, List.forall_mem_cons, List.forall_mem_append] at h
      simp only [stackValue, evalValue]
      refine bind_congr_of_eq (stackValue_eq hlit ctor h.2.1 w) fun a w' ha => ?_
      have hslot := Readable.slot h.2.1 ha
      exact bind_congr_of_eq (stackStores_eq hlit stores h.2.2 hslot w') fun _ _ _ => rfl
  | copy source =>
      simp only [Form.parts, List.forall_mem_cons] at h
      simp only [stackValue, evalValue, hsymbol, Run.callNamed]
      exact bind_congr_of_eq (stackValue_eq hlit source (Readable.pushNone h.2 _) w)
        fun _ _ _ => rfl
  | get source index =>
      simp only [Form.parts, List.forall_mem_cons, List.forall_mem_append] at h
      simp only [stackValue, evalValue]
      refine bind_congr_of_eq (stackValue_eq hlit source h.2.1 w) fun a w' ha => ?_
      have hindex := Readable.push h.2.2 (Readable.slot h.2.1 ha)
      exact bind_congr_of_eq (stackValue_eq hlit index hindex w') fun _ _ _ => rfl
  | op kind family args =>
      simp only [Form.parts, List.forall_mem_cons] at h
      simp only [stackValue, evalValue]
      cases kind.operation? family with
      | none => rfl
      | some plan =>
          cases plan with
          | fold i => exact stackChain_eq hlit i args h.2 w
          | foldNot i => exact bind_congr_of_eq (stackChain_eq hlit i args h.2 w) fun _ _ _ => rfl
          | concat => exact bind_congr_of_eq (stackValues_eq hlit args h.2 w) fun _ _ _ => rfl
          | host name =>
              simp only [hsymbol, Run.callNamed]
              exact bind_congr_of_eq (stackValues_eq hlit args (Readable.pushNone h.2 _) w)
                fun _ _ _ => rfl
  | unary kind family arg =>
      simp only [Form.parts, List.forall_mem_cons] at h
      have harg := stackValue_eq hlit arg h.2 w
      cases kind with
      | neg =>
          cases family with
          | string => rfl
          | _ => exact bind_congr_of_eq harg fun _ _ _ => rfl
      | bitNot =>
          cases family with
          | int =>
              simp only [stackValue, evalValue, hsymbol, Run.callNamed]
              exact bind_congr_of_eq (stackValue_eq hlit arg (Readable.pushNone h.2 _) w)
                fun _ _ _ => rfl
          | _ => rfl
  | not arg =>
      simp only [Form.parts, List.forall_mem_cons] at h
      simp only [stackValue, evalValue]
      exact bind_congr_of_eq (stackValue_eq hlit arg h.2 w) fun _ _ _ => rfl
  | and left right =>
      simp only [Form.parts, List.forall_mem_cons, List.forall_mem_append] at h
      simp only [stackValue, evalValue]
      refine bind_congr_of_eq (stackValue_eq hlit left h.2.1 w) fun v w' _ => ?_
      split
      · rfl
      · exact stackValue_eq hlit right h.2.2 w'
  | or left right =>
      simp only [Form.parts, List.forall_mem_cons, List.forall_mem_append] at h
      simp only [stackValue, evalValue]
      refine bind_congr_of_eq (stackValue_eq hlit left h.2.1 w) fun v w' _ => ?_
      split
      · exact stackValue_eq hlit right h.2.2 w'
      · rfl
  | call name args =>
      simp only [Form.parts, List.forall_mem_cons] at h
      simp only [stackValue, evalValue, hsymbol, Run.callNamed]
      exact bind_congr_of_eq (stackValues_eq hlit args (Readable.pushNone h.2 _) w) fun _ _ _ => rfl
  | dynCall callee args =>
      simp only [Form.parts, List.forall_mem_cons, List.forall_mem_append] at h
      simp only [stackValue, evalValue, hsymbol, Run.callNamed]
      refine bind_congr_of_eq (stackValue_eq hlit callee (Readable.pushNone h.2.1 _) w)
        fun f w' hf => ?_
      have hargs := Readable.push (Readable.pushNone h.2.2 (R.constant (.symbol Host.funcall)))
        (Readable.slot h.2.1 hf)
      exact bind_congr_of_eq (stackValues_eq hlit args hargs w') fun _ _ _ => rfl
  | resultRef index => rfl
  | block _ => rfl
  | branch _ _ _ => rfl
  | loop _ _ _ => rfl
  | ret _ => rfl
  | breakLoop => rfl
  | continueLoop => rfl
  | bind _ _ => rfl
  | rebind _ _ => rfl
  | set _ _ _ => rfl

theorem stackValues_eq (hlit : LoadsExactly lit) (fs : List Form) {σ : Operands R}
    (h : ∀ g ∈ listParts fs, Readable lit σ env g) (w : World R) :
    stackValues R lit σ fs w = evalValues R env fs w := by
  cases fs with
  | nil => rfl
  | cons f fs =>
      simp only [listParts, List.forall_mem_append] at h
      simp only [stackValues, evalValues]
      refine bind_congr_of_eq (stackValue_eq hlit f h.1 w) fun v w' hv => ?_
      have hrest := Readable.push h.2 (Readable.slot h.1 hv)
      exact bind_congr_of_eq (stackValues_eq hlit fs hrest w') fun _ _ _ => rfl

theorem stackChain_eq (hlit : LoadsExactly lit) (i : BinaryInstr) (fs : List Form) {σ : Operands R}
    (h : ∀ g ∈ listParts fs, Readable lit σ env g) (w : World R) :
    stackChain R lit σ i fs w = evalChain R env i fs w := by
  cases fs with
  | nil => rfl
  | cons f fs =>
      simp only [listParts, List.forall_mem_append] at h
      simp only [stackChain, evalChain]
      refine bind_congr_of_eq (stackValue_eq hlit f h.1 w) fun v w' hv => ?_
      exact stackChainRest_eq hlit i fs h.2 (Readable.slot h.1 hv) w'

theorem stackChainRest_eq (hlit : LoadsExactly lit) (i : BinaryInstr) (fs : List Form)
    {σ : Operands R} (h : ∀ g ∈ listParts fs, Readable lit σ env g) {slot : Option String}
    {left : R.Value} (hslot : ∀ x, slot = some x → env.lookup x = some left) (w : World R) :
    stackChainRest R lit σ i slot left fs w = evalChainRest R env i left fs w := by
  cases fs with
  | nil => rfl
  | cons f fs =>
      simp only [listParts, List.forall_mem_append] at h
      simp only [stackChainRest, evalChainRest]
      refine bind_congr_of_eq (stackValue_eq hlit f (Readable.push h.1 hslot) w)
        fun right w' _ => ?_
      refine bind_congr_of_ok fun v w'' _ => ?_
      exact stackChainRest_eq hlit i fs h.2 (by simp) w''

theorem stackStores_eq (hlit : LoadsExactly lit) (stores : List (Int64 × Form)) {σ : Operands R}
    (h : ∀ g ∈ storeParts stores, Readable lit σ env g) {slot : Option String} {a : R.Value}
    (hslot : ∀ x, slot = some x → env.lookup x = some a) (w : World R) :
    stackStores R lit σ slot a stores w = evalStores R env a stores w := by
  cases stores with
  | nil => rfl
  | cons store rest =>
      obtain ⟨index, f⟩ := store
      simp only [storeParts, List.forall_mem_append] at h
      simp only [stackStores, evalStores, hlit (.int index) (by simp)]
      have hf := Readable.pushNone (Readable.pushNone (Readable.push h.1 hslot) a)
        (R.constant (.int index))
      refine bind_congr_of_eq (stackValue_eq hlit f hf w) fun v w' _ => ?_
      refine bind_congr_of_ok fun _ w'' _ => ?_
      exact stackStores_eq hlit rest h.2 hslot w''
end

end Agreement

end StackCompiler
