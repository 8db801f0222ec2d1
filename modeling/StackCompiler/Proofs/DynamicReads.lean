import StackCompiler.Proofs.Destructuring
import StackCompiler.Proofs.QuietForms

/-!
Reads of variables that are not bound. The host may change such a variable in any call, and code
reads a copy that waits on the stack in place of the variable. So a read is current unless a copy
waits that was made before a call. `dynamic_reads` shows that code does what plain evaluation does,
whatever the calls do, if none of its reads finds such a copy and its constants are loaded as they
are written, and `dynamic_reads_old_copy` that it does not otherwise.
-/

namespace StackCompiler

open CompiledFunction

/-! ### Copies that are current -/

/-- What is known of the copy that a read of a variable finds on the stack: there is none, it is
what the variable holds, or the variable may have changed since. -/
inductive Copy where
  | absent
  | current
  | old
deriving DecidableEq, Repr

def Form.mayCall (f : Form) : Bool :=
  f.parts.any (·.application?.isSome)

namespace Copy

def after (f : Form) : Copy → Copy
  | .absent => .absent
  | .current => if f.mayCall then .old else .current
  | .old => .old

/-- The copy after a form was evaluated and its value stays on the stack. -/
def push (x : String) (f : Form) (c : Copy) : Copy :=
  if f.slotName = some x then after f .current else c.after f

end Copy

mutual
/-- Whether every read of a variable in a form is current, given the copy of the variable below. -/
def Form.readsCurrent (x : String) : Copy → Form → Bool
  | c, .var name => name != x || c != .old
  | c, .array elems => readAllCurrent x c elems
  | c, .sparseArray ctor stores =>
    ctor.readsCurrent x c && storesReadCurrent x (c.push x ctor) stores
  | c, .copy source => source.readsCurrent x c
  | c, .get source index => source.readsCurrent x c && index.readsCurrent x (c.push x source)
  | c, .op kind family args =>
    match kind.operation? family with
    | some (.fold _) | some (.foldNot _) => chainReadsCurrent x c args
    | _ => readAllCurrent x c args
  | c, .unary _ _ arg => arg.readsCurrent x c
  | c, .not arg => arg.readsCurrent x c
  | c, .and left right => left.readsCurrent x c && right.readsCurrent x (c.after left)
  | c, .or left right => left.readsCurrent x c && right.readsCurrent x (c.after left)
  | c, .call _ args => readAllCurrent x c args
  | c, .dynCall callee args => callee.readsCurrent x c && readAllCurrent x (c.push x callee) args
  | _, _ => true

def readAllCurrent (x : String) : Copy → List Form → Bool
  | _, [] => true
  | c, f :: fs => f.readsCurrent x c && readAllCurrent x (c.push x f) fs

def chainReadsCurrent (x : String) : Copy → List Form → Bool
  | _, [] => true
  | c, f :: fs => f.readsCurrent x c && chainRestReadsCurrent x (c.push x f) (c.after f) fs

/-- The same for further operands. The next of them sees the copy on top, and those after it see
the copy below only, as a result has no name. -/
def chainRestReadsCurrent (x : String) : Copy → Copy → List Form → Bool
  | _, _, [] => true
  | top, below, f :: fs =>
    f.readsCurrent x top && chainRestReadsCurrent x (below.after f) (below.after f) fs

def storesReadCurrent (x : String) : Copy → List (Int64 × Form) → Bool
  | _, [] => true
  | c, (_, f) :: rest => f.readsCurrent x c && storesReadCurrent x (c.after f) rest
end

section

variable {R : Runtime} {env : Env R} {σ : Operands R} {f : Form} {w w' : World R} {v : R.Value}

def World.SameVars (w w' : World R) : Prop :=
  w'.store.vars = w.store.vars

theorem World.isTrail_sameVars (R : Runtime) : IsTrail (World.SameVars (R := R)) where
  refl _ := rfl
  trans h h' := h'.trans h

/-- A host that changes dynamic variables in calls only. -/
abbrev Runtime.SparesVars (R : Runtime) : Prop :=
  R.Keeps True World.SameVars

theorem sameVars_of_mayCall (hR : R.SparesVars) (hf : f.mayCall = false)
    (hv : evalValue R env f w = .ok v w') : w'.store.vars = w.store.vars := by
  have hquiet : f.Every (Form.IsQuiet True) := by
    intro g hg
    have hg := List.any_eq_false.1 hf g hg
    exact ⟨by simpa using hg, fun _ => trivial⟩
  exact keeps_evalValue (World.isTrail_sameVars R) hR f hquiet w v w' hv

/-- A value in a slot with a name is what the variable held when evaluation began. -/
theorem value_of_slotName {x : String} (hname : f.slotName = some x)
    (hv : evalValue R env f w = .ok v w') : v = (env.lookup x).getD (w.store.vars x) := by
  induction f using Form.slotName.induct generalizing v w' with
  | case1 name =>
      cases hname
      rw [evalValue] at hv
      cases hx : env.lookup x with
      | some u =>
          rw [hx] at hv
          cases hv
          rfl
      | none =>
          rw [hx] at hv
          cases hv
          rfl
  | case2 ctor stores ih =>
      rw [evalValue] at hv
      obtain ⟨a, w₁, hctor, hv⟩ := bind_eq_ok.1 hv
      obtain ⟨_, w₂, -, hv⟩ := bind_eq_ok.1 hv
      cases hv
      exact ih hname hctor
  | case3 f hvar hsparse =>
      cases f <;> simp_all [Form.slotName]

/-! ### What a read finds -/

def Copy.Holds (σ : Operands R) (w : World R) (x : String) : Copy → Prop
  | .absent => σ.lookup (some x) = none
  | .current => σ.lookup (some x) = some (w.store.vars x)
  | .old => True

theorem lookup_push_of_ne {slot : Option String} {x : String} (h : slot ≠ some x) (v : R.Value) :
    List.lookup (some x) ((slot, v) :: σ) = σ.lookup (some x) := by
  have hne : (some x == slot) = false := by simpa using fun hx => h hx.symm
  simp only [List.lookup_cons, hne]

theorem Copy.Holds.of_lookup {τ : Operands R} {x : String} {c : Copy} (h : c.Holds σ w x)
    (hlookup : τ.lookup (some x) = σ.lookup (some x)) (hvars : w'.store.vars = w.store.vars) :
    c.Holds τ w' x := by
  cases c with
  | absent => exact hlookup.trans h
  | current =>
      rw [Copy.Holds, hlookup, hvars]
      exact h
  | old => trivial

theorem Copy.Holds.after {x : String} {c : Copy} (hR : R.SparesVars) (h : c.Holds σ w x)
    (hv : evalValue R env f w = .ok v w') : (c.after f).Holds σ w' x := by
  cases c with
  | absent => exact h
  | current =>
      cases hcall : f.mayCall with
      | true =>
          simp only [Copy.after, hcall, if_true]
          trivial
      | false =>
          simp only [Copy.after, hcall, Bool.false_eq_true, if_false]
          exact h.of_lookup rfl (sameVars_of_mayCall hR hcall hv)
  | old => trivial

/-- A read on the stack finds the value of a bound variable. For others, what is known of their
copies is true. -/
structure Tracks (κ : String → Copy) (σ : Operands R) (env : Env R) (w : World R) : Prop where
  bound : ∀ x v, env.lookup x = some v → σ.lookup (some x) = some v
  unbound : ∀ x, env.lookup x = none → (κ x).Holds σ w x

namespace Tracks

variable {κ : String → Copy}

theorem of_sameVars (h : Tracks κ σ env w) (hvars : w'.store.vars = w.store.vars) :
    Tracks κ σ env w' where
  bound := h.bound
  unbound x hx := (h.unbound x hx).of_lookup rfl hvars

theorem pushNone (h : Tracks κ σ env w) (v : R.Value) : Tracks κ ((none, v) :: σ) env w where
  bound x u hx := (lookup_push_of_ne (by simp) v).trans (h.bound x u hx)
  unbound x hx := (h.unbound x hx).of_lookup (lookup_push_of_ne (by simp) v) rfl

theorem after (hR : R.SparesVars) (h : Tracks κ σ env w) (hv : evalValue R env f w = .ok v w') :
    Tracks (fun x => (κ x).after f) σ env w' where
  bound := h.bound
  unbound x hx := (h.unbound x hx).after hR hv

theorem push (hR : R.SparesVars) (h : Tracks κ σ env w) (hv : evalValue R env f w = .ok v w') :
    Tracks (fun x => (κ x).push x f) ((f.slotName, v) :: σ) env w' where
  bound x u hx := by
    by_cases hslot : f.slotName = some x
    · have hvalue := value_of_slotName hslot hv
      rw [hx, Option.getD_some] at hvalue
      simp [hslot, hvalue]
    · exact (lookup_push_of_ne hslot v).trans (h.bound x u hx)
  unbound x hx := by
    by_cases hslot : f.slotName = some x
    · -- the slot holds what the variable held before the form was evaluated
      have hvalue := value_of_slotName hslot hv
      rw [hx, Option.getD_none] at hvalue
      have hread : Copy.Holds ((f.slotName, v) :: σ) w x .current := by
        simp [Copy.Holds, hslot, hvalue]
      simp only [Copy.push, hslot, if_true] at hread ⊢
      exact hread.after hR hv
    · simp only [Copy.push, hslot, if_false]
      exact ((h.unbound x hx).after hR hv).of_lookup (lookup_push_of_ne hslot v) rfl

end Tracks

end

/-! ### Evaluation with current reads -/

section Agreement

variable {R : Runtime} {lit : Constant → R.Value} {env : Env R}

/-- Whether a form, if it is a floating point number, is loaded as it is written. -/
def LoadsFloat (lit : Constant → R.Value) (f : Form) : Prop :=
  ∀ x, f = .float x → lit (.float x) = R.constant (.float x)

mutual
/-- Evaluation on the stack is plain evaluation if every read is current. -/
theorem stackValue_of_tracks (hlit : LoadsExactly lit) (hR : R.SparesVars) (f : Form)
    (hfloat : f.Every (LoadsFloat lit)) {κ : String → Copy} {σ : Operands R} {w : World R}
    (h : Tracks κ σ env w)
    (hf : ∀ x, env.lookup x = none → f.readsCurrent x (κ x) = true) :
    stackValue R lit σ f w = evalValue R env f w := by
  have hsymbol : ∀ name, lit (.symbol name) = R.constant (.symbol name) :=
    fun name => hlit _ (by simp)
  cases f with
  | bool b => rw [stackValue, evalValue, hsymbol]
  | char c => rw [stackValue, evalValue, hlit _ (by simp)]
  | int v => rw [stackValue, evalValue, hlit _ (by simp)]
  | float x => rw [stackValue, evalValue, hfloat _ (mem_parts_self _) x rfl]
  | str s => rw [stackValue, evalValue, hlit _ (by simp)]
  | symbol name => rw [stackValue, evalValue, hsymbol]
  | var name =>
      simp only [stackValue, evalValue]
      cases henv : env.lookup name with
      | some v => rw [h.bound name v henv]
      | none =>
          -- a copy that is not old holds what the variable holds now
          have hcopy := h.unbound name henv
          have hread := hf name henv
          cases hκ : κ name with
          | absent =>
              rw [hκ] at hcopy
              rw [show σ.lookup (some name) = none from hcopy]
          | current =>
              rw [hκ] at hcopy
              rw [show σ.lookup (some name) = some (w.store.vars name) from hcopy]
              rfl
          | old => simp [Form.readsCurrent, hκ] at hread
  | array elems =>
      rw [Form.every_array] at hfloat
      simp only [stackValue, evalValue, hsymbol, Run.callNamed]
      exact bind_congr_of_eq (stackValues_of_tracks hlit hR elems hfloat.2 (h.pushNone _) hf)
        fun _ _ _ => rfl
  | sparseArray ctor stores =>
      rw [Form.every_sparseArray] at hfloat
      simp only [Form.readsCurrent, Bool.and_eq_true, imp_and, forall_and] at hf
      simp only [stackValue, evalValue]
      refine bind_congr_of_eq (stackValue_of_tracks hlit hR ctor hfloat.2.1 h hf.1)
        fun a w' ha => ?_
      exact bind_congr_of_eq
        (stackStores_of_tracks hlit hR stores hfloat.2.2 (h.push hR ha) hf.2) fun _ _ _ => rfl
  | copy source =>
      rw [Form.every_copy] at hfloat
      simp only [stackValue, evalValue, hsymbol, Run.callNamed]
      exact bind_congr_of_eq (stackValue_of_tracks hlit hR source hfloat.2 (h.pushNone _) hf)
        fun _ _ _ => rfl
  | get source index =>
      rw [Form.every_get] at hfloat
      simp only [Form.readsCurrent, Bool.and_eq_true, imp_and, forall_and] at hf
      simp only [stackValue, evalValue]
      refine bind_congr_of_eq (stackValue_of_tracks hlit hR source hfloat.2.1 h hf.1)
        fun a w' ha => ?_
      exact bind_congr_of_eq
        (stackValue_of_tracks hlit hR index hfloat.2.2 (h.push hR ha) hf.2) fun _ _ _ => rfl
  | op kind family args =>
      rw [Form.every_op] at hfloat
      simp only [Form.readsCurrent] at hf
      simp only [stackValue, evalValue]
      cases hplan : kind.operation? family with
      | none => rfl
      | some plan =>
          simp only [hplan] at hf
          cases plan with
          | fold i => exact stackChain_of_tracks hlit hR i args hfloat.2 h hf
          | foldNot i =>
              exact bind_congr_of_eq (stackChain_of_tracks hlit hR i args hfloat.2 h hf)
                fun _ _ _ => rfl
          | concat =>
              exact bind_congr_of_eq (stackValues_of_tracks hlit hR args hfloat.2 h hf)
                fun _ _ _ => rfl
          | host name =>
              simp only [hsymbol, Run.callNamed]
              exact bind_congr_of_eq
                (stackValues_of_tracks hlit hR args hfloat.2 (h.pushNone _) hf) fun _ _ _ => rfl
  | unary kind family arg =>
      rw [Form.every_unary] at hfloat
      simp only [Form.readsCurrent] at hf
      have harg := stackValue_of_tracks hlit hR arg hfloat.2 h hf
      cases kind with
      | neg =>
          cases family with
          | string => rfl
          | _ => exact bind_congr_of_eq harg fun _ _ _ => rfl
      | bitNot =>
          cases family with
          | int =>
              simp only [stackValue, evalValue, hsymbol, Run.callNamed]
              exact bind_congr_of_eq
                (stackValue_of_tracks hlit hR arg hfloat.2 (h.pushNone _) hf) fun _ _ _ => rfl
          | _ => rfl
  | not arg =>
      rw [Form.every_not] at hfloat
      simp only [Form.readsCurrent] at hf
      simp only [stackValue, evalValue]
      exact bind_congr_of_eq (stackValue_of_tracks hlit hR arg hfloat.2 h hf) fun _ _ _ => rfl
  | and left right =>
      rw [Form.every_and] at hfloat
      simp only [Form.readsCurrent, Bool.and_eq_true, imp_and, forall_and] at hf
      simp only [stackValue, evalValue]
      refine bind_congr_of_eq (stackValue_of_tracks hlit hR left hfloat.2.1 h hf.1)
        fun v w' hv => ?_
      split
      · rfl
      · exact stackValue_of_tracks hlit hR right hfloat.2.2 (h.after hR hv) hf.2
  | or left right =>
      rw [Form.every_or] at hfloat
      simp only [Form.readsCurrent, Bool.and_eq_true, imp_and, forall_and] at hf
      simp only [stackValue, evalValue]
      refine bind_congr_of_eq (stackValue_of_tracks hlit hR left hfloat.2.1 h hf.1)
        fun v w' hv => ?_
      split
      · exact stackValue_of_tracks hlit hR right hfloat.2.2 (h.after hR hv) hf.2
      · rfl
  | call name args =>
      rw [Form.every_call] at hfloat
      simp only [stackValue, evalValue, hsymbol, Run.callNamed]
      exact bind_congr_of_eq (stackValues_of_tracks hlit hR args hfloat.2 (h.pushNone _) hf)
        fun _ _ _ => rfl
  | dynCall callee args =>
      rw [Form.every_dynCall] at hfloat
      simp only [Form.readsCurrent, Bool.and_eq_true, imp_and, forall_and] at hf
      simp only [stackValue, evalValue, hsymbol, Run.callNamed]
      refine bind_congr_of_eq
        (stackValue_of_tracks hlit hR callee hfloat.2.1 (h.pushNone _) hf.1) fun f w' hcallee => ?_
      have hargs := (h.pushNone (R.constant (.symbol Host.funcall))).push hR hcallee
      exact bind_congr_of_eq (stackValues_of_tracks hlit hR args hfloat.2.2 hargs hf.2)
        fun _ _ _ => rfl
  | resultRef _ | block _ | branch _ _ _ | loop _ _ _ | ret _ | breakLoop | continueLoop | bind _ _
  | rebind _ _ | set _ _ _ => rfl
termination_by structural f

theorem stackValues_of_tracks (hlit : LoadsExactly lit) (hR : R.SparesVars) (fs : List Form)
    (hfloat : EveryIn (LoadsFloat lit) fs) {κ : String → Copy} {σ : Operands R} {w : World R}
    (h : Tracks κ σ env w)
    (hfs : ∀ x, env.lookup x = none → readAllCurrent x (κ x) fs = true) :
    stackValues R lit σ fs w = evalValues R env fs w := by
  cases fs with
  | nil => rfl
  | cons f fs =>
      rw [everyIn_cons] at hfloat
      simp only [readAllCurrent, Bool.and_eq_true, imp_and, forall_and] at hfs
      simp only [stackValues, evalValues]
      refine bind_congr_of_eq (stackValue_of_tracks hlit hR f hfloat.1 h hfs.1) fun v w' hv => ?_
      exact bind_congr_of_eq (stackValues_of_tracks hlit hR fs hfloat.2 (h.push hR hv) hfs.2)
        fun _ _ _ => rfl
termination_by structural fs

theorem stackChain_of_tracks (hlit : LoadsExactly lit) (hR : R.SparesVars) (i : BinaryInstr)
    (fs : List Form) (hfloat : EveryIn (LoadsFloat lit) fs) {κ : String → Copy} {σ : Operands R}
    {w : World R} (h : Tracks κ σ env w)
    (hfs : ∀ x, env.lookup x = none → chainReadsCurrent x (κ x) fs = true) :
    stackChain R lit σ i fs w = evalChain R env i fs w := by
  cases fs with
  | nil => rfl
  | cons f fs =>
      rw [everyIn_cons] at hfloat
      simp only [chainReadsCurrent, Bool.and_eq_true, imp_and, forall_and] at hfs
      simp only [stackChain, evalChain]
      refine bind_congr_of_eq (stackValue_of_tracks hlit hR f hfloat.1 h hfs.1) fun v w' hv => ?_
      exact stackChainRest_of_tracks hlit hR i fs hfloat.2 (h.push hR hv) (h.after hR hv) hfs.2
termination_by structural fs

theorem stackChainRest_of_tracks (hlit : LoadsExactly lit) (hR : R.SparesVars) (i : BinaryInstr)
    (fs : List Form) (hfloat : EveryIn (LoadsFloat lit) fs) {κ top : String → Copy}
    {σ : Operands R} {slot : Option String} {left : R.Value} {w : World R}
    (htop : Tracks top ((slot, left) :: σ) env w) (h : Tracks κ σ env w)
    (hfs : ∀ x, env.lookup x = none → chainRestReadsCurrent x (top x) (κ x) fs = true) :
    stackChainRest R lit σ i slot left fs w = evalChainRest R env i left fs w := by
  cases fs with
  | nil => rfl
  | cons f fs =>
      rw [everyIn_cons] at hfloat
      simp only [chainRestReadsCurrent, Bool.and_eq_true, imp_and, forall_and] at hfs
      simp only [stackChainRest, evalChainRest]
      refine bind_congr_of_eq (stackValue_of_tracks hlit hR f hfloat.1 htop hfs.1)
        fun right w' hright => ?_
      refine bind_congr_of_ok fun v w'' hv => ?_
      -- the result has no name, so from here on only copies below are found
      have hbelow := (h.after hR hright).of_sameVars (hR.binary i left right w' v w'' hv)
      exact stackChainRest_of_tracks hlit hR i fs hfloat.2 (hbelow.pushNone v) hbelow hfs.2
termination_by structural fs

theorem stackStores_of_tracks (hlit : LoadsExactly lit) (hR : R.SparesVars)
    (stores : List (Int64 × Form)) (hfloat : EveryIn (LoadsFloat lit) (stores.map (·.2)))
    {κ : String → Copy} {σ : Operands R} {slot : Option String} {a : R.Value} {w : World R}
    (h : Tracks κ ((slot, a) :: σ) env w)
    (hstores : ∀ x, env.lookup x = none → storesReadCurrent x (κ x) stores = true) :
    stackStores R lit σ slot a stores w = evalStores R env a stores w := by
  match stores with
  | [] => rfl
  | (index, f) :: rest =>
      rw [List.map_cons, everyIn_cons] at hfloat
      simp only [storesReadCurrent, Bool.and_eq_true, imp_and, forall_and] at hstores
      simp only [stackStores, evalStores, hlit (.int index) (by simp)]
      have hf := (h.pushNone a).pushNone (R.constant (.int index))
      refine bind_congr_of_eq (stackValue_of_tracks hlit hR f hfloat.1 hf hstores.1)
        fun v w' hv => ?_
      refine bind_congr_of_ok fun _ w'' hset => ?_
      have hrest := (h.after hR hv).of_sameVars
        (hR.arraySet trivial a (R.constant (.int index)) v w' _ w'' hset)
      exact stackStores_of_tracks hlit hR rest hfloat.2 hrest hstores.2
termination_by structural stores
end

end Agreement

/-! ### Code with current reads -/

def Operands.env {R : Runtime} (σ : Operands R) : Env R :=
  σ.filterMap fun (name, v) => name.map (·, v)

theorem Operands.env_lookup {R : Runtime} (σ : Operands R) (x : String) :
    List.lookup x σ.env = σ.lookup (some x) := by
  induction σ with
  | nil => rfl
  | cons slot σ ih =>
      obtain ⟨name, v⟩ := slot
      cases name with
      | none =>
          rw [lookup_push_of_ne (by simp)]
          exact ih
      | some y =>
          by_cases hy : y = x
          · simp [env, hy]
          · have hne : (x == y) = false := by simpa using fun h => hy h.symm
            rw [lookup_push_of_ne (by simpa using hy)]
            simpa [env, List.lookup_cons, hne] using ih

/-- Where no copy waits, what a read finds is what it is meant to be. -/
theorem Tracks.of_env {R : Runtime} (σ : Operands R) (w : World R) :
    Tracks (fun _ => .absent) σ σ.env w where
  bound x v hx := by rwa [← σ.env_lookup x]
  unbound x hx := by rwa [σ.env_lookup x] at hx

/-- Evaluation of a form that has code ends with a value or by an error of the host. -/
theorem Code.ends_value {R : Runtime} {functions : SignatureTable} {f : Form} {s s' : Assembly}
    (h : Code functions (.value f) s s') (lit : Constant → R.Value) (σ : Operands R) :
    (stackValue R lit σ f).Within fun _ _ => True := by
  have hprimitive : ∀ {α : Type} (x : Action R.Value R.Heap α),
      (Run.primitive x).Within fun _ _ => True :=
    fun x => ⟨fun _ => trivial, Run.ends_primitive⟩
  have hhost : R.Within fun _ _ => True :=
    { unary := fun i v => hprimitive _
      binary := fun i u v => hprimitive _
      concat := fun vs => hprimitive _
      arrayRef := fun a i => hprimitive _
      arraySet := fun a i v => hprimitive _ }
  refine h.within ⟨fun _ => trivial, fun _ _ => trivial⟩ hhost (fun g _ name args _ vs => ?_) σ
  exact ⟨fun _ => trivial, fun h => Run.ends_primitive h⟩

/-- The code of a form evaluates it on top of the operands, and a read takes the topmost copy of the
variable in place of the variable itself. So reads of variables without a slot are current if none
of them finds a copy from before a call. If also the floating point numbers of the form are loaded
as they are written, the code does what plain evaluation does, in which each read takes the value
that the variable has when it is reached. -/
theorem dynamic_reads {functions : SignatureTable} {f : Form} {s s' : Assembly}
    (hemit : emitValue functions f s = .ok () s') {F : CompiledFunction} (hF : F.Contains s')
    {R : Runtime} {σ : Operands R} (hnames : s.slots.names = σ.names) (w : World R) :
    F.Completes ⟨s.code.size, σ.values, w⟩ (stackValue R (F.literal R) σ f)
        (fun v => .point s'.code.size (v :: σ.values)) ∧
      (∀ g, f = .var g → F.Reaches ⟨s.code.size, σ.values, w⟩
        ⟨s'.code.size, (σ.lookup (some g)).getD (w.store.vars g) :: σ.values, w⟩) ∧
      (R.SparesVars →
        (∀ x, .float x ∈ f.parts → F.literal R (.float x) = R.constant (.float x)) →
        (∀ g, σ.lookup (some g) = none → f.readsCurrent g .absent = true) →
        F.Completes ⟨s.code.size, σ.values, w⟩ (evalValue R σ.env f)
          (fun v => .point s'.code.size (v :: σ.values))) := by
  have hcode := emitValue_code f hemit
  have hstack := (hcode.ends_value (F.literal R) σ).completes (hcode.simulated hF σ w hnames)
  refine ⟨hstack, ?_, fun hR hfloat hcurrent => ?_⟩
  · rintro g rfl
    refine hstack.1.attains (a := (σ.lookup (some g)).getD (w.store.vars g)) ?_
    simp only [stackValue]
    cases σ.lookup (some g) with
    | none => rfl
    | some v => rfl
  · refine hstack.congr (stackValue_of_tracks (F.literal_loadsExactly R) hR f ?_ (.of_env σ w) ?_)
    · rintro g hg x rfl
      exact hfloat x hg
    · intro g hg
      exact hcurrent g (by rwa [σ.env_lookup g] at hg)

/-- A host whose functions all return seven, and leave one in the variable `g`. -/
def Runtime.assigning : Runtime :=
  { Runtime.ledger with
    call := fun _ _ => do
      modify (·.setVar "g" (.int 1))
      return .int 7 }

theorem sparesVars_assigning : Runtime.assigning.SparesVars where
  unary i v := .pure (World.isTrail_sameVars _) v
  binary i u v := .pure (World.isTrail_sameVars _) u
  concat vs := fun _ _ _ h => by cases h
  arrayRef a i := .pure (World.isTrail_sameVars _) i
  arraySet _ a i v := fun _ _ _ h => by
    cases h
    rfl

def World.assigning : World Runtime.assigning :=
  ⟨⟨fun _ => Constant.int 0, []⟩, []⟩

/-- The arguments of `f(n, h(), g, n[g])`, where the variable is read after the call only. -/
def readsAfterCall : Form :=
  .call "f" [.var "n", .call "h" [], .var "g", .get (.var "n") (.var "g")]

theorem dynamic_reads_readsAfterCall :
    ∃ s' F w', emitValue .empty readsAfterCall (Assembly.ofParams ["n"]) = .ok () s' ∧
      CompiledFunction.Contains F s' ∧
      F.Reaches (R := Runtime.assigning) ⟨0, [Constant.int 5], World.assigning⟩
        ⟨s'.code.size, [Constant.int 7, Constant.int 5], w'⟩ ∧
      w'.calls = [(Constant.symbol "h", []),
        (Constant.symbol "f",
          [Constant.int 5, Constant.int 7, Constant.int 1, Constant.int 1])] := by
  have hok : (Emit.built? (emitValue .empty readsAfterCall) (Assembly.ofParams ["n"])).map
      (fun s' => (ofAssembly "k" ["n"] s').isOk) = some true := by decide +kernel
  obtain ⟨s', hbuilt, hok⟩ := Option.map_eq_some_iff.1 hok
  have hemit := Emit.built?_eq_some hbuilt
  have hcurrent : ∀ x, List.lookup (some x) [(some "n", Constant.int 5)] = none →
      readsAfterCall.readsCurrent x .absent = true := by
    intro x hx
    have hn : x ≠ "n" := by
      rintro rfl
      cases hx
    by_cases hg : x = "g"
    · subst hg
      decide
    · simp [readsAfterCall, Form.readsCurrent, readAllCurrent, Ne.symm hn, Ne.symm hg]
  cases hfinish : ofAssembly "k" ["n"] s' with
  | error e =>
      rw [hfinish] at hok
      cases hok
  | ok F =>
      have hF := (ofAssembly_ok hfinish).contains
      have hreads := (dynamic_reads hemit hF (R := Runtime.assigning)
        (σ := [(some "n", Constant.int 5)]) rfl World.assigning).2.2 sparesVars_assigning
        (by simp [readsAfterCall, Form.parts, listParts]) hcurrent
      exact ⟨s', F, _, hemit, hF, hreads.1.attains rfl, rfl⟩

def readsAroundCall : Block :=
  [.ret [.call "f" [.var "g", .call "h" [], .var "g"]]]

/-- A copy from before a call is read in place of the variable. -/
theorem dynamic_reads_old_copy :
    ∃ F w w', ofBlock .empty "k" [] readsAroundCall = .ok F ∧
      F.run 7 (start (R := Runtime.assigning) [] World.assigning) =
        .returned (Constant.int 7) w ∧
      w.calls = [(Constant.symbol "h", []),
        (Constant.symbol "f", [Constant.int 0, Constant.int 7, Constant.int 0])] ∧
      evalBody Runtime.assigning 1 [] readsAroundCall [] World.assigning =
        .ok (Constant.int 7) w' ∧
      w'.calls = [(Constant.symbol "h", []),
        (Constant.symbol "f", [Constant.int 0, Constant.int 7, Constant.int 1])] := by
  have hcompiled : (ofBlock .empty "k" [] readsAroundCall).toOption =
      some ⟨"k", [], ⟨#[.constRef 0, .varRef 1, .constRef 2, .call 0, .stackRef 1, .call 3, .ret],
        #[], 4⟩, #[.symbol "f", .symbol "g", .symbol "h"]⟩ := by
    decide +kernel
  cases hcompile : ofBlock .empty "k" [] readsAroundCall with
  | error e =>
      rw [hcompile] at hcompiled
      cases hcompiled
  | ok F =>
      rw [hcompile] at hcompiled
      cases hcompiled
      exact ⟨_, _, _, rfl, rfl, rfl, rfl, rfl⟩

end StackCompiler
