import Mathlib.Data.List.Induction
import Mathlib.Order.Bounds.Basic
import StackCompiler.Proofs.Growth

/-!
Code construction under any history of requests. A request may fail, and the next one goes on from
the assembly that it leaves. Whatever the order, a label counts as used exactly if a jump of the
code leads to it, and it stays where it was first put. So finished code has no jump that leads
astray and no label without a jump, and its depth is the greatest that the static stack ever had.
-/

namespace StackCompiler

/-! ### Requests -/

inductive Request where
  | param (name : String)
  | instr (i : Instr)
  | discardModel (count : Nat)
  | bindLocal (name : String)
  | unbindTop
  | discard (count : Nat)
  | constant (c : Constant)
  | symbol (name : String)
  | int (v : Int64)
  | float (x : Binary64)
  | str (s : String)
  | nil
  | bool (b : Bool)
  | varRef (name : String)
  | varSet (name : String)
  | dynamicRef (name : String)
  | dynamicSet (name : String)
  | call (args : Nat)
  | concat (count : Nat)
  | ret
  | newLabel (name : String)
  | bindLabel (l : Label)
  | jump (kind : JumpKind) (target : Label)
  | enterLoop (continueLabel : Option Label)
  | exitLoop
  | loopJump (j : LoopJump)

/-- The assembly that a step leaves, whether or not it succeeds. -/
def Emit.after {α : Type} (x : Emit α) (s : Assembly) : Assembly :=
  match x s with
  | .ok _ t => t
  | .error _ t => t

namespace Request

def run : Request → Emit Unit
  | param name => Emit.param name
  | instr i => Emit.instr i
  | discardModel count => Emit.discardModel count
  | bindLocal name => Emit.bindLocal name
  | unbindTop => Emit.unbindTop
  | discard count => Emit.discard count
  | constant c => Emit.constant c
  | symbol name => Emit.symbol name
  | int v => Emit.int v
  | float x => Emit.float x
  | str s => Emit.str s
  | nil => Emit.nil
  | bool b => Emit.bool b
  | varRef name => Emit.varRef name
  | varSet name => Emit.varSet name
  | dynamicRef name => Emit.dynamicRef name
  | dynamicSet name => Emit.dynamicSet name
  | call args => Emit.call args
  | concat count => Emit.concat count
  | ret => Emit.ret
  | newLabel name => do
    let _ ← Emit.newLabel name
  | bindLabel l => Emit.bindLabel l
  | jump kind target => Emit.jump kind target
  | enterLoop continueLabel => Emit.enterLoop continueLabel
  | exitLoop => Emit.exitLoop
  | loopJump j => Emit.loopJump j

/-- The label that a request asks to be placed: the end of a loop is where `break` leads. -/
def label? (s : Assembly) : Request → Option Label
  | bindLabel l => some l
  | exitLoop => s.loops.current?.bind (·.breakLabel)
  | _ => none

def Binds (r : Request) (s : Assembly) (l : Label) : Prop :=
  r.label? s = some l ∧ ∃ t, r.run s = .ok () t

end Request

/-- The assembly after requests in order, failed ones included. -/
def Assembly.afterAll (s : Assembly) (history : List Request) : Assembly :=
  history.foldl (fun s r => Emit.after r.run s) s

/-! ### What a step does to labels and depths -/

namespace Assembly

/-- A label counts as used exactly if a jump of the code leads to it. -/
def IsLinked (s : Assembly) : Prop :=
  ∀ l, s.labels.isUsed l = true ↔ ∃ kind, .jump kind l ∈ s.code

/-- No label is placed, no code is taken back, and used labels stay in line with jumps. -/
structure KeepsPlaces (s t : Assembly) : Prop where
  size : s.code.size ≤ t.code.size
  places : ∀ l, t.labels.place? l = s.labels.place? l
  linked : s.IsLinked → t.IsLinked

/-- Labels keep their places, and the static stack is as deep as before. -/
structure Quiet (s t : Assembly) : Prop extends KeepsPlaces s t where
  depth : t.slots.depth = s.slots.depth
  maxDepth : t.slots.maxDepth = s.slots.maxDepth

/-- Labels keep their places, and the greatest depth so far takes the new depth into account. -/
structure Deepens (s t : Assembly) : Prop extends KeepsPlaces s t where
  maxDepth : s.slots.depth ≤ s.slots.maxDepth →
    t.slots.maxDepth = max s.slots.maxDepth t.slots.depth

namespace KeepsPlaces

theorem refl (s : Assembly) : s.KeepsPlaces s :=
  ⟨le_rfl, fun _ => rfl, id⟩

theorem trans {s t u : Assembly} (h : s.KeepsPlaces t) (h' : t.KeepsPlaces u) :
    s.KeepsPlaces u where
  size := h.size.trans h'.size
  places l := (h'.places l).trans (h.places l)
  linked := h'.linked ∘ h.linked

end KeepsPlaces

/-- What is neither code nor label may change at will. -/
theorem keepsPlaces_of_eq {s t : Assembly} (hcode : t.code = s.code)
    (hlabels : t.labels = s.labels) : s.KeepsPlaces t where
  size := by rw [hcode]
  places l := by rw [hlabels]
  linked h l := by
    rw [hcode, hlabels]
    exact h l

namespace Quiet

theorem refl (s : Assembly) : s.Quiet s :=
  ⟨.refl s, rfl, rfl⟩

theorem trans {s t u : Assembly} (h : s.Quiet t) (h' : t.Quiet u) : s.Quiet u :=
  ⟨h.toKeepsPlaces.trans h'.toKeepsPlaces, h'.depth.trans h.depth, h'.maxDepth.trans h.maxDepth⟩

theorem deepens {s t : Assembly} (h : s.Quiet t) : s.Deepens t where
  toKeepsPlaces := h.toKeepsPlaces
  maxDepth hle := by
    rw [h.depth, h.maxDepth]
    exact (max_eq_left hle).symm

theorem thenDeepens {s t u : Assembly} (h : s.Quiet t) (h' : t.Deepens u) : s.Deepens u where
  toKeepsPlaces := h.toKeepsPlaces.trans h'.toKeepsPlaces
  maxDepth hle := by
    rw [h'.maxDepth (by rw [h.depth, h.maxDepth]; exact hle), h.maxDepth]

end Quiet

theorem Deepens.thenQuiet {s t u : Assembly} (h : s.Deepens t) (h' : t.Quiet u) : s.Deepens u where
  toKeepsPlaces := h.toKeepsPlaces.trans h'.toKeepsPlaces
  maxDepth hle := by
    rw [h'.depth, h'.maxDepth]
    exact h.maxDepth hle

end Assembly

open Assembly

namespace Emit

variable {α β : Type}

def Obeys (ρ : Assembly → Assembly → Prop) (x : Emit α) : Prop :=
  ∀ s, ρ s (after x s)

theorem after_of_ok {x : Emit α} {s t : Assembly} {a : α} (h : x s = .ok a t) : after x s = t := by
  simp only [after, h]

theorem after_of_error {x : Emit α} {s t : Assembly} {e : CompileError} (h : x s = .error e t) :
    after x s = t := by
  simp only [after, h]

/-- Two steps in order: the second may not be reached. -/
theorem Obeys.bind {ρ σ τ : Assembly → Assembly → Prop} {x : Emit α} {f : α → Emit β}
    (hx : Obeys ρ x) (hf : ∀ a, Obeys σ (f a)) (hweak : ∀ {s t}, ρ s t → τ s t)
    (htrans : ∀ {s t u}, ρ s t → σ t u → τ s u) : Obeys τ (x >>= f) := by
  intro s
  have hfirst := hx s
  cases h : x s with
  | ok a t =>
      rw [after_of_ok h] at hfirst
      have heq : after (x >>= f) s = after (f a) t := by
        simp only [after, bind_of_ok h]
      rw [heq]
      exact htrans hfirst (hf a t)
  | error e t =>
      rw [after_of_error h] at hfirst
      rw [after_of_error (bind_of_error h f)]
      exact hweak hfirst

theorem Obeys.quietBind {x : Emit α} {f : α → Emit β} (hx : Obeys Quiet x)
    (hf : ∀ a, Obeys Quiet (f a)) : Obeys Quiet (x >>= f) :=
  hx.bind hf id Quiet.trans

theorem Obeys.deepensBind {x : Emit α} {f : α → Emit β} (hx : Obeys Quiet x)
    (hf : ∀ a, Obeys Deepens (f a)) : Obeys Deepens (x >>= f) :=
  hx.bind hf Quiet.deepens Quiet.thenDeepens

theorem Obeys.bindQuiet {x : Emit α} {f : α → Emit β} (hx : Obeys Deepens x)
    (hf : ∀ a, Obeys Quiet (f a)) : Obeys Deepens (x >>= f) :=
  hx.bind hf id Deepens.thenQuiet

theorem Obeys.deepens {x : Emit α} (hx : Obeys Quiet x) : Obeys Deepens x :=
  fun s => (hx s).deepens

theorem Obeys.pure (a : α) : Obeys Quiet (Pure.pure a : Emit α) :=
  fun s => .refl s

theorem Obeys.throw (e : CompileError) : Obeys Quiet (MonadExcept.throw e : Emit α) :=
  fun s => .refl s

/-! ### Single steps -/

theorem after_onSlots (f : Slots → Except Fault Slots) (s : Assembly) :
    after (onSlots f) s = s ∨
      ∃ slots, f s.slots = .ok slots ∧ after (onSlots f) s = { s with slots } := by
  unfold after onSlots
  cases h : f s.slots with
  | error e => exact .inl rfl
  | ok slots => exact .inr ⟨slots, rfl, rfl⟩

theorem obeys_word (r : Resource) (n : Nat) : Obeys Quiet (word r n) := by
  unfold word
  split
  · exact .pure _
  · exact .throw _

theorem obeys_byte (r : Resource) (n : Nat) : Obeys Quiet (byte r n) := by
  unfold byte
  split
  · exact .pure _
  · exact .throw _

theorem obeys_addConstant (c : Constant) : Obeys Quiet (addConstant c) := by
  intro s
  rw [after_of_ok (addConstant_eq c s)]
  exact ⟨keepsPlaces_of_eq rfl rfl, rfl, rfl⟩

theorem obeys_poolIndex (c : Constant) : Obeys Quiet (poolIndex c) :=
  (obeys_addConstant c).quietBind fun i => obeys_word .constantPool i

theorem obeys_find? (name : String) : Obeys Quiet (find? name) :=
  fun s => .refl s

theorem obeys_currentLoop? : Obeys Quiet currentLoop? :=
  fun s => .refl s

theorem obeys_depth : Obeys Quiet depth :=
  fun s => .refl s

/-- Another name for the topmost slot changes no depth. -/
theorem obeys_rename (name : Option String) {f : Slots → Except Fault Slots}
    (hf : ∀ slots slots', f slots = .ok slots' → slots.rename? name = some slots') :
    Obeys Quiet (onSlots f) := by
  intro s
  obtain h | ⟨slots, hslots, h⟩ := after_onSlots f s
  · rw [h]
    exact .refl s
  · obtain ⟨old, rest, hold, hnew, hmax⟩ := rename_ok (hf _ _ hslots)
    rw [h]
    exact ⟨keepsPlaces_of_eq rfl rfl, by simp [slots.depth_eq, s.slots.depth_eq, hold, hnew], hmax⟩

theorem obeys_bindLocal (name : String) : Obeys Quiet (bindLocal name) := by
  refine obeys_rename (some name) fun slots slots' h => ?_
  unfold Slots.bind at h
  split at h
  · rename_i t ht
    cases h
    exact ht
  · cases h

theorem obeys_unbindTop : Obeys Quiet unbindTop := by
  refine obeys_rename none fun slots slots' h => ?_
  unfold Slots.unbindTop at h
  split at h
  · rename_i t ht
    cases h
    exact ht
  · cases h

theorem obeys_discardModel (count : Nat) : Obeys Deepens (discardModel count) := by
  intro s
  obtain h | ⟨slots, hslots, h⟩ := after_onSlots (·.pop count) s
  · rw [discardModel, h]
    exact (Quiet.refl s).deepens
  · unfold Slots.pop at hslots
    split at hslots
    · cases hslots
      rw [discardModel, h]
      refine ⟨keepsPlaces_of_eq rfl rfl, fun hle => ?_⟩
      exact (max_eq_left ((Nat.sub_le _ _).trans hle)).symm
    · cases hslots

theorem obeys_param (name : String) : Obeys Deepens (param name) :=
  fun _ => ⟨keepsPlaces_of_eq rfl rfl, fun _ => rfl⟩

/-- A jump marks its label before it is appended, and no other instruction leads to a label. -/
theorem isLinked_push {s : Assembly} (h : s.IsLinked) {labels : LabelTable} {i : Instr}
    (hlabels : ∀ l, labels.isUsed l = true ↔ s.labels.isUsed l = true ∨ i.label? = some l)
    (slots : Slots) : IsLinked { s with code := s.code.push i, slots, labels } := by
  intro l
  have hjump : i.label? = some l ↔ ∃ kind, .jump kind l = i := by
    cases i with
    | jump kind target => simp [Instr.label?, eq_comm]
    | _ => simp [Instr.label?]
  simp only [hlabels, h l, hjump, Array.mem_push, exists_or]

/-- The static stack after the values that an instruction takes and leaves. -/
theorem deepens_of_pop {s t : Assembly} {i : Instr} {slots : Slots}
    (h : s.slots.pop i.pops = .ok slots) (ht : s.KeepsPlaces t)
    (hslots : t.slots = slots.push i.pushes) : s.Deepens t := by
  unfold Slots.pop at h
  split at h
  · cases h
    refine ⟨ht, fun _ => ?_⟩
    rw [hslots]
    rfl
  · cases h

theorem instr_of_pop {i : Instr} {s : Assembly} {slots : Slots}
    (hpop : s.slots.pop i.pops = .ok slots) :
    instr i s = (do
      match i.label? with
      | some l => onLabels (·.markUsed l)
      | none => Pure.pure ()
      append i) { s with slots := slots.push i.pushes } := by
  have hfirst : onSlots (·.pop i.pops) s = .ok () { s with slots } := by
    simp only [onSlots, hpop]
  exact bind_of_ok hfirst _

theorem obeys_instr (i : Instr) : Obeys Deepens (instr i) := by
  intro s
  cases hpop : s.slots.pop i.pops with
  | error e =>
      have hfirst : onSlots (·.pop i.pops) s = .error (.internal e) s := by
        simp only [onSlots, hpop]
      have hafter : after (instr i) s = s := after_of_error (bind_of_error hfirst _)
      rw [hafter]
      exact (Quiet.refl s).deepens
  | ok slots =>
      have hrest := instr_of_pop hpop
      cases hlabel : i.label? with
      | none =>
          have hafter : after (instr i) s =
              { s with code := s.code.push i, slots := slots.push i.pushes } := by
            simp only [after, hrest, hlabel]
            rfl
          refine deepens_of_pop hpop ?_ (congrArg Assembly.slots hafter)
          rw [hafter]
          exact ⟨by simp, fun _ => rfl, fun h => isLinked_push h (by simp [hlabel]) _⟩
      | some l =>
          cases hmark : s.labels.markUsed l with
          | error e =>
              have hafter : after (instr i) s = { s with slots := slots.push i.pushes } := by
                simp only [after, hrest, hlabel]
                rw [bind_of_error (e := .internal e) (u := { s with slots := slots.push i.pushes })
                  (by simp only [onLabels, hmark])]
              refine deepens_of_pop hpop ?_ (congrArg Assembly.slots hafter)
              rw [hafter]
              exact keepsPlaces_of_eq rfl rfl
          | ok labels =>
              have hafter : after (instr i) s =
                  { s with code := s.code.push i, slots := slots.push i.pushes, labels } := by
                simp only [after, hrest, hlabel]
                rw [bind_of_ok (a := ()) (u := { s with slots := slots.push i.pushes, labels })
                  (by simp only [onLabels, hmark])]
                rfl
              obtain ⟨-, -, hplaces, hused⟩ := LabelTable.markUsed_ok hmark
              refine deepens_of_pop hpop ?_ (congrArg Assembly.slots hafter)
              rw [hafter]
              refine ⟨by simp, hplaces, fun h => isLinked_push h (fun m => ?_) _⟩
              rw [hlabel, Option.some.injEq, eq_comm (a := l)]
              exact hused m

theorem obeys_append {i : Instr} (hi : i.label? = none) : Obeys Quiet (append i) := by
  intro s
  refine ⟨⟨?_, fun _ => rfl, fun h => isLinked_push h (by simp [hi]) s.slots⟩, rfl, rfl⟩
  show s.code.size ≤ (s.code.push i).size
  simp

theorem obeys_newLabel (name : String) : Obeys Quiet (newLabel name) := by
  intro s
  refine ⟨⟨le_rfl, LabelTable.place?_create s.labels name, fun h l => ?_⟩, rfl, rfl⟩
  show (s.labels.create name).isUsed l = true ↔ _
  rw [LabelTable.isUsed_create]
  exact h l

theorem obeys_loops (f : Assembly → LoopStack) :
    Obeys Quiet (modify fun s => { s with loops := f s } : Emit Unit) :=
  fun _ => ⟨keepsPlaces_of_eq rfl rfl, rfl, rfl⟩

theorem obeys_constant (c : Constant) : Obeys Deepens (constant c) :=
  (obeys_poolIndex c).deepensBind fun _ => obeys_instr _

theorem obeys_dynamicRef (name : String) : Obeys Deepens (dynamicRef name) :=
  (obeys_poolIndex _).deepensBind fun _ => obeys_instr _

theorem obeys_dynamicSet (name : String) : Obeys Deepens (dynamicSet name) :=
  (obeys_poolIndex _).deepensBind fun _ => obeys_instr _

theorem obeys_discard (count : Nat) : Obeys Deepens (discard count) := by
  unfold discard
  split
  · exact (Obeys.pure ()).deepens
  · exact (obeys_word _ _).deepensBind fun _ => obeys_instr _

theorem obeys_varRef (name : String) : Obeys Deepens (varRef name) := by
  refine (obeys_find? name).deepensBind fun found => ?_
  cases found with
  | none => exact (obeys_dynamicRef name).bindQuiet fun _ => obeys_bindLocal name
  | some offset =>
      exact (obeys_word _ _).deepensBind fun _ =>
        (obeys_instr _).bindQuiet fun _ => obeys_bindLocal name

theorem obeys_varSet (name : String) : Obeys Deepens (varSet name) := by
  refine (obeys_find? name).deepensBind fun found => ?_
  cases found with
  | none => exact obeys_dynamicSet name
  | some offset => exact (obeys_word _ _).deepensBind fun _ => obeys_instr _

theorem obeys_loopLabel (j : LoopJump) (c : LoopContext) : Obeys Quiet (loopLabel j c) := by
  unfold loopLabel
  split
  · exact .pure _
  · exact (obeys_newLabel _).quietBind fun l => (obeys_loops _).quietBind fun _ => .pure l

/-- The values above a loop are dropped by an instruction that the static stack does not see. -/
theorem obeys_leaveTo (target : Nat) (l : Label) : Obeys Deepens (leaveTo target l) := by
  refine obeys_depth.deepensBind fun present => ?_
  split
  · exact (Obeys.throw _).deepens
  · split
    · exact obeys_instr _
    · exact (obeys_word _ _).deepensBind fun n =>
        (obeys_append rfl).deepensBind fun _ => obeys_instr _

theorem obeys_loopJump (j : LoopJump) : Obeys Deepens (loopJump j) := by
  refine obeys_currentLoop?.deepensBind fun loop? => ?_
  cases loop? with
  | none => exact (Obeys.throw _).deepens
  | some c => exact (obeys_loopLabel j c).deepensBind fun l => obeys_leaveTo c.depth l

end Emit

/-! ### One request -/

namespace Request

structure Effect (r : Request) (s t : Assembly) : Prop where
  size : s.code.size ≤ t.code.size
  places : ∀ l p, t.labels.place? l = some p ↔
    s.labels.place? l = some p ∨ r.Binds s l ∧ p = s.code.size
  unplaced : ∀ l, r.Binds s l → s.labels.place? l = none
  linked : s.IsLinked → t.IsLinked
  maxDepth : s.slots.depth ≤ s.slots.maxDepth →
    t.slots.maxDepth = max s.slots.maxDepth t.slots.depth

theorem Effect.of_deepens {r : Request} {s t : Assembly} (hr : ∀ l, ¬ r.Binds s l)
    (h : s.Deepens t) : r.Effect s t where
  size := h.size
  places l p := by simp [h.places, hr]
  unplaced l hbinds := absurd hbinds (hr l)
  linked := h.linked
  maxDepth := h.maxDepth

theorem not_binds_of_label? {r : Request} {s : Assembly} (h : r.label? s = none) (l : Label) :
    ¬ r.Binds s l := by
  simp [Binds, h]

theorem not_binds_of_error {r : Request} {s t : Assembly} {e : CompileError}
    (h : r.run s = .error e t) (l : Label) : ¬ r.Binds s l := by
  simp [Binds, h]

theorem Effect.of_label? {r : Request} {s : Assembly} (hr : r.label? s = none)
    (h : Emit.Obeys Deepens r.run) : r.Effect s (Emit.after r.run s) :=
  .of_deepens (not_binds_of_label? hr) (h s)

/-- The label of a request that succeeds gets its place, which it did not have before. -/
theorem Effect.of_places {r : Request} {s t : Assembly} {l : Label} {loops : LoopStack}
    (hr : r.label? s = some l) (hrun : r.run s = .ok () t) (h : Places l { s with loops } t) :
    r.Effect s t := by
  obtain ⟨labels, rfl, -, hfree, hplaces, hused⟩ := h
  have hbinds : ∀ m, r.Binds s m ↔ m = l := by
    intro m
    simp [Binds, hr, hrun, eq_comm]
  refine ⟨le_rfl, fun m p => ?_, fun m hm => ?_, fun hlinked m => ?_, fun hle => ?_⟩
  · rw [hbinds, hplaces]
    by_cases hm : m = l
    · subst hm
      simp [hfree, eq_comm]
    · simp [hm]
  · rw [(hbinds m).1 hm]
    exact hfree
  · rw [hused]
    exact hlinked m
  · exact (max_eq_left hle).symm

/-- A label that cannot be placed changes nothing. -/
theorem bindLabel_cases (l : Label) (s : Assembly) :
    (∃ e, Emit.bindLabel l s = .error e s) ∨ ∃ t, Emit.bindLabel l s = .ok () t ∧ Places l s t := by
  cases h : Emit.bindLabel l s with
  | ok u t => exact .inr ⟨t, rfl, Emit.bindLabel_ok h⟩
  | error e t =>
      unfold Emit.bindLabel Emit.onLabels at h
      split at h
      · cases h
      · cases h
        exact .inl ⟨_, rfl⟩

theorem effect_bindLabel (l : Label) (s : Assembly) :
    (bindLabel l).Effect s (Emit.after (Emit.bindLabel l) s) := by
  obtain ⟨e, h⟩ | ⟨t, h, hplaces⟩ := bindLabel_cases l s
  · rw [Emit.after_of_error h]
    exact .of_deepens (not_binds_of_error h) (Quiet.refl s).deepens
  · rw [Emit.after_of_ok h]
    exact .of_places rfl h hplaces

theorem effect_exitLoop (s : Assembly) : exitLoop.Effect s (Emit.after Emit.exitLoop s) := by
  cases hloops : s.loops.exit? with
  | none =>
      have hclose : Emit.closeLoop s = .error (.internal .exitOutsideLoop) s := by
        simp only [Emit.closeLoop, hloops]
      have hrun : Emit.exitLoop s = .error (.internal .exitOutsideLoop) s := bind_of_error hclose _
      rw [Emit.after_of_error hrun]
      exact .of_deepens (not_binds_of_error hrun) (Quiet.refl s).deepens
  | some closed =>
      obtain ⟨c, loops⟩ := closed
      have hclose : Emit.closeLoop s = .ok c { s with loops } := by
        simp only [Emit.closeLoop, hloops]
      have hlabel : exitLoop.label? s = c.breakLabel := by
        unfold LoopStack.exit? at hloops
        split at hloops
        · cases hloops
        · rename_i heq
          cases hloops
          simp [label?, LoopStack.current?, heq]
      have hrest : Emit.exitLoop s = _ := bind_of_ok hclose _
      have hquiet : s.Quiet { s with loops } := ⟨keepsPlaces_of_eq rfl rfl, rfl, rfl⟩
      cases hbreak : c.breakLabel with
      | none =>
          have hrun : Emit.exitLoop s = .ok () { s with loops } := by
            rw [hrest, hbreak]
            rfl
          rw [Emit.after_of_ok hrun]
          exact .of_deepens (not_binds_of_label? (hlabel.trans hbreak)) hquiet.deepens
      | some l =>
          rw [hbreak] at hlabel hrest
          obtain ⟨e, h⟩ | ⟨t, h, hplaces⟩ := bindLabel_cases l { s with loops }
          · rw [Emit.after_of_error (hrest.trans h)]
            exact .of_deepens (not_binds_of_error (hrest.trans h)) hquiet.deepens
          · rw [Emit.after_of_ok (hrest.trans h)]
            exact .of_places hlabel (hrest.trans h) hplaces

theorem effect (r : Request) (s : Assembly) : r.Effect s (Emit.after r.run s) := by
  cases r with
  | bindLabel l => exact effect_bindLabel l s
  | exitLoop => exact effect_exitLoop s
  | param name => exact .of_label? rfl (Emit.obeys_param name)
  | instr i => exact .of_label? rfl (Emit.obeys_instr i)
  | discardModel count => exact .of_label? rfl (Emit.obeys_discardModel count)
  | bindLocal name => exact .of_label? rfl (Emit.obeys_bindLocal name).deepens
  | unbindTop => exact .of_label? rfl Emit.obeys_unbindTop.deepens
  | discard count => exact .of_label? rfl (Emit.obeys_discard count)
  | constant _ | symbol _ | int _ | float _ | str _ | nil | bool _ =>
      exact .of_label? rfl (Emit.obeys_constant _)
  | varRef name => exact .of_label? rfl (Emit.obeys_varRef name)
  | varSet name => exact .of_label? rfl (Emit.obeys_varSet name)
  | dynamicRef name => exact .of_label? rfl (Emit.obeys_dynamicRef name)
  | dynamicSet name => exact .of_label? rfl (Emit.obeys_dynamicSet name)
  | call _ | concat _ =>
      exact .of_label? rfl ((Emit.obeys_byte _ _).deepensBind fun _ => Emit.obeys_instr _)
  | ret => exact .of_label? rfl (Emit.obeys_instr _)
  | newLabel name =>
      exact .of_label? rfl ((Emit.obeys_newLabel name).quietBind fun _ => .pure ()).deepens
  | jump kind target => exact .of_label? rfl (Emit.obeys_instr _)
  | enterLoop l => exact .of_label? rfl (Emit.obeys_loops _).deepens
  | loopJump j => exact .of_label? rfl (Emit.obeys_loopJump j)

end Request

/-! ### Histories -/

namespace Assembly

theorem afterAll_concat (s : Assembly) (history : List Request) (r : Request) :
    s.afterAll (history ++ [r]) = Emit.after r.run (s.afterAll history) := by
  simp [afterAll]

/-- What construction from nothing comes to, at any point of a history. -/
structure IsBuilt (s : Assembly) : Prop where
  linked : s.IsLinked
  place_le : ∀ l p, s.labels.place? l = some p → p ≤ s.code.size
  depth_le : s.slots.depth ≤ s.slots.maxDepth

theorem IsBuilt.request {s : Assembly} (h : s.IsBuilt) (r : Request) :
    (Emit.after r.run s).IsBuilt := by
  have heffect := r.effect s
  refine ⟨heffect.linked h.linked, fun l p hp => ?_, ?_⟩
  · obtain hp | ⟨-, rfl⟩ := (heffect.places l p).1 hp
    · exact (h.place_le l p hp).trans heffect.size
    · exact heffect.size
  · rw [heffect.maxDepth h.depth_le]
    exact le_max_right _ _

theorem isBuilt_afterAll (history : List Request) : (afterAll {} history).IsBuilt := by
  induction history using List.reverseRecOn with
  | nil =>
      refine ⟨fun l => ?_, fun l p hp => ?_, le_rfl⟩
      · simp [afterAll, LabelTable.isUsed, LabelTable.get?, LabelTable.empty]
      · simp [afterAll, LabelTable.place?, LabelTable.get?, LabelTable.empty] at hp
  | append_singleton history r ih =>
      rw [afterAll_concat]
      exact ih.request r

def BindsAt (history : List Request) (k : Nat) (l : Label) : Prop :=
  ∃ r, history[k]? = some r ∧ r.Binds (afterAll {} (history.take k)) l

/-- A label stands where the code ended when it was placed. -/
theorem place?_afterAll (history : List Request) (l : Label) (p : Nat) :
    (afterAll {} history).labels.place? l = some p ↔
      ∃ k, BindsAt history k l ∧ p = (afterAll {} (history.take k)).code.size := by
  induction history using List.reverseRecOn with
  | nil => simp [afterAll, LabelTable.place?, LabelTable.get?, LabelTable.empty, BindsAt]
  | append_singleton history r ih =>
      rw [afterAll_concat, (r.effect _).places, ih]
      constructor
      · rintro (⟨k, ⟨r', hr', hbinds⟩, rfl⟩ | ⟨hbinds, rfl⟩)
        · have hk : k < history.length := (List.getElem?_eq_some_iff.1 hr').1
          have htake : (history ++ [r]).take k = history.take k :=
            List.take_append_of_le_length hk.le
          refine ⟨k, ⟨r', ?_, by rwa [htake]⟩, by rw [htake]⟩
          rw [List.getElem?_append_left hk, hr']
        · exact ⟨history.length, ⟨r, by simp, by simpa using hbinds⟩, by simp⟩
      · rintro ⟨k, ⟨r', hr', hbinds⟩, rfl⟩
        by_cases hk : k < history.length
        · have htake : (history ++ [r]).take k = history.take k :=
            List.take_append_of_le_length hk.le
          rw [htake] at hbinds ⊢
          rw [List.getElem?_append_left hk] at hr'
          exact .inl ⟨k, ⟨r', hr', hbinds⟩, rfl⟩
        · have hlt := (List.getElem?_eq_some_iff.1 hr').1
          have hk : k = history.length := by
            simp only [List.length_append, List.length_singleton] at hlt
            omega
          subst hk
          simp only [List.getElem?_concat_length, Option.some.injEq] at hr'
          subst hr'
          rw [List.take_left] at hbinds ⊢
          exact .inr ⟨hbinds, rfl⟩

/-- A label is placed only once. -/
theorem bindsAt_unique {history : List Request} {k k' : Nat} {l : Label}
    (h : BindsAt history k l) (h' : BindsAt history k' l) : k = k' := by
  -- when the later of two requests comes, the label has its place from the earlier one
  have hnotLt : ∀ {j j' : Nat}, BindsAt history j l → BindsAt history j' l → ¬ j < j' := by
    rintro j j' ⟨r, hr, hbinds⟩ ⟨r', hr', hbinds'⟩ hlt
    have hnone := (r'.effect _).unplaced l hbinds'
    have htake : (history.take j').take j = history.take j := by
      rw [List.take_take, Nat.min_eq_left hlt.le]
    have hplaced := (place?_afterAll (history.take j') l _).2
      ⟨j, ⟨r, by rw [List.getElem?_take_of_lt hlt, hr], by rwa [htake]⟩, rfl⟩
    rw [hnone] at hplaced
    cases hplaced
  have := hnotLt h h'
  have := hnotLt h' h
  omega

def depths (history : List Request) : Set Nat :=
  { d | ∃ k, d = (afterAll {} (history.take k)).slots.depth }

theorem depths_concat (history : List Request) (r : Request) :
    depths (history ++ [r]) =
      insert (afterAll {} (history ++ [r])).slots.depth (depths history) := by
  ext d
  simp only [depths, Set.mem_ofPred_eq, Set.mem_insert_iff]
  constructor
  · rintro ⟨k, rfl⟩
    by_cases hk : k ≤ history.length
    · exact .inr ⟨k, by rw [List.take_append_of_le_length hk]⟩
    · exact .inl (by rw [List.take_of_length_le (by simp; omega)])
  · rintro (rfl | ⟨k, rfl⟩)
    · exact ⟨history.length + 1, by rw [List.take_of_length_le (by simp)]⟩
    · refine ⟨min k history.length, ?_⟩
      rw [List.take_append_of_le_length (Nat.min_le_right _ _), ← List.take_eq_take_min]

theorem isGreatest_maxDepth (history : List Request) :
    IsGreatest (depths history) (afterAll {} history).slots.maxDepth := by
  induction history using List.reverseRecOn with
  | nil =>
      refine ⟨⟨0, rfl⟩, ?_⟩
      rintro d ⟨k, rfl⟩
      rw [List.take_nil]
      exact Nat.le_refl 0
  | append_singleton history r ih =>
      have hmax := (r.effect _).maxDepth (isBuilt_afterAll history).depth_le
      rw [← afterAll_concat] at hmax
      rw [depths_concat, hmax, max_comm]
      exact ih.insert _

end Assembly

/-! ### Finished code -/

namespace LabelTable

theorem used_of_positions {infos : List LabelInfo} {id : Nat} {ps : List Nat}
    (h : positions id infos = .ok ps) : ∀ info ∈ infos, info.used = true := by
  induction infos generalizing id ps with
  | nil => simp
  | cons info rest ih =>
      unfold positions at h
      cases hp : position ⟨id⟩ info with
      | error e =>
          rw [hp] at h
          cases h
      | ok p =>
          rw [hp] at h
          cases hrest : positions (id + 1) rest with
          | error e =>
              simp only [hrest] at h
              cases h
          | ok qs =>
              refine List.forall_mem_cons.2 ⟨?_, ih hrest⟩
              unfold position at hp
              split at hp
              · cases hp
              · cases hp
              · assumption

theorem isUsed_of_resolve {t : LabelTable} {ps : List Nat} (h : t.resolve = .ok ps) {id : Nat}
    (hid : id < t.size) : t.isUsed ⟨id⟩ = true := by
  have hmem : t.labels[id] ∈ t.labels.toList := Array.getElem_mem_toList hid
  simp [isUsed, get?, Array.getElem?_eq_getElem hid, used_of_positions h _ hmem]

end LabelTable

namespace Assembly

/-- Finished code after any history of requests: every jump leads to where the code ended when its
label was placed, which happened once; a jump leads to every label; and the depth of the code is
the greatest that the static stack had at any point. -/
theorem finish_afterAll {history : List Request} {chunk : Chunk}
    (h : (afterAll {} history).finish = .ok chunk) :
    (∀ (i : Nat) (kind : JumpKind) (l : Label), chunk.code[i]? = some (.jump kind l) →
      ∃ p k, chunk.jumpTarget? i = some p ∧ p ≤ chunk.code.size ∧ BindsAt history k l ∧
        p = (afterAll {} (history.take k)).code.size ∧ ∀ k', BindsAt history k' l → k' = k) ∧
    chunk.labels.size = (afterAll {} history).labels.size ∧
    (∀ id < chunk.labels.size, ∃ kind, .jump kind ⟨id⟩ ∈ chunk.code) ∧
    IsGreatest (depths history) chunk.maxDepth := by
  have hbuilt := isBuilt_afterAll history
  unfold finish at h
  split at h
  · cases h
  · split at h
    · cases h
    · rename_i ps hresolve
      cases h
      obtain ⟨hlength, hplaces⟩ := LabelTable.resolve_ok hresolve
      refine ⟨fun i kind l hi => ?_, by simpa using hlength, fun id hid => ?_,
        isGreatest_maxDepth history⟩
      · have hused := (hbuilt.linked l).2 ⟨kind, Array.mem_of_getElem? hi⟩
        obtain ⟨info, hinfo, -⟩ := (Option.any_eq_true _ _).1 hused
        have hlt : l.id < ps.length := by
          rw [hlength]
          exact LabelTable.lt_size_of_get? hinfo
        have hplace : (afterAll {} history).labels.place? l = some ps[l.id] := by
          rw [← hplaces]
          simp [hlt]
        obtain ⟨k, hk, hsize⟩ := (place?_afterAll history l _).1 hplace
        refine ⟨ps[l.id], k, ?_, hbuilt.place_le l _ hplace, hk, hsize,
          fun k' hk' => bindsAt_unique hk' hk⟩
        simp [Chunk.jumpTarget?, hi, Instr.label?, Chunk.labelPosition?, hlt]
      · rw [List.size_toArray, hlength] at hid
        exact (hbuilt.linked ⟨id⟩).1 (LabelTable.isUsed_of_resolve hresolve hid)

/-- A loop that is left and begun again, among requests that fail: an operand is missing, a label is
placed twice, a jump leads to no label, and a loop is closed that was never opened. -/
def sampleRequests : List Request :=
  [.param "a", .instr (.binary .plus), .newLabel "again", .bindLabel ⟨0⟩, .bindLabel ⟨0⟩,
    .enterLoop (some ⟨0⟩), .int 1, .bindLocal "x", .loopJump .breakLoop, .jump .ifNil ⟨7⟩,
    .loopJump .continueLoop, .exitLoop, .exitLoop, .ret]

theorem finish_afterAll_sampleRequests :
    ∃ chunk, (afterAll {} sampleRequests).finish = .ok chunk ∧
      (∃ k, BindsAt sampleRequests k ⟨1⟩ ∧
        chunk.jumpTarget? 2 = some (afterAll {} (sampleRequests.take k)).code.size) ∧
      (∃ kind, .jump kind ⟨0⟩ ∈ chunk.code) ∧ IsGreatest (depths sampleRequests) 2 := by
  have hfinished : (afterAll {} sampleRequests).finish.toOption =
      some ⟨#[.constRef 0, .discard 1, .jump .always ⟨1⟩, .jump .always ⟨0⟩, .ret],
        #[0, 4], 2⟩ := by
    decide +kernel
  cases hfinish : (afterAll {} sampleRequests).finish with
  | error e =>
      rw [hfinish] at hfinished
      cases hfinished
  | ok chunk =>
      rw [hfinish] at hfinished
      cases hfinished
      obtain ⟨htargets, -, hlabels, hdepth⟩ := finish_afterAll hfinish
      obtain ⟨p, k, hp, -, hk, rfl, -⟩ := htargets 2 .always ⟨1⟩ rfl
      exact ⟨_, rfl, ⟨k, hk, hp⟩, hlabels 0 (by decide), hdepth⟩

end Assembly

end StackCompiler
