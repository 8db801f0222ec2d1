import Mathlib.Logic.Function.Basic
import StackCompiler.Proofs.StaticStack

/-!
Depths of the stack, which are found along with the code. A jump may lead to a label that is placed
later, so a label gets the depth that is expected of it when it is created. Jumps and the place of
the label are then checked against this depth, each for itself.
-/

namespace StackCompiler

namespace Instr

def depthAfter (i : Instr) (depth : Nat) : Nat :=
  depth - i.pops + i.pushes

def fallsThrough : Instr → Bool
  | .ret | .jump .always _ => false
  | _ => true

/-- How far below the top the slot is that the instruction reads or writes. -/
def offset? : Instr → Option Nat
  | .stackRef n | .stackSet n => some n.toNat
  | _ => none

/-- The stack is deep enough for the instruction, and within the bound before and after it. -/
structure Fits (i : Instr) (bound depth : Nat) : Prop where
  pops_le : i.pops ≤ depth
  offset_lt : ∀ n, i.offset? = some n → n < depth
  before_le : depth ≤ bound
  after_le : i.depthAfter depth ≤ bound

theorem Fits.mono {i : Instr} {bound bound' depth : Nat} (h : i.Fits bound depth)
    (hle : bound ≤ bound') : i.Fits bound' depth :=
  ⟨h.pops_le, h.offset_lt, h.before_le.trans hle, h.after_le.trans hle⟩

end Instr

/-- The depth after a jump that is taken. Some jumps then keep the value they have tested. -/
def JumpKind.depthTaken : JumpKind → Nat → Nat
  | .ifNil, depth | .ifNotNil, depth => depth - 1
  | .always, depth | .ifNilElsePop, depth | .ifNotNilElsePop, depth => depth

/-- A depth for every instruction, and the depth that is expected at every label. -/
structure Depths where
  code : Nat → Nat
  label : Label → Nat

namespace Depths

/-- The depths are right for the code so far. The instructions in `ends` are never left. -/
structure Types (ends : Nat → Prop) (x : Depths) (s : Assembly) : Prop where
  here : x.code s.code.size = s.slots.names.length
  le_max : s.slots.names.length ≤ s.slots.maxDepth
  fits : ∀ (k : Nat) (i : Instr), s.code[k]? = some i → i.Fits s.slots.maxDepth (x.code k)
  next : ∀ (k : Nat) (i : Instr), s.code[k]? = some i → i.fallsThrough = true → ¬ ends k →
    x.code (k + 1) = i.depthAfter (x.code k)
  taken : ∀ (k : Nat) (kind : JumpKind) (l : Label), s.code[k]? = some (.jump kind l) →
    x.label l = kind.depthTaken (x.code k) ∧ l.id < s.labels.size
  places : ∀ l p, s.labels.place? l = some p → p ≤ s.code.size ∧ x.code p = x.label l
  loops : ∀ c ∈ s.loops.loops, ∀ (j : LoopJump) (l : Label), j.label? c = some l →
    x.label l = c.depth ∧ l.id < s.labels.size

structure Extends (s : Assembly) (x y : Depths) : Prop where
  code : ∀ k ≤ s.code.size, y.code k = x.code k
  label : ∀ l : Label, l.id < s.labels.size → y.label l = x.label l

theorem Extends.refl (s : Assembly) (x : Depths) : x.Extends s x :=
  ⟨fun _ _ => rfl, fun _ _ => rfl⟩

theorem Extends.trans {s t : Assembly} {x y z : Depths} (hxy : x.Extends s y) (hgrows : s.Grows t)
    (hyz : y.Extends t z) : x.Extends s z where
  code k hk := (hyz.code k (hk.trans hgrows.size_le)).trans (hxy.code k hk)
  label l hl := (hyz.label l (hl.trans_le hgrows.labels)).trans (hxy.label l hl)

variable {ends : Nat → Prop} {x : Depths} {s s' : Assembly}

/-- One more instruction. The static stack afterwards only has to fit the instruction if control may
get to the next one. -/
theorem Types.append (hx : x.Types ends s) {i : Instr} (hcode : s'.code = s.code.push i)
    (hlabels : s'.labels.size = s.labels.size)
    (hplaces : ∀ l, s'.labels.place? l = s.labels.place? l) (hloops : s'.loops = s.loops)
    (hmax : s.slots.maxDepth ≤ s'.slots.maxDepth)
    (hle : s'.slots.names.length ≤ s'.slots.maxDepth)
    (hfits : i.Fits s'.slots.maxDepth s.slots.names.length)
    (hnext : i.fallsThrough = true → ¬ ends s.code.size →
      s'.slots.names.length = i.depthAfter s.slots.names.length)
    (htaken : ∀ (kind : JumpKind) (l : Label), i = .jump kind l →
      x.label l = kind.depthTaken s.slots.names.length ∧ l.id < s.labels.size) :
    ∃ y, x.Extends s y ∧ y.Types ends s' := by
  have hsize : s'.code.size = s.code.size + 1 := by rw [hcode, Array.size_push]
  let y : Depths :=
    { x with code := Function.update x.code (s.code.size + 1) s'.slots.names.length }
  have hold : ∀ k ≤ s.code.size, y.code k = x.code k := by
    intro k hk
    exact Function.update_of_ne (by omega) _ _
  have hnew : y.code (s.code.size + 1) = s'.slots.names.length := Function.update_self ..
  have hhere : y.code s.code.size = s.slots.names.length := (hold _ le_rfl).trans hx.here
  -- an instruction is the new one or was there before
  have hcases : ∀ (k : Nat) (i' : Instr), s'.code[k]? = some i' →
      (k = s.code.size ∧ i' = i) ∨ (k < s.code.size ∧ s.code[k]? = some i') := by
    intro k i' hk
    rw [hcode, Array.getElem?_push] at hk
    split at hk
    · rename_i heq
      exact .inl ⟨heq, (Option.some.inj hk).symm⟩
    · exact .inr ⟨(Array.getElem?_eq_some_iff.1 hk).1, hk⟩
  refine ⟨y, ⟨hold, fun _ _ => rfl⟩, ?_, hle, ?_, ?_, ?_, ?_, ?_⟩
  · rw [hsize, hnew]
  · intro k i' hk
    obtain ⟨rfl, rfl⟩ | ⟨hlt, hk⟩ := hcases k i' hk
    · rw [hhere]
      exact hfits
    · rw [hold k hlt.le]
      exact (hx.fits k i' hk).mono hmax
  · intro k i' hk hfalls hends
    obtain ⟨rfl, rfl⟩ | ⟨hlt, hk⟩ := hcases k i' hk
    · rw [hhere, hnew]
      exact hnext hfalls hends
    · rw [hold k hlt.le, hold (k + 1) hlt]
      exact hx.next k i' hk hfalls hends
  · intro k kind l hk
    rw [hlabels]
    obtain ⟨rfl, hi⟩ | ⟨hlt, hk⟩ := hcases k _ hk
    · rw [hhere]
      exact htaken kind l hi.symm
    · rw [hold k hlt.le]
      exact hx.taken k kind l hk
  · intro l p hp
    rw [hplaces] at hp
    obtain ⟨hle, hdepth⟩ := hx.places l p hp
    rw [hold p hle]
    exact ⟨by omega, hdepth⟩
  · intro c hc
    rw [hloops] at hc
    rw [hlabels]
    exact hx.loops c hc

/-- The depths fit every assembly with the same code, places, labels and loops. -/
theorem Types.congr (hx : x.Types ends s) (hcode : s'.code = s.code)
    (hnames : s'.slots.names.length = s.slots.names.length)
    (hmax : s'.slots.maxDepth = s.slots.maxDepth) (hlabels : s'.labels = s.labels)
    (hloops : s'.loops = s.loops) : x.Types ends s' := by
  obtain ⟨hhere, hle, hfits, hnext, htaken, hplaces, hloops'⟩ := hx
  constructor
  · rw [hcode, hnames, hhere]
  · rw [hnames, hmax]
    exact hle
  · rw [hcode, hmax]
    exact hfits
  · rw [hcode]
    exact hnext
  · rw [hcode, hlabels]
    exact htaken
  · rw [hcode, hlabels]
    exact hplaces
  · rw [hloops, hlabels]
    exact hloops'

def Meets (s : Assembly) (x : Depths) (es : List (Label × Nat)) : Prop :=
  ∀ e ∈ es, x.label e.1 = e.2 ∧ e.1.id < s.labels.size

theorem Meets.of_extends {t : Assembly} {y : Depths} {es : List (Label × Nat)}
    (h : x.Meets s es) (hxy : x.Extends s y) (hgrows : s.Grows t) : y.Meets t es := by
  intro e he
  obtain ⟨hlabel, hlt⟩ := h e he
  exact ⟨(hxy.label e.1 hlt).trans hlabel, hlt.trans_le hgrows.labels⟩

/-- The next label is created and expected at some depth. -/
theorem Types.expect (hx : x.Types ends s) (name : String) (depth : Nat) :
    ∃ y, x.Extends s y ∧ y.Types ends { s with labels := s.labels.create name } ∧
      ∀ es, x.Meets s es →
        y.Meets { s with labels := s.labels.create name } ((s.labels.next, depth) :: es) := by
  let y : Depths := { x with label := Function.update x.label s.labels.next depth }
  have hold : ∀ l : Label, l.id < s.labels.size → y.label l = x.label l := by
    intro l hl
    refine Function.update_of_ne (fun h => ?_) _ _
    rw [h] at hl
    exact lt_irrefl _ hl
  have hlt : ∀ {k}, k < s.labels.size → k < (s.labels.create name).size := by
    intro k hk
    rw [LabelTable.size_create]
    omega
  refine ⟨y, ⟨fun _ _ => rfl, hold⟩, ⟨hx.here, hx.le_max, hx.fits, hx.next, ?_, ?_, ?_⟩, ?_⟩
  · intro k kind l hk
    obtain ⟨hlabel, hl⟩ := hx.taken k kind l hk
    exact ⟨(hold l hl).trans hlabel, hlt hl⟩
  · intro l p hp
    rw [LabelTable.place?_create] at hp
    obtain ⟨hle, hdepth⟩ := hx.places l p hp
    exact ⟨hle, hdepth.trans (hold l (LabelTable.lt_size_of_place? hp)).symm⟩
  · intro c hc j l hl
    obtain ⟨hlabel, hl⟩ := hx.loops c hc j l hl
    exact ⟨(hold l hl).trans hlabel, hlt hl⟩
  · intro es hmeets e he
    obtain rfl | he := List.mem_cons.1 he
    · refine ⟨Function.update_self .., ?_⟩
      rw [LabelTable.size_create]
      exact Nat.lt_succ_self _
    · obtain ⟨hlabel, hl⟩ := hmeets e he
      exact ⟨(hold e.1 hl).trans hlabel, hlt hl⟩

/-- A label is placed at the depth that is expected of it. -/
theorem Types.places_label (hx : x.Types ends s) {l : Label} (h : Places l s s')
    (hl : x.label l = s.slots.names.length) : x.Types ends s' := by
  obtain ⟨labels, rfl, hsize, -, hplaces, -⟩ := h
  refine ⟨hx.here, hx.le_max, hx.fits, hx.next, ?_, ?_, ?_⟩
  · intro k kind m hk
    rw [hsize]
    exact hx.taken k kind m hk
  · intro m p hp
    rw [hplaces m] at hp
    split at hp
    · rename_i hm
      obtain rfl := Option.some.inj hp
      rw [hm, hl]
      exact ⟨le_rfl, hx.here⟩
    · exact hx.places m p hp
  · intro c hc j m hm
    rw [hsize]
    exact hx.loops c hc j m hm

theorem Types.withLoops (hx : x.Types ends s) {loops : LoopStack}
    (hloops : ∀ c ∈ loops.loops, ∀ (j : LoopJump) (l : Label), j.label? c = some l →
      x.label l = c.depth ∧ l.id < s.labels.size) : x.Types ends { s with loops } :=
  ⟨hx.here, hx.le_max, hx.fits, hx.next, hx.taken, hx.places, hloops⟩

end Depths

/-- Depths of the code so far in which labels have the expected depths can be extended to the code
that follows. -/
structure Typable (ends : Nat → Prop) (es : List (Label × Nat)) (s s' : Assembly) : Prop where
  grows : s.Grows s'
  typed : ∀ x : Depths, x.Types ends s → x.Meets s es → ∃ y, x.Extends s y ∧ y.Types ends s'

namespace Typable

open Depths

variable {ends : Nat → Prop} {es : List (Label × Nat)} {s t s' : Assembly}

theorem refl (s : Assembly) : Typable ends es s s :=
  ⟨.refl s, fun x hx _ => ⟨x, .refl s x, hx⟩⟩

theorem trans (h₁ : Typable ends es s t) (h₂ : Typable ends es t s') : Typable ends es s s' := by
  refine ⟨h₁.grows.trans h₂.grows, fun x hx hmeets => ?_⟩
  obtain ⟨y, hxy, hy⟩ := h₁.typed x hx hmeets
  obtain ⟨z, hyz, hz⟩ := h₂.typed y hy (hmeets.of_extends hxy h₁.grows)
  exact ⟨z, hxy.trans h₁.grows hyz, hz⟩

theorem weaken (h : Typable ends [] s s') : Typable ends es s s' :=
  ⟨h.grows, fun x hx _ => h.typed x hx (by simp [Meets])⟩

theorem appends {i : Instr} (h : Appends i s s')
    (hoffset : ∀ n, i.offset? = some n → n < s.slots.names.length)
    (htaken : ∀ (kind : JumpKind) (l : Label), i = .jump kind l →
      (l, kind.depthTaken s.slots.names.length) ∈ es) : Typable ends es s s' := by
  refine ⟨Assembly.Grows.stable.appends h, fun x hx hmeets => ?_⟩
  have hlength : s'.slots.names.length = i.depthAfter s.slots.names.length := by
    rw [h.names, List.length_append, List.length_replicate, List.length_drop, Instr.depthAfter]
    omega
  have hmax := h.maxDepth
  have hle := hx.le_max
  refine hx.append h.code h.labels h.places h.loops (by omega) (by omega) ?_ ?_ ?_
  · exact ⟨h.pops_le, hoffset, by omega, by omega⟩
  · exact fun _ _ => hlength
  · exact fun kind l hi => hmeets _ (htaken kind l hi)

/-- An instruction that neither jumps nor looks below the values it pops. -/
theorem plain {i : Instr} (h : Appends i s s') (hoffset : i.offset? = none)
    (hlabel : i.label? = none) : Typable ends es s s' := by
  refine appends h ?_ ?_
  · intro k hk
    rw [hoffset] at hk
    cases hk
  · intro kind l hi
    rw [hi] at hlabel
    cases hlabel

/-- An instruction that reads or writes a slot of the stack. -/
theorem reaches {i : Instr} {n : Nat} (h : Appends i s s') (hoffset : i.offset? = some n)
    (hlt : n < s.slots.names.length) : Typable ends es s s' := by
  refine appends h ?_ ?_
  · intro k hk
    rw [hoffset] at hk
    obtain rfl := Option.some.inj hk
    exact hlt
  · intro kind l hi
    rw [hi] at hoffset
    cases hoffset

theorem jumps {kind : JumpKind} {l : Label} (h : Appends (.jump kind l) s s')
    (hmem : (l, kind.depthTaken s.slots.names.length) ∈ es) : Typable ends es s s' := by
  refine appends h (by simp [Instr.offset?]) fun kind' l' hi => ?_
  cases hi
  exact hmem

theorem indexed {i : UInt16 → Instr} {c : Constant} (h : AppendsIndexed i c s s')
    (hoffset : ∀ n, (i n).offset? = none) (hlabel : ∀ n, (i n).label? = none) :
    Typable ends es s s' := by
  obtain ⟨n, -, happ⟩ := h
  have hpool : Typable ends es s { s with pool := (s.pool.add c).2 } :=
    ⟨.of_addConstant s c, fun x hx _ => ⟨x, .refl s x, hx.congr rfl rfl rfl rfl rfl⟩⟩
  exact hpool.trans (plain happ (hoffset n) (hlabel n))

theorem loads {c : Constant} (h : AppendsIndexed .constRef c s s') : Typable ends es s s' :=
  indexed h (fun _ => rfl) fun _ => rfl

theorem drops {count : Nat} (h : Drops count s s') : Typable ends es s s' := by
  obtain ⟨rfl, rfl⟩ | ⟨n, rfl, happ⟩ := h
  · exact refl _
  · exact plain happ rfl rfl

theorem relabels {name : Option String} (h : Relabels name s s') : Typable ends es s s' := by
  refine ⟨Assembly.Grows.stable.relabels h, fun x hx _ => ⟨x, .refl s x, ?_⟩⟩
  obtain ⟨slots, old, rest, rfl, hold, hnew, hmax⟩ := h
  exact hx.congr rfl (by simp [hold, hnew]) hmax rfl rfl

/-- A new label may be expected at any depth. -/
theorem creates {l : Label} (depth : Nat) (h : Creates l s t)
    (hrest : Typable ends ((l, depth) :: es) t s') : Typable ends es s s' := by
  refine ⟨(Assembly.Grows.of_creates h).trans hrest.grows, fun x hx hmeets => ?_⟩
  have hgrows := Assembly.Grows.of_creates h
  obtain ⟨name, rfl, rfl⟩ := h
  obtain ⟨y, hxy, hy, hexpects⟩ := hx.expect name depth
  obtain ⟨z, hyz, hz⟩ := hrest.typed y hy (hexpects es hmeets)
  exact ⟨z, hxy.trans hgrows hyz, hz⟩

theorem places {l : Label} (h : Places l s s')
    (hl : ∀ x : Depths, x.Types ends s → x.Meets s es → x.label l = s.slots.names.length) :
    Typable ends es s s' :=
  ⟨.of_places h, fun x hx hmeets => ⟨x, .refl s x, hx.places_label h (hl x hx hmeets)⟩⟩

theorem places_of_mem {l : Label} (h : Places l s s') (hmem : (l, s.slots.names.length) ∈ es) :
    Typable ends es s s' :=
  places h fun _ _ hmeets => (hmeets _ hmem).1

/-- A loop is opened. Its `continue` may lead to a label that is expected at the present depth. -/
theorem enters {l : Option Label} (hl : ∀ m, l = some m → (m, s.slots.names.length) ∈ es) :
    Typable ends es s { s with loops := s.loops.enter s.slots.depth l } := by
  refine ⟨.of_loops s _, fun x hx hmeets => ⟨x, .refl s x, hx.withLoops ?_⟩⟩
  intro c hc j m hm
  rw [LoopStack.enter, List.mem_cons] at hc
  obtain rfl | hc := hc
  · cases j with
    | breakLoop => cases hm
    | continueLoop =>
        rw [s.slots.depth_eq]
        exact hmeets _ (hl m hm)
  · exact hx.loops c hc j m hm

theorem closes (h : Closes s s')
    (hdepth : ∀ c rest, s.loops.loops = c :: rest → c.depth = s.slots.names.length) :
    Typable ends es s s' := by
  refine ⟨.of_closes h, fun x hx _ => ⟨x, .refl s x, ?_⟩⟩
  obtain ⟨c, rest, hloops, h⟩ := h
  have houter : x.Types ends { s with loops := ⟨rest⟩ } :=
    hx.withLoops fun d hd => hx.loops d (by rw [hloops]; exact List.mem_cons_of_mem _ hd)
  obtain ⟨-, rfl⟩ | ⟨l, hl, hplace⟩ := h
  · exact houter
  · have hmem : c ∈ s.loops.loops := by rw [hloops]; exact List.mem_cons_self
    exact houter.places_label hplace
      ((hx.loops c hmem .breakLoop l hl).1.trans (hdepth c rest hloops))

/-- The label of a jump in a loop is expected at the depth of the loop. -/
theorem finds {j : LoopJump} {c : LoopContext} {rest : List LoopContext} {l : Label}
    (hloops : s.loops.loops = c :: rest) (h : Finds j c rest l s t)
    (hrest : Typable ends ((l, c.depth) :: es) t s') : Typable ends es s s' := by
  have hgrows : s.Grows t := Assembly.Grows.stable.finds hloops h
  refine ⟨hgrows.trans hrest.grows, fun x hx hmeets => ?_⟩
  have hmem : c ∈ s.loops.loops := by rw [hloops]; exact List.mem_cons_self
  obtain ⟨hl, rfl⟩ | ⟨-, rfl, rfl⟩ := h
  · refine hrest.typed x hx fun e he => ?_
    obtain rfl | he := List.mem_cons.1 he
    · exact hx.loops c hmem j l hl
    · exact hmeets e he
  · obtain ⟨y, hxy, hy, hexpects⟩ := hx.expect j.labelName c.depth
    have hmeets' := hexpects es hmeets
    have hy' : y.Types ends { s with
        labels := s.labels.create j.labelName, loops := ⟨j.setLabel s.labels.next c :: rest⟩ } := by
      refine hy.withLoops fun d hd i m hm => ?_
      obtain rfl | hd := List.mem_cons.1 hd
      · -- the new label is that of the jump, and the other one is as before
        obtain ⟨rfl, rfl⟩ | hm : (i = j ∧ m = s.labels.next) ∨ i.label? c = some m := by
          cases i <;> cases j <;> simp_all [LoopJump.label?, LoopJump.setLabel]
        · rw [show (i.setLabel s.labels.next c).depth = c.depth by cases i <;> rfl]
          exact hmeets' _ List.mem_cons_self
        · rw [show (j.setLabel s.labels.next c).depth = c.depth by cases j <;> rfl]
          exact hy.loops c hmem i m hm
      · exact hy.loops d (by rw [hloops]; exact List.mem_cons_of_mem _ hd) i m hm
    obtain ⟨z, hyz, hz⟩ := hrest.typed y hy' hmeets'
    exact ⟨z, hxy.trans hgrows hyz, hz⟩

/-- A jump out of the present block to a label that is expected at a smaller depth. -/
theorem leaves {target : Nat} {l : Label} (h : Leaves target l s s') (hmem : (l, target) ∈ es) :
    Typable ends es s s' := by
  refine ⟨Assembly.Grows.stable.leaves h, fun x hx hmeets => ?_⟩
  obtain ⟨rfl, happ⟩ | ⟨n, hn, hlt, happ⟩ := h
  · exact (jumps happ hmem).typed x hx hmeets
  · -- between the two instructions the stack is as deep as the label expects it
    let u : Assembly := { s with
      code := s.code.push (.discard n)
      slots := { names := s.slots.names.drop n.toNat, maxDepth := s.slots.maxDepth } }
    have hle := hx.le_max
    have hlength : u.slots.names.length = target := by
      show (s.slots.names.drop n.toNat).length = target
      rw [List.length_drop]
      omega
    have hafter : (Instr.discard n).depthAfter s.slots.names.length = target := by
      simp only [Instr.depthAfter, Instr.pops, Instr.pushes]
      omega
    have hbound : target ≤ s.slots.maxDepth := by omega
    have hdiscard : ∃ y, x.Extends s y ∧ y.Types ends u := by
      refine hx.append rfl rfl (fun _ => rfl) rfl le_rfl (hlength.trans_le hbound) ?_ ?_ (by simp)
      · refine ⟨?_, by simp [Instr.offset?], hle, hafter.trans_le hbound⟩
        simp only [Instr.pops]
        omega
      · exact fun _ _ => by rw [hlength, hafter]
    obtain ⟨y, hxy, hy⟩ := hdiscard
    have hgrows : s.Grows u :=
      ⟨by simp [u], List.prefix_rfl, le_rfl, fun _ _ hp => hp, le_rfl⟩
    have hmax : s'.slots.maxDepth = max s.slots.maxDepth s'.slots.names.length := happ.maxDepth
    have hjump : ∃ z, y.Extends u z ∧ z.Types ends s' := by
      refine hy.append happ.code happ.labels happ.places happ.loops ?_ ?_ ?_
        (by simp [Instr.fallsThrough]) ?_
      · show s.slots.maxDepth ≤ s'.slots.maxDepth
        omega
      · omega
      · refine ⟨Nat.zero_le _, by simp [Instr.offset?], ?_, ?_⟩
        · omega
        · simp only [Instr.depthAfter, Instr.pops, Instr.pushes, hlength]
          omega
      · intro kind m hi
        cases hi
        rw [hlength]
        exact (hmeets.of_extends hxy hgrows) _ hmem
    obtain ⟨z, hyz, hz⟩ := hjump
    exact ⟨z, hxy.trans hgrows hyz, hz⟩

/-- A call that is never left, after which the static stack may be anything. -/
theorem endsHere {n : UInt8} {count : Nat} (h : Appends (.call n) s t)
    (hforget : Forgets count t s') (hends : ends s.code.size) : Typable ends es s s' := by
  refine ⟨(Assembly.Grows.stable.appends h).trans (Assembly.Grows.stable.forgets hforget),
    fun x hx hmeets => ?_⟩
  have hle := hx.le_max
  have hmax := h.maxDepth
  have hlength : t.slots.names.length = (Instr.call n).depthAfter s.slots.names.length := by
    rw [h.names, List.length_append, List.length_replicate, List.length_drop, Instr.depthAfter]
    omega
  obtain ⟨slots, rfl, hcount, hnames, hmax'⟩ := hforget
  have hdrop : slots.names.length ≤ t.slots.names.length := by
    rw [hnames, List.length_drop]
    omega
  refine hx.append h.code h.labels h.places h.loops (by dsimp; omega) (by dsimp; omega) ?_ ?_ ?_
  · exact ⟨h.pops_le, by simp [Instr.offset?], by dsimp; omega, by dsimp; omega⟩
  · exact fun _ hnot => absurd hends hnot
  · simp

end Typable

end StackCompiler
