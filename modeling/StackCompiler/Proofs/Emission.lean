import StackCompiler.CompiledFunction
import StackCompiler.Proofs.Runtime

/-!
What the steps of code construction do when they succeed. Each step has one lemma that says how it
changes the assembly, and later proofs use these lemmas only. Code, constants, the places of labels
and the greatest depth are never taken back, so whatever holds of them at one point of the
construction holds of the finished function.
-/

namespace StackCompiler

/-! ### Tables -/

namespace LabelTable

def place? (t : LabelTable) (l : Label) : Option Nat :=
  (t.get? l).bind (·.position)

theorem place?_update {t : LabelTable} {l : Label} {old info : LabelInfo}
    (h : t.get? l = some old) (m : Label) :
    (t.update l info).place? m = if m = l then info.position else t.place? m := by
  have hlt : l.id < t.labels.size := (Array.getElem?_eq_some_iff.1 h).1
  simp only [place?, get?, update, Array.getElem?_setIfInBounds]
  by_cases hm : m = l
  · subst hm
    simp [hlt]
  · have hid : l.id ≠ m.id := fun hid => hm (by cases l; cases m; simp_all)
    simp [hm, hid]

def isUsed (t : LabelTable) (l : Label) : Bool :=
  (t.get? l).any (·.used)

theorem isUsed_update {t : LabelTable} {l : Label} {old info : LabelInfo}
    (h : t.get? l = some old) (m : Label) :
    (t.update l info).isUsed m = if m = l then info.used else t.isUsed m := by
  have hlt : l.id < t.labels.size := (Array.getElem?_eq_some_iff.1 h).1
  simp only [isUsed, get?, update, Array.getElem?_setIfInBounds]
  by_cases hm : m = l
  · subst hm
    simp [hlt]
  · have hid : l.id ≠ m.id := fun hid => hm (by cases l; cases m; simp_all)
    simp [hm, hid]

theorem lt_size_of_get? {t : LabelTable} {l : Label} {info : LabelInfo}
    (h : t.get? l = some info) : l.id < t.size :=
  (Array.getElem?_eq_some_iff.1 h).1

theorem lt_size_of_place? {t : LabelTable} {l : Label} {p : Nat} (h : t.place? l = some p) :
    l.id < t.size := by
  obtain ⟨info, hinfo, -⟩ := Option.bind_eq_some_iff.1 h
  exact lt_size_of_get? hinfo

/-- Only a label that exists is used, and no label moves. -/
theorem markUsed_ok {t t' : LabelTable} {l : Label} (h : t.markUsed l = .ok t') :
    l.id < t.size ∧ t'.size = t.size ∧ (∀ m, t'.place? m = t.place? m) ∧
      ∀ m, t'.isUsed m = true ↔ t.isUsed m = true ∨ m = l := by
  unfold markUsed at h
  split at h
  · cases h
  · rename_i info hinfo
    cases h
    refine ⟨lt_size_of_get? hinfo, by simp [size, update], fun m => ?_, fun m => ?_⟩
    · rw [place?_update hinfo]
      split
      · rename_i hm
        simp [hm, place?, hinfo]
      · rfl
    · rw [isUsed_update hinfo]
      split
      · rename_i hm
        simp [hm]
      · rename_i hm
        simp [hm]

theorem size_create (t : LabelTable) (name : String) : (t.create name).size = t.size + 1 := by
  cases t
  simp [create, size]

theorem place?_create (t : LabelTable) (name : String) (m : Label) :
    (t.create name).place? m = t.place? m := by
  cases t with
  | mk labels =>
      simp only [create, place?, get?, Array.getElem?_push]
      split
      · rename_i hm
        simp [hm]
      · rfl

theorem isUsed_create (t : LabelTable) (name : String) (m : Label) :
    (t.create name).isUsed m = t.isUsed m := by
  cases t with
  | mk labels =>
      simp only [create, isUsed, get?, Array.getElem?_push]
      split
      · rename_i hm
        simp [hm]
      · rfl

/-- Placing a label, which had no place before, moves no other. -/
theorem bind_ok {t t' : LabelTable} {l : Label} {position : Nat}
    (h : t.bind l position = .ok t') :
    t'.size = t.size ∧ t.place? l = none ∧
      (∀ m, t'.place? m = if m = l then some position else t.place? m) ∧
        ∀ m, t'.isUsed m = t.isUsed m := by
  unfold bind at h
  split at h
  · cases h
  · rename_i info hinfo
    split at h
    · cases h
    · rename_i hfree
      cases h
      refine ⟨by simp [size, update], by simp [place?, hinfo, hfree], place?_update hinfo,
        fun m => ?_⟩
      rw [isUsed_update hinfo]
      split
      · rename_i hm
        simp [hm, isUsed, hinfo]
      · rfl

end LabelTable

namespace Pool

/-- Adding a constant yields the index of a constant that equals it, and nothing moves. -/
theorem add_spec (p : Pool) (c : Constant) :
    (∃ d, (p.add c).2.entries[(p.add c).1]? = some d ∧ d.key = c.key) ∧
      p.entries.toList <+: (p.add c).2.entries.toList := by
  unfold add
  split
  · rename_i i hfind
    obtain ⟨d, hd, hkey⟩ := (p.agree c.key i).1 hfind
    exact ⟨⟨d, hd, hkey⟩, List.prefix_rfl⟩
  · cases p with
    | mk entries index agree => exact ⟨⟨c, by simp [push, size], rfl⟩, by simp [push]⟩

/-- What is in the pool afterwards was there before or is the added constant. -/
theorem mem_add {p : Pool} {c d : Constant} (h : d ∈ (p.add c).2.entries) :
    d ∈ p.entries ∨ d = c := by
  unfold add at h
  split at h
  · exact .inl h
  · cases p with
    | mk entries index agree => simpa [push] using h

/-- Two constants of a pool that are equal are the same one. -/
theorem index_unique (p : Pool) {i j : Nat} {c d : Constant} (hc : p.entries[i]? = some c)
    (hd : p.entries[j]? = some d) (hkey : c.key = d.key) : i = j := by
  have hi := (p.agree c.key i).2 ⟨c, hc, rfl⟩
  have hj := (p.agree c.key j).2 ⟨d, hd, hkey.symm⟩
  rw [hi] at hj
  exact Option.some.inj hj

end Pool

/-! ### What steps do -/

/-- The instruction is appended and its effect applied to the static stack. -/
structure Appends (i : Instr) (s s' : Assembly) : Prop where
  code : s'.code = s.code.push i
  pops_le : i.pops ≤ s.slots.names.length
  names : s'.slots.names = List.replicate i.pushes none ++ s.slots.names.drop i.pops
  maxDepth : s'.slots.maxDepth = max s.slots.maxDepth s'.slots.names.length
  pool : s'.pool = s.pool
  loops : s'.loops = s.loops
  label_lt : ∀ l, i.label? = some l → l.id < s.labels.size
  labels : s'.labels.size = s.labels.size
  places : ∀ l, s'.labels.place? l = s.labels.place? l
  used : ∀ l, s'.labels.isUsed l = true ↔ s.labels.isUsed l = true ∨ i.label? = some l

/-- A constant is looked up or added, and an instruction with its index is appended. -/
def AppendsIndexed (i : UInt16 → Instr) (c : Constant) (s s' : Assembly) : Prop :=
  ∃ n : UInt16, n.toNat = (s.pool.add c).1 ∧
    Appends (i n) { s with pool := (s.pool.add c).2 } s'

def Drops (count : Nat) (s s' : Assembly) : Prop :=
  (count = 0 ∧ s' = s) ∨ ∃ n : UInt16, n.toNat = count ∧ Appends (.discard n) s s'

/-- Slots are dropped, but no instruction says so. -/
def Forgets (count : Nat) (s s' : Assembly) : Prop :=
  ∃ slots : Slots, s' = { s with slots } ∧ count ≤ s.slots.names.length ∧
    slots.names = s.slots.names.drop count ∧ slots.maxDepth = s.slots.maxDepth

def Relabels (name : Option String) (s s' : Assembly) : Prop :=
  ∃ (slots : Slots) (old : Option String) (rest : List (Option String)),
    s' = { s with slots } ∧ s.slots.names = old :: rest ∧ slots.names = name :: rest ∧
      slots.maxDepth = s.slots.maxDepth

def Creates (l : Label) (s s' : Assembly) : Prop :=
  ∃ name, l = s.labels.next ∧ s' = { s with labels := s.labels.create name }

/-- A label without a place is placed at the end of the code, and no other label moves. -/
def Places (l : Label) (s s' : Assembly) : Prop :=
  ∃ labels : LabelTable, s' = { s with labels } ∧ labels.size = s.labels.size ∧
    s.labels.place? l = none ∧
      (∀ m, labels.place? m = if m = l then some s.code.size else s.labels.place? m) ∧
        ∀ m, labels.isUsed m = s.labels.isUsed m

/-- The innermost loop `c` has a label for the jump, or gets a new one. -/
def Finds (j : LoopJump) (c : LoopContext) (rest : List LoopContext) (l : Label)
    (s s' : Assembly) : Prop :=
  (j.label? c = some l ∧ s' = s) ∨
    (j.label? c = none ∧ l = s.labels.next ∧ s' = { s with
      labels := s.labels.create j.labelName
      loops := ⟨j.setLabel l c :: rest⟩ })

/-- The values above a depth are dropped without regard to the static stack, then a jump follows. -/
def Leaves (target : Nat) (l : Label) (s s' : Assembly) : Prop :=
  (target = s.slots.names.length ∧ Appends (.jump .always l) s s') ∨
    ∃ n : UInt16, n.toNat = s.slots.names.length - target ∧ target < s.slots.names.length ∧
      Appends (.jump .always l) { s with code := s.code.push (.discard n) } s'

/-- The innermost loop is closed, and the label of its `break`, if there is one, is placed. -/
def Closes (s s' : Assembly) : Prop :=
  ∃ c rest, s.loops.loops = c :: rest ∧
    ((c.breakLabel = none ∧ s' = { s with loops := ⟨rest⟩ }) ∨
      ∃ l, c.breakLabel = some l ∧ Places l { s with loops := ⟨rest⟩ } s')

namespace Emit

def built? (x : Emit Unit) (s : Assembly) : Option Assembly :=
  match x s with
  | .ok _ s' => some s'
  | .error _ _ => none

theorem built?_eq_some {x : Emit Unit} {s s' : Assembly} (h : built? x s = some s') :
    x s = .ok () s' := by
  unfold built? at h
  split at h
  · cases h
    assumption
  · cases h

theorem onSlots_ok {g : Slots → Except Fault Slots} {s s' : Assembly} {u : Unit}
    (h : onSlots g s = .ok u s') : ∃ slots, g s.slots = .ok slots ∧ s' = { s with slots } := by
  unfold onSlots at h
  split at h
  · rename_i slots hslots
    cases h
    exact ⟨slots, hslots, rfl⟩
  · cases h

theorem onLabels_ok {g : LabelTable → Except Fault LabelTable} {s s' : Assembly} {u : Unit}
    (h : onLabels g s = .ok u s') :
    ∃ labels, g s.labels = .ok labels ∧ s' = { s with labels } := by
  unfold onLabels at h
  split at h
  · rename_i labels hlabels
    cases h
    exact ⟨labels, hlabels, rfl⟩
  · cases h

theorem discardModel_ok {count : Nat} {s s' : Assembly} {u : Unit}
    (h : discardModel count s = .ok u s') : Forgets count s s' := by
  obtain ⟨slots, hslots, rfl⟩ := onSlots_ok h
  unfold Slots.pop at hslots
  split at hslots
  · rename_i hle
    cases hslots
    exact ⟨_, rfl, s.slots.depth_eq ▸ hle, rfl, rfl⟩
  · cases hslots

theorem rename_ok {slots slots' : Slots} {name : Option String}
    (h : slots.rename? name = some slots') :
    ∃ old rest, slots.names = old :: rest ∧ slots'.names = name :: rest ∧
      slots'.maxDepth = slots.maxDepth := by
  unfold Slots.rename? at h
  split at h
  · cases h
    exact ⟨_, _, rfl, rfl, rfl⟩
  · cases h

theorem bindLocal_ok {name : String} {s s' : Assembly} {u : Unit}
    (h : bindLocal name s = .ok u s') : Relabels (some name) s s' := by
  obtain ⟨slots, hslots, rfl⟩ := onSlots_ok h
  unfold Slots.bind at hslots
  split at hslots
  · rename_i t ht
    cases hslots
    obtain ⟨old, rest, hold, hnew, hmax⟩ := rename_ok ht
    exact ⟨_, old, rest, rfl, hold, hnew, hmax⟩
  · cases hslots

theorem unbindTop_ok {s s' : Assembly} {u : Unit} (h : unbindTop s = .ok u s') :
    Relabels none s s' := by
  obtain ⟨slots, hslots, rfl⟩ := onSlots_ok h
  unfold Slots.unbindTop at hslots
  split at hslots
  · rename_i t ht
    cases hslots
    obtain ⟨old, rest, hold, hnew, hmax⟩ := rename_ok ht
    exact ⟨_, old, rest, rfl, hold, hnew, hmax⟩
  · cases hslots

theorem instr_ok {i : Instr} {s s' : Assembly} {u : Unit} (h : instr i s = .ok u s') :
    Appends i s s' := by
  unfold instr at h
  obtain ⟨_, s₁, hpop, h⟩ := bind_eq_ok.1 h
  obtain ⟨slots, rfl, hle, hnames, hmax⟩ := discardModel_ok hpop
  obtain ⟨_, s₂, hpush, h⟩ := bind_eq_ok.1 h
  cases hpush
  cases hl : i.label? with
  | none =>
      rw [hl] at h
      cases h
      exact ⟨rfl, hle, by simp [Slots.push, hnames], by simp [Slots.push, hmax, slots.depth_eq],
        rfl, rfl, by simp [hl], rfl, fun _ => rfl, by simp [hl]⟩
  | some l =>
      rw [hl] at h
      obtain ⟨_, s₃, hmark, h⟩ := bind_eq_ok.1 h
      obtain ⟨labels, hlabels, rfl⟩ := onLabels_ok hmark
      obtain ⟨hlt, hsize, hplaces, hused⟩ := LabelTable.markUsed_ok hlabels
      cases h
      refine ⟨rfl, hle, by simp [Slots.push, hnames], by simp [Slots.push, hmax, slots.depth_eq],
        rfl, rfl, by simpa [hl] using hlt, hsize, hplaces, fun m => ?_⟩
      rw [hl, Option.some.injEq, eq_comm (a := l)]
      exact hused m

theorem word_ok {r : Resource} {n : Nat} {s s' : Assembly} {v : UInt16}
    (h : word r n s = .ok v s') : s = s' ∧ v.toNat = n := by
  unfold word at h
  split at h
  · rename_i hle
    cases h
    have hlimit : r.limit < UInt16.size := by cases r <;> decide
    exact ⟨rfl, UInt16.toNat_ofNat_of_lt (by omega)⟩
  · cases h

theorem byte_ok {r : Resource} (hr : r.limit < UInt8.size) {n : Nat} {s s' : Assembly} {v : UInt8}
    (h : byte r n s = .ok v s') : s = s' ∧ v.toNat = n := by
  unfold byte at h
  split at h
  · rename_i hle
    cases h
    exact ⟨rfl, UInt8.toNat_ofNat_of_lt (by omega)⟩
  · cases h

theorem discard_ok {count : Nat} {s s' : Assembly} {u : Unit} (h : discard count s = .ok u s') :
    Drops count s s' := by
  unfold discard at h
  split at h
  · rename_i hzero
    cases h
    exact .inl ⟨hzero, rfl⟩
  · obtain ⟨n, s₁, hword, h⟩ := bind_eq_ok.1 h
    obtain ⟨rfl, hn⟩ := word_ok hword
    exact .inr ⟨n, hn, instr_ok h⟩

theorem addConstant_eq (c : Constant) (s : Assembly) :
    addConstant c s = .ok (s.pool.add c).1 { s with pool := (s.pool.add c).2 } := rfl

/-- An instruction that takes the index of a constant. -/
theorem indexed_ok {i : UInt16 → Instr} {c : Constant} {s s' : Assembly} {u : Unit}
    (h : (poolIndex c >>= fun n => instr (i n)) s = .ok u s') : AppendsIndexed i c s s' := by
  obtain ⟨n, s₁, hindex, h⟩ := bind_eq_ok.1 h
  unfold poolIndex at hindex
  obtain ⟨k, s₂, hadd, hindex⟩ := bind_eq_ok.1 hindex
  rw [addConstant_eq] at hadd
  cases hadd
  obtain ⟨rfl, hn⟩ := word_ok hindex
  exact ⟨n, hn, instr_ok h⟩

theorem find?_eq (name : String) (s : Assembly) : find? name s = .ok (s.slots.find? name) s := rfl

/-- Reading a variable pushes a copy, to which it then gives the name. -/
theorem varRef_ok {name : String} {s s' : Assembly} {u : Unit} (h : varRef name s = .ok u s') :
    ∃ t, Relabels (some name) t s' ∧
      ((∃ n : UInt16, s.slots.find? name = some n.toNat ∧ Appends (.stackRef n) s t) ∨
        s.slots.find? name = none ∧ AppendsIndexed .varRef (.symbol name) s t) := by
  unfold varRef at h
  obtain ⟨found, s₁, hfind, h⟩ := bind_eq_ok.1 h
  rw [find?_eq] at hfind
  cases hfind
  cases hf : s.slots.find? name with
  | none =>
      rw [hf] at h
      obtain ⟨_, t, href, h⟩ := bind_eq_ok.1 h
      exact ⟨t, bindLocal_ok h, .inr ⟨rfl, indexed_ok href⟩⟩
  | some offset =>
      rw [hf] at h
      obtain ⟨n, s₂, hword, h⟩ := bind_eq_ok.1 h
      obtain ⟨rfl, hn⟩ := word_ok hword
      obtain ⟨_, t, href, h⟩ := bind_eq_ok.1 h
      exact ⟨t, bindLocal_ok h, .inl ⟨n, by rw [hn], instr_ok href⟩⟩

theorem varSet_ok {name : String} {s s' : Assembly} {u : Unit} (h : varSet name s = .ok u s') :
    (∃ n : UInt16, s.slots.find? name = some n.toNat ∧ Appends (.stackSet n) s s') ∨
      s.slots.find? name = none ∧ AppendsIndexed .varSet (.symbol name) s s' := by
  unfold varSet at h
  obtain ⟨found, s₁, hfind, h⟩ := bind_eq_ok.1 h
  rw [find?_eq] at hfind
  cases hfind
  cases hf : s.slots.find? name with
  | none =>
      rw [hf] at h
      exact .inr ⟨rfl, indexed_ok h⟩
  | some offset =>
      rw [hf] at h
      obtain ⟨n, s₂, hword, h⟩ := bind_eq_ok.1 h
      obtain ⟨rfl, hn⟩ := word_ok hword
      exact .inl ⟨n, by rw [hn], instr_ok h⟩

theorem call_ok {args : Nat} {s s' : Assembly} {u : Unit} (h : call args s = .ok u s') :
    ∃ n : UInt8, n.toNat = args ∧ Appends (.call n) s s' := by
  unfold call at h
  obtain ⟨n, s₁, hbyte, h⟩ := bind_eq_ok.1 h
  obtain ⟨rfl, hn⟩ := byte_ok (by decide) hbyte
  exact ⟨n, hn, instr_ok h⟩

theorem concat_ok {count : Nat} {s s' : Assembly} {u : Unit} (h : concat count s = .ok u s') :
    ∃ n : UInt8, n.toNat = count ∧ Appends (.concat n) s s' := by
  unfold concat at h
  obtain ⟨n, s₁, hbyte, h⟩ := bind_eq_ok.1 h
  obtain ⟨rfl, hn⟩ := byte_ok (by decide) hbyte
  exact ⟨n, hn, instr_ok h⟩

theorem newLabel_ok {name : String} {s s' : Assembly} {l : Label}
    (h : newLabel name s = .ok l s') : Creates l s s' := by
  cases h
  exact ⟨name, rfl, rfl⟩

theorem bindLabel_ok {l : Label} {s s' : Assembly} {u : Unit} (h : bindLabel l s = .ok u s') :
    Places l s s' := by
  obtain ⟨labels, hlabels, rfl⟩ := onLabels_ok h
  obtain ⟨hsize, hfree, hplaces, hused⟩ := LabelTable.bind_ok hlabels
  exact ⟨labels, rfl, hsize, hfree, hplaces, hused⟩

theorem enterLoop_eq (l : Option Label) (s : Assembly) :
    enterLoop l s = .ok () { s with loops := s.loops.enter s.slots.depth l } := rfl

theorem pendingContinue_eq (s : Assembly) :
    pendingContinue s = .ok (s.loops.current?.bind (·.continueLabel)) s := rfl

theorem exitLoop_ok {s s' : Assembly} {u : Unit} (h : exitLoop s = .ok u s') : Closes s s' := by
  unfold exitLoop at h
  obtain ⟨c, s₁, hclose, h⟩ := bind_eq_ok.1 h
  unfold closeLoop LoopStack.exit? at hclose
  cases hloops : s.loops.loops with
  | nil => simp [hloops] at hclose
  | cons head rest =>
      simp only [hloops] at hclose
      cases hclose
      refine ⟨c, rest, hloops, ?_⟩
      cases hbreak : c.breakLabel with
      | none =>
          rw [hbreak] at h
          cases h
          exact .inl ⟨rfl, rfl⟩
      | some l =>
          rw [hbreak] at h
          exact .inr ⟨l, rfl, bindLabel_ok h⟩

theorem leaveTo_ok {target : Nat} {l : Label} {s s' : Assembly} {u : Unit}
    (h : leaveTo target l s = .ok u s') : Leaves target l s s' := by
  unfold leaveTo at h
  obtain ⟨present, s₁, hdepth, h⟩ := bind_eq_ok.1 h
  cases hdepth
  rw [s.slots.depth_eq] at h
  split at h
  · cases h
  · split at h
    · rename_i hle heq
      exact .inl ⟨heq.symm, instr_ok h⟩
    · rename_i hle hne
      obtain ⟨n, s₂, hword, h⟩ := bind_eq_ok.1 h
      obtain ⟨rfl, hn⟩ := word_ok hword
      obtain ⟨_, s₃, happend, h⟩ := bind_eq_ok.1 h
      cases happend
      exact .inr ⟨n, hn, by omega, instr_ok h⟩

theorem loopLabel_ok {j : LoopJump} {c : LoopContext} {rest : List LoopContext} {s s' : Assembly}
    {l : Label} (hloops : s.loops.loops = c :: rest) (h : loopLabel j c s = .ok l s') :
    Finds j c rest l s s' := by
  unfold loopLabel at h
  cases hl : j.label? c with
  | some l' =>
      rw [hl] at h
      cases h
      exact .inl ⟨hl, rfl⟩
  | none =>
      rw [hl] at h
      obtain ⟨l', s₁, hnew, h⟩ := bind_eq_ok.1 h
      cases hnew
      obtain ⟨_, s₂, hset, h⟩ := bind_eq_ok.1 h
      cases hset
      cases h
      exact .inr ⟨hl, rfl, by simp [LoopStack.modifyCurrent, hloops]⟩

theorem loopJump_ok {j : LoopJump} {s s' : Assembly} {u : Unit} (h : loopJump j s = .ok u s') :
    ∃ c rest l t, s.loops.loops = c :: rest ∧ Finds j c rest l s t ∧ Leaves c.depth l t s' := by
  unfold loopJump at h
  obtain ⟨c?, s₁, hcurrent, h⟩ := bind_eq_ok.1 h
  cases hcurrent
  unfold LoopStack.current? at h
  cases hloops : s.loops.loops with
  | nil =>
      rw [hloops] at h
      cases h
  | cons c rest =>
      rw [hloops] at h
      obtain ⟨l, t, hlabel, h⟩ := bind_eq_ok.1 h
      exact ⟨c, rest, l, t, rfl, loopLabel_ok hloops hlabel, leaveTo_ok h⟩

end Emit

end StackCompiler
