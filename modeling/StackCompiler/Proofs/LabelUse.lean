import StackCompiler.Proofs.Visibility

/-!
Labels are used and placed. Code leaves the labels that were there where they are. Of those that it
creates, each is the target of a jump, and each has its place or is left to the innermost open loop,
which places it when it is closed. A loop gets the labels of its jumps when they are first needed,
so between a jump and the end of its loop there are labels without a place.
-/

namespace StackCompiler

open Source

namespace LabelTable

theorem place?_eq_none_of_size_le {t : LabelTable} {l : Label} (h : t.size ≤ l.id) :
    t.place? l = none := by
  cases hplace : t.place? l with
  | none => rfl
  | some p =>
      have hlt := lt_size_of_place? hplace
      omega

theorem positions_eq_ok {infos : List LabelInfo} (id : Nat)
    (h : ∀ info ∈ infos, info.position.isSome = true ∧ info.used = true) :
    ∃ ps, positions id infos = .ok ps := by
  induction infos generalizing id with
  | nil => exact ⟨[], rfl⟩
  | cons info rest ih =>
      obtain ⟨⟨hplaced, hused⟩, hrest⟩ := List.forall_mem_cons.1 h
      obtain ⟨p, hp⟩ := Option.isSome_iff_exists.1 hplaced
      obtain ⟨ps, hps⟩ := ih (id + 1) hrest
      have hposition : position ⟨id⟩ info = .ok p := by simp [position, hp, hused]
      refine ⟨p :: ps, ?_⟩
      rw [positions, hposition, hps]
      rfl

/-- Labels that are all used and placed can be resolved. -/
theorem resolve_eq_ok {t : LabelTable}
    (h : ∀ l : Label, l.id < t.size → t.isUsed l = true ∧ (t.place? l).isSome = true) :
    ∃ ps, t.resolve = .ok ps := by
  refine positions_eq_ok 0 fun info hinfo => ?_
  obtain ⟨i, hi⟩ := List.mem_iff_getElem?.1 hinfo
  have hget : t.get? ⟨i⟩ = some info := by simpa [get?] using hi
  obtain ⟨hused, hplaced⟩ := h ⟨i⟩ (lt_size_of_get? hget)
  simp only [isUsed, place?, hget, Option.any_some, Option.bind_some] at hused hplaced
  exact ⟨hplaced, hused⟩

end LabelTable

theorem Label.ext {l m : Label} (h : l.id = m.id) : l = m := by
  cases l
  cases m
  simpa using h

section

variable {l m : Label} {s s' : Assembly}

theorem Places.isPlaced (h : Places l s s') : (s'.labels.place? l).isSome = true := by
  obtain ⟨labels, rfl, -, -, hplaces, -⟩ := h
  simp [hplaces]

theorem Places.isUsed (h : Places l s s') : s'.labels.isUsed m = s.labels.isUsed m := by
  obtain ⟨labels, rfl, -, -, -, hused⟩ := h
  exact hused m

end

/-! ### What code does to labels -/

namespace Assembly

def Pending (s : Assembly) (j : LoopJump) (l : Label) : Prop :=
  ∃ c rest, s.loops.loops = c :: rest ∧ j.label? c = some l

def Known (s : Assembly) : Prop :=
  ∀ j l, s.Pending j l → l.id < s.labels.size

theorem Pending.unique {s : Assembly} {j : LoopJump} {l m : Label} (hl : s.Pending j l)
    (hm : s.Pending j m) : l = m := by
  obtain ⟨c, rest, hloops, hl⟩ := hl
  obtain ⟨c', rest', hloops', hm⟩ := hm
  rw [hloops] at hloops'
  cases hloops'
  rw [hl] at hm
  exact Option.some.inj hm

theorem Pending.of_loops {s t : Assembly} {j : LoopJump} {l : Label} (h : s.Pending j l)
    (hloops : t.loops = s.loops) : t.Pending j l := by
  obtain ⟨c, rest, hc, hl⟩ := h
  exact ⟨c, rest, by rw [hloops, hc], hl⟩

theorem Pending.kept {s t : Assembly} {j : LoopJump} {l : Label} (h : s.Pending j l)
    (hkeeps : s.KeepsLoop t) : t.Pending j l := by
  obtain ⟨c, rest, hloops, hl⟩ := h
  obtain ⟨c', hloops', -, hlabels⟩ := hkeeps c rest hloops
  exact ⟨c', rest, hloops', hlabels j l hl⟩

/-- Labels that existed before stay where they are. A new label is used, and it is placed or left to
the innermost loop; `owed` lists those for which this is still to be done. Without jumps out of
loops, the open loops are left alone. -/
structure Settles (jumps : Bool) (owed : List Label) (s s' : Assembly) : Prop where
  keeps : s.KeepsLoop s'
  closed : s.loops.loops = [] → s'.loops.loops = []
  loops : jumps = false → s'.loops = s.loops
  size : s.labels.size ≤ s'.labels.size
  places : ∀ l, l.id < s.labels.size → s'.labels.place? l = s.labels.place? l
  used : ∀ l, s.labels.isUsed l = true → s'.labels.isUsed l = true
  fresh : ∀ j l, s'.Pending j l → s.Pending j l ∨
    s.labels.size ≤ l.id ∧ l.id < s'.labels.size ∧ s'.labels.place? l = none ∧
      (∀ k, s'.Pending k l → k = j) ∧ l ∉ owed
  isNew : ∀ l ∈ owed, s.labels.size ≤ l.id ∧ l.id < s'.labels.size
  settled : ∀ l, s.labels.size ≤ l.id → l.id < s'.labels.size → l ∈ owed ∨
    s'.labels.isUsed l = true ∧ ((s'.labels.place? l).isSome = true ∨ ∃ j, s'.Pending j l)

namespace Settles

variable {b : Bool} {owed owed' : List Label} {s t u s' : Assembly} {l : Label}

theorem known (h : Settles b owed s s') (hs : s.Known) : s'.Known := by
  intro j l hl
  obtain hl | ⟨-, hlt, -⟩ := h.fresh j l hl
  · exact (hs j l hl).trans_le h.size
  · exact hlt

theorem weaken (h : Settles false owed s s') : Settles b owed s s' :=
  { h with loops := fun _ => h.loops rfl }

/-- A step that creates no label and leaves the loops alone. -/
theorem of_labels (hloops : s'.loops = s.loops) (hsize : s'.labels.size = s.labels.size)
    (hplaces : ∀ l, s'.labels.place? l = s.labels.place? l)
    (hused : ∀ l, s.labels.isUsed l = true → s'.labels.isUsed l = true) : Settles b [] s s' where
  keeps := .of_eq hloops
  closed h := by rw [hloops, h]
  loops _ := hloops
  size := hsize.ge
  places l _ := hplaces l
  used := hused
  fresh j l h := .inl (h.of_loops hloops.symm)
  isNew := by simp
  settled l hle hlt := by omega

theorem of_eq (hloops : s'.loops = s.loops) (hlabels : s'.labels = s.labels) :
    Settles b [] s s' :=
  of_labels hloops (by rw [hlabels]) (fun _ => by rw [hlabels]) fun _ h => by rw [hlabels, h]

theorem refl (s : Assembly) : Settles b [] s s :=
  of_eq rfl rfl

theorem of_appends {i : Instr} (h : Appends i s s') : Settles b [] s s' :=
  of_labels h.loops h.labels h.places fun l hl => (h.used l).2 (.inl hl)

theorem of_creates (h : Creates l s s') : Settles b [l] s s' := by
  obtain ⟨name, rfl, rfl⟩ := h
  have hsize := LabelTable.size_create s.labels name
  refine ⟨.of_eq rfl, id, fun _ => rfl, hsize ▸ Nat.le_succ _,
    fun m _ => LabelTable.place?_create _ _ _, fun m hm => ?_, fun j m hm => .inl hm, ?_,
    fun m hle hlt => .inl ?_⟩
  · rw [LabelTable.isUsed_create]
    exact hm
  · simp [LabelTable.next, hsize]
  · have hid : m.id = s.labels.next.id := by
      show m.id = s.labels.size
      have hlt' : m.id < (s.labels.create name).size := hlt
      omega
    rw [Label.ext hid]
    exact List.mem_singleton_self _

theorem trans (h₁ : Settles b owed s t) (h₂ : Settles b owed' t u) :
    Settles b (owed ++ owed') s u where
  keeps := h₁.keeps.trans h₂.keeps
  closed h := h₂.closed (h₁.closed h)
  loops hb := (h₂.loops hb).trans (h₁.loops hb)
  size := h₁.size.trans h₂.size
  places l hl := (h₂.places l (hl.trans_le h₁.size)).trans (h₁.places l hl)
  used l hl := h₂.used l (h₁.used l hl)
  fresh j l hl := by
    obtain hl | ⟨hle, hlt, hfree, honly, hnot⟩ := h₂.fresh j l hl
    · obtain hl | ⟨hle, hlt, hfree, honly, hnot⟩ := h₁.fresh j l hl
      · exact .inl hl
      · refine .inr ⟨hle, hlt.trans_le h₂.size, by rw [h₂.places l hlt, hfree], fun k hk => ?_, ?_⟩
        · obtain hk | ⟨hge, -⟩ := h₂.fresh k l hk
          · exact honly k hk
          · omega
        · rw [List.mem_append]
          rintro (hmem | hmem)
          · exact hnot hmem
          · have hge := (h₂.isNew l hmem).1
            omega
    · refine .inr ⟨h₁.size.trans hle, hlt, hfree, honly, ?_⟩
      rw [List.mem_append]
      rintro (hmem | hmem)
      · have hlt' := (h₁.isNew l hmem).2
        omega
      · exact hnot hmem
  isNew l hl := by
    obtain hl | hl := List.mem_append.1 hl
    · exact ⟨(h₁.isNew l hl).1, (h₁.isNew l hl).2.trans_le h₂.size⟩
    · exact ⟨h₁.size.trans (h₂.isNew l hl).1, (h₂.isNew l hl).2⟩
  settled l hle hlt := by
    rw [List.mem_append]
    by_cases hmiddle : l.id < t.labels.size
    · obtain hl | ⟨hused, hplaced | ⟨j, hj⟩⟩ := h₁.settled l hle hmiddle
      · exact .inl (.inl hl)
      · exact .inr ⟨h₂.used l hused, .inl (by rw [h₂.places l hmiddle]; exact hplaced)⟩
      · exact .inr ⟨h₂.used l hused, .inr ⟨j, hj.kept h₂.keeps⟩⟩
    · obtain hl | hl := h₂.settled l (by omega) hlt
      · exact .inl (.inr hl)
      · exact .inr hl

theorem andThen (h₁ : Settles b owed s t) (h₂ : Settles b [] t u) : Settles b owed s u := by
  simpa using h₁.trans h₂

theorem of_indexed {i : UInt16 → Instr} {c : Constant} (h : AppendsIndexed i c s s') :
    Settles b [] s s' := by
  obtain ⟨n, -, happ⟩ := h
  have hadd : Settles b [] s { s with pool := (s.pool.add c).2 } := of_eq rfl rfl
  exact hadd.andThen (of_appends happ)

theorem of_drops {count : Nat} (h : Drops count s s') : Settles b [] s s' := by
  obtain ⟨-, rfl⟩ | ⟨n, -, happ⟩ := h
  · exact refl s'
  · exact of_appends happ

theorem of_relabels {name : Option String} (h : Relabels name s s') : Settles b [] s s' := by
  obtain ⟨slots, old, rest, rfl, -⟩ := h
  exact of_eq rfl rfl

theorem of_forgets {count : Nat} (h : Forgets count s s') : Settles b [] s s' := by
  obtain ⟨slots, rfl, -⟩ := h
  exact of_eq rfl rfl

/-- A label for which this is still owed is placed. -/
theorem places_label (h : Settles b owed s t) (hplace : Places l t u) (hl : l ∈ owed) :
    Settles b owed s u := by
  obtain ⟨labels, rfl, hsize, hfree, hplaces, hused⟩ := hplace
  have hnew := h.isNew l hl
  have hother : ∀ m, m ≠ l → labels.place? m = t.labels.place? m := fun m hm => by
    rw [hplaces, if_neg hm]
  refine ⟨h.keeps, h.closed, h.loops, h.size.trans hsize.ge, fun m hm => ?_, fun m hm => ?_,
    fun j m hm => ?_, fun m hm => ?_, fun m hle hlt => ?_⟩
  · show labels.place? m = _
    rw [hother m (by rintro rfl; omega)]
    exact h.places m hm
  · show labels.isUsed m = true
    rw [hused]
    exact h.used m hm
  · obtain hm | ⟨hle, hlt, hfree, honly, hnot⟩ := h.fresh j m hm
    · exact .inl hm
    · refine .inr ⟨hle, hlt.trans_le hsize.ge, ?_, honly, hnot⟩
      show labels.place? m = none
      rw [hother m (by rintro rfl; exact hnot hl), hfree]
  · exact ⟨(h.isNew m hm).1, (h.isNew m hm).2.trans_le hsize.ge⟩
  · obtain hm | ⟨hmused, hm⟩ := h.settled m hle (hlt.trans_le hsize.le)
    · exact .inl hm
    · refine .inr ⟨by rw [← hmused]; exact hused m, hm.imp (fun hplaced => ?_) id⟩
      show (labels.place? m).isSome = true
      rw [hplaces]
      split
      · rfl
      · exact hplaced

/-- Nothing is owed any longer for a label that is used and placed. -/
theorem discharge (h : Settles b (l :: owed) s t) (hused : t.labels.isUsed l = true)
    (hplaced : (t.labels.place? l).isSome = true) : Settles b owed s t where
  keeps := h.keeps
  closed := h.closed
  loops := h.loops
  size := h.size
  places := h.places
  used := h.used
  fresh j m hm := (h.fresh j m hm).imp id fun ⟨hle, hlt, hfree, honly, hnot⟩ =>
    ⟨hle, hlt, hfree, honly, fun hmem => hnot (List.mem_cons_of_mem _ hmem)⟩
  isNew m hm := h.isNew m (List.mem_cons_of_mem _ hm)
  settled m hle hlt := by
    obtain hm | hm := h.settled m hle hlt
    · obtain rfl | hm := List.mem_cons.1 hm
      · exact .inr ⟨hused, .inl hplaced⟩
      · exact .inl hm
    · exact .inr hm

/-- A label is placed that has been used. -/
theorem places_used (h : Settles b (l :: owed) s t) (hplace : Places l t u)
    (hused : t.labels.isUsed l = true) : Settles b owed s u := by
  exact (h.places_label hplace List.mem_cons_self).discharge (hplace.isUsed.trans hused)
    hplace.isPlaced

theorem of_leaves {depth : Nat} (h : Leaves depth l s s') :
    Settles b [] s s' ∧ s'.labels.isUsed l = true ∧ s'.loops = s.loops ∧
      s'.labels.size = s.labels.size := by
  obtain ⟨-, happ⟩ | ⟨n, -, -, happ⟩ := h
  · exact ⟨of_appends happ, (happ.used l).2 (.inr rfl), happ.loops, happ.labels⟩
  · have hdiscard : Settles b [] s { s with code := s.code.push (.discard n) } := of_eq rfl rfl
    exact ⟨hdiscard.andThen (of_appends happ), (happ.used l).2 (.inr rfl), happ.loops, happ.labels⟩

/-- A jump to a label of the innermost loop, which gets the label if it has none for the jump. -/
theorem of_jump {j : LoopJump} {c : LoopContext} {rest : List LoopContext} {depth : Nat}
    (hs : s.Known) (hloops : s.loops.loops = c :: rest) (hfind : Finds j c rest l s t)
    (hleave : Leaves depth l t s') : Settles true [] s s' := by
  obtain ⟨hjump, hused, hsame, hsize⟩ := of_leaves (b := true) hleave
  have hkeeps := (KeepsLoop.of_finds hloops hfind).trans hjump.keeps
  obtain ⟨-, rfl⟩ | ⟨hnone, rfl, rfl⟩ := hfind
  · exact hjump
  have hcreate := LabelTable.size_create s.labels j.labelName
  have hsize' : s'.labels.size = s.labels.size + 1 := hsize.trans hcreate
  -- besides the new label, the loop has those that it had
  have hpending : ∀ k m, s'.Pending k m →
      k = j ∧ m = s.labels.next ∨ k ≠ j ∧ s.Pending k m := by
    rintro k m ⟨c', rest', hloops', hm⟩
    rw [hsame] at hloops'
    cases hloops'
    by_cases hk : k = j
    · subst hk
      cases k <;> exact .inl ⟨rfl, (Option.some.inj hm).symm⟩
    · refine .inr ⟨hk, c, rest, hloops, ?_⟩
      cases k <;> cases j
      · exact absurd rfl hk
      · exact hm
      · exact hm
      · exact absurd rfl hk
  have hnext : ∀ k, ¬ s.Pending k s.labels.next := fun k hk => Nat.lt_irrefl _ (hs k _ hk)
  refine ⟨hkeeps, fun h => by simp [hloops] at h, nofun, by omega, fun m hm => ?_, fun m hm => ?_,
    fun k m hm => ?_, by simp, fun m hle hlt => ?_⟩
  · rw [hjump.places m (by show m.id < (s.labels.create _).size; omega)]
    exact LabelTable.place?_create _ _ _
  · refine hjump.used m ?_
    show (s.labels.create _).isUsed m = true
    rw [LabelTable.isUsed_create, hm]
  · obtain ⟨rfl, rfl⟩ | ⟨-, hm⟩ := hpending k m hm
    · refine .inr ⟨Nat.le_refl _, ?_, ?_, fun k' hk' => ?_, by simp⟩
      · show s.labels.size < _
        omega
      · rw [hjump.places _ (by show s.labels.size < (s.labels.create _).size; omega)]
        show (s.labels.create _).place? _ = none
        rw [LabelTable.place?_create]
        exact LabelTable.place?_eq_none_of_size_le (Nat.le_refl _)
      · obtain ⟨rfl, -⟩ | ⟨-, hk'⟩ := hpending k' _ hk'
        · rfl
        · exact absurd hk' (hnext k')
    · exact .inl hm
  · have hm : m = s.labels.next := Label.ext (by show m.id = s.labels.size; omega)
    subst hm
    refine .inr ⟨hused, .inr ⟨j, _, rest, by rw [hsame], ?_⟩⟩
    cases j <;> rfl

end Settles

/-! ### Inside of a loop -/

/-- A loop has been opened: it stands at `d`, and `s` is where the code of the loop began. As
`Settles`, but new labels are left to this loop, which only has that of its `break` still to place
when `owed` is settled. -/
structure Opens (owed : List Label) (s d t : Assembly) : Prop where
  loops : ∃ c, t.loops.loops = c :: s.loops.loops
  size : d.labels.size ≤ t.labels.size
  places : ∀ l, l.id < s.labels.size → t.labels.place? l = s.labels.place? l
  placed : ∀ l, (d.labels.place? l).isSome = true → (t.labels.place? l).isSome = true
  used : ∀ l, d.labels.isUsed l = true → t.labels.isUsed l = true
  known : t.Known
  breakOut : ∀ l, t.Pending .breakLoop l →
    s.labels.size ≤ l.id ∧ t.labels.place? l = none ∧ l ∉ owed
  isNew : ∀ l ∈ owed, s.labels.size ≤ l.id ∧ l.id < t.labels.size
  settled : ∀ l, s.labels.size ≤ l.id → l.id < t.labels.size → l ∈ owed ∨
    t.labels.isUsed l = true ∧ ((t.labels.place? l).isSome = true ∨ t.Pending .breakLoop l)

namespace Opens

variable {owed : List Label} {s d f t u s' : Assembly} {l : Label}

/-- The loop after its body, once the label of its `continue`, if it is not one of those that are
owed, has been placed. -/
theorem of_body {depth : Nat} {continueLabel : Option Label} (hs : s.Known)
    (hd : Settles false owed s d) (hlabel : ∀ m, continueLabel = some m → m ∈ owed)
    (hf : Settles true [] { d with loops := d.loops.enter depth continueLabel } f)
    (hloops : t.loops = f.loops) (hsize : t.labels.size = f.labels.size)
    (hused : ∀ m, t.labels.isUsed m = f.labels.isUsed m)
    (hmoved : ∀ m, t.labels.place? m = f.labels.place? m ∨ f.Pending .continueLoop m ∧
      d.labels.size ≤ m.id ∧ (t.labels.place? m).isSome = true)
    (hcontinue : ∀ m, f.Pending .continueLoop m → m ∈ owed ∨ (t.labels.place? m).isSome = true) :
    Opens owed s d t := by
  have hplaced : ∀ m, (f.labels.place? m).isSome = true → (t.labels.place? m).isSome = true := by
    intro m hm
    obtain hsame | ⟨-, -, hplaced⟩ := hmoved m
    · rw [hsame, hm]
    · exact hplaced
  have hkept : ∀ m, (d.labels.place? m).isSome = true → (t.labels.place? m).isSome = true := by
    intro m hm
    obtain ⟨p, hp⟩ := Option.isSome_iff_exists.1 hm
    refine hplaced m ?_
    rw [hf.places m (LabelTable.lt_size_of_place? hp)]
    exact hm
  refine ⟨?_, hf.size.trans hsize.ge, fun m hm => ?_, hkept, fun m hm => ?_, fun j m hm => ?_,
    fun m hm => ?_, fun m hm => ?_, fun m hle hlt => ?_⟩
  · obtain ⟨c, hc, -⟩ := hf.keeps _ _ rfl
    exact ⟨c, by rw [hloops, hc, hd.loops rfl]⟩
  · have hle := hd.size
    obtain hsame | ⟨-, hge, -⟩ := hmoved m
    · rw [hsame, hf.places m (hm.trans_le hle)]
      exact hd.places m hm
    · omega
  · rw [hused]
    exact hf.used m hm
  · refine (hf.known (fun k x hx => ?_) j m (hm.of_loops hloops.symm)).trans_le hsize.ge
    obtain ⟨c, rest, hc, hx⟩ := hx
    cases hc
    cases k with
    | breakLoop => cases hx
    | continueLoop => exact (hd.isNew x (hlabel x hx)).2
  -- the loop is opened without a label for `break`, so it was the body that asked for one
  · obtain hm | ⟨hle, hlt, hfree, honly, -⟩ := hf.fresh _ m (hm.of_loops hloops.symm)
    · obtain ⟨c, rest, hc, hl⟩ := hm
      cases hc
      cases hl
    · refine ⟨hd.size.trans hle, ?_, fun hmem => Nat.not_le.2 (hd.isNew m hmem).2 hle⟩
      obtain hsame | ⟨hpending, -⟩ := hmoved m
      · rw [hsame, hfree]
      · cases honly _ hpending
  · exact ⟨(hd.isNew m hm).1, ((hd.isNew m hm).2.trans_le hf.size).trans_le hsize.ge⟩
  -- labels from before the body were settled before it, and those of the body by the body
  · by_cases hold : m.id < d.labels.size
    · obtain hm | ⟨hm, hplaced | ⟨j, hpending⟩⟩ := hd.settled m hle hold
      · exact .inl hm
      · exact .inr ⟨(hused m).trans (hf.used m hm), .inl (hkept m hplaced)⟩
      · exact absurd (hs j m (hpending.of_loops (hd.loops rfl).symm)) (Nat.not_lt.2 hle)
    · obtain hm | ⟨hm, hm' | ⟨j, hpending⟩⟩ := hf.settled m (Nat.not_lt.1 hold)
        (hlt.trans_le hsize.le)
      · cases hm
      · exact .inr ⟨(hused m).trans hm, .inl (hplaced m hm')⟩
      · cases j with
        | breakLoop => exact .inr ⟨(hused m).trans hm, .inr (hpending.of_loops hloops)⟩
        | continueLoop =>
            exact (hcontinue m hpending).imp id fun hm' => ⟨(hused m).trans hm, .inl hm'⟩

/-- The body is followed by the test at once, so the label of `continue` is one that is owed. -/
theorem of_noPost {depth : Nat} {continueLabel : Label} (hs : s.Known)
    (hd : Settles false owed s d) (hlabel : continueLabel ∈ owed)
    (hf : Settles true [] { d with loops := d.loops.enter depth (some continueLabel) } f) :
    Opens owed s d f := by
  refine of_body hs hd (by rintro m ⟨⟩; exact hlabel) hf rfl rfl (fun _ => rfl) (fun _ => .inl rfl)
    fun m hm => .inl ?_
  have hopen : Pending { d with loops := d.loops.enter depth (some continueLabel) } .continueLoop
      continueLabel := ⟨_, _, rfl, rfl⟩
  rw [hm.unique (hopen.kept hf.keeps)]
  exact hlabel

/-- Nothing in the body was a `continue`. -/
theorem of_post {depth : Nat} (hs : s.Known) (hd : Settles false owed s d)
    (hf : Settles true [] { d with loops := d.loops.enter depth none } f)
    (hnone : f.loops.current?.bind (·.continueLabel) = none) : Opens owed s d f := by
  refine of_body hs hd (fun _ h => by cases h) hf rfl rfl (fun _ => rfl) (fun _ => .inl rfl) ?_
  rintro m ⟨c, rest, hc, hm⟩
  have hcontinue : c.continueLabel = some m := hm
  simp [LoopStack.current?, hc, hcontinue] at hnone

/-- A `continue` of the body gives the loop a new label, which is not placed yet. -/
theorem pending_continue {depth : Nat}
    (hf : Settles true [] { d with loops := d.loops.enter depth none } f)
    (hsome : f.loops.current?.bind (·.continueLabel) = some l) :
    f.Pending .continueLoop l ∧ d.labels.size ≤ l.id ∧ f.labels.place? l = none := by
  obtain ⟨c, hcurrent, hl⟩ := Option.bind_eq_some_iff.1 hsome
  obtain ⟨rest, hc⟩ := List.head?_eq_some_iff.1 hcurrent
  have hpending : f.Pending .continueLoop l := ⟨c, rest, hc, hl⟩
  obtain ⟨c, rest, hc, hl⟩ | ⟨hle, -, hfree, -⟩ := hf.fresh _ _ hpending
  · cases hc
    cases hl
  · exact ⟨hpending, hle, hfree⟩

/-- The label of `continue` is placed after the body. -/
theorem of_postAt {depth : Nat} (hs : s.Known) (hd : Settles false owed s d)
    (hf : Settles true [] { d with loops := d.loops.enter depth none } f)
    (hsome : f.loops.current?.bind (·.continueLabel) = some l) (hplace : Places l f t) :
    Opens owed s d t := by
  obtain ⟨hpending, hnew, -⟩ := pending_continue hf hsome
  obtain ⟨labels, rfl, hsize, -, hplaces, hused⟩ := hplace
  refine of_body hs hd (fun _ h => by cases h) hf rfl hsize hused (fun m => ?_) fun m hm => .inr ?_
  · show labels.place? m = _ ∨ _ ∧ _ ∧ (labels.place? m).isSome = true
    rw [hplaces]
    split
    · rename_i hm
      subst hm
      exact .inr ⟨hpending, hnew, rfl⟩
    · exact .inl rfl
  · show (labels.place? m).isSome = true
    rw [hplaces, if_pos (hm.unique hpending)]
    rfl

/-- More code is added to the loop. -/
theorem andThen (h : Opens owed s d t) (hu : Settles false [] t u)
    (hd : s.labels.size ≤ d.labels.size) : Opens owed s d u where
  loops := by
    obtain ⟨c, hc⟩ := h.loops
    exact ⟨c, by rw [hu.loops rfl, hc]⟩
  size := h.size.trans hu.size
  places m hm := by
    rw [hu.places m ((hm.trans_le hd).trans_le h.size)]
    exact h.places m hm
  placed m hm := by
    have hm := h.placed m hm
    obtain ⟨p, hp⟩ := Option.isSome_iff_exists.1 hm
    rw [hu.places m (LabelTable.lt_size_of_place? hp)]
    exact hm
  used m hm := hu.used m (h.used m hm)
  known := hu.known h.known
  breakOut m hm := by
    have hm := hm.of_loops (hu.loops rfl).symm
    obtain ⟨hle, hfree, hnot⟩ := h.breakOut m hm
    exact ⟨hle, by rw [hu.places m (h.known _ m hm), hfree], hnot⟩
  isNew m hm := ⟨(h.isNew m hm).1, (h.isNew m hm).2.trans_le hu.size⟩
  settled m hle hlt := by
    by_cases hold : m.id < t.labels.size
    · obtain hm | ⟨hm, hplaced | hpending⟩ := h.settled m hle hold
      · exact .inl hm
      · exact .inr ⟨hu.used m hm, .inl (by rw [hu.places m hold]; exact hplaced)⟩
      · exact .inr ⟨hu.used m hm, .inr (hpending.of_loops (hu.loops rfl))⟩
    · obtain hm | ⟨hm, hplaced | ⟨j, hpending⟩⟩ := hu.settled m (Nat.not_lt.1 hold) hlt
      · cases hm
      · exact .inr ⟨hm, .inl hplaced⟩
      · exact absurd (h.known j m (hpending.of_loops (hu.loops rfl).symm)) hold

theorem places_label (h : Opens owed s d t) (hplace : Places l t u) (hl : l ∈ owed) :
    Opens owed s d u := by
  obtain ⟨labels, rfl, hsize, hfree, hplaces, hused⟩ := hplace
  have hnew := h.isNew l hl
  have hother : ∀ m, m ≠ l → labels.place? m = t.labels.place? m := fun m hm => by
    rw [hplaces, if_neg hm]
  have hplaced : ∀ m, (t.labels.place? m).isSome = true → (labels.place? m).isSome = true := by
    intro m hm
    rw [hplaces]
    split
    · rfl
    · exact hm
  refine ⟨h.loops, h.size.trans hsize.ge, fun m hm => ?_, fun m hm => hplaced m (h.placed m hm),
    fun m hm => (hused m).trans (h.used m hm), fun j m hm => (h.known j m hm).trans_le hsize.ge,
    fun m hm => ?_, fun m hm => ?_, fun m hle hlt => ?_⟩
  · exact (hother m (by rintro rfl; omega)).trans (h.places m hm)
  · obtain ⟨hle, hfree, hnot⟩ := h.breakOut m hm
    exact ⟨hle, (hother m (by rintro rfl; exact hnot hl)).trans hfree, hnot⟩
  · exact ⟨(h.isNew m hm).1, (h.isNew m hm).2.trans_le hsize.ge⟩
  · obtain hm | ⟨hm, hm'⟩ := h.settled m hle (hlt.trans_le hsize.le)
    · exact .inl hm
    · exact .inr ⟨(hused m).trans hm, hm'.imp (hplaced m) id⟩

/-- Nothing is owed any longer for a label that is used and placed. -/
theorem discharge (h : Opens (l :: owed) s d t) (hused : t.labels.isUsed l = true)
    (hplaced : (t.labels.place? l).isSome = true) : Opens owed s d t :=
  { h with
    breakOut m hm := by
      obtain ⟨hle, hfree, hnot⟩ := h.breakOut m hm
      exact ⟨hle, hfree, fun hmem => hnot (List.mem_cons_of_mem _ hmem)⟩
    isNew m hm := h.isNew m (List.mem_cons_of_mem _ hm)
    settled m hle hlt := by
      obtain hm | hm := h.settled m hle hlt
      · obtain rfl | hm := List.mem_cons.1 hm
        · exact .inr ⟨hused, .inl hplaced⟩
        · exact .inl hm
      · exact .inr hm }

/-- A label is placed that was used before the loop was opened. -/
theorem places_used (h : Opens (l :: owed) s d t) (hplace : Places l t u)
    (hused : d.labels.isUsed l = true) : Opens owed s d u :=
  (h.places_label hplace List.mem_cons_self).discharge (hplace.isUsed.trans (h.used l hused))
    hplace.isPlaced

/-- The loop is closed. -/
theorem closes {b : Bool} (h : Opens [] s d t) (hd : Settles false owed s d)
    (hclose : Closes t s') : Settles b [] s s' := by
  obtain ⟨c, rest, hc, hclose⟩ := hclose
  have hrest : rest = s.loops.loops := by
    obtain ⟨c', hc'⟩ := h.loops
    rw [hc] at hc'
    exact (List.cons.inj hc').2
  subst hrest
  have hsize := hd.size.trans h.size
  have hused : ∀ m, s.labels.isUsed m = true → t.labels.isUsed m = true := fun m hm =>
    h.used m (hd.used m hm)
  obtain ⟨hnone, rfl⟩ | ⟨l, hl, labels, rfl, hlabels, hfree, hplaces, hsame⟩ := hclose
  · refine ⟨.of_eq rfl, id, fun _ => rfl, hsize, h.places, hused, fun j m hm => .inl hm, by simp,
      fun m hle hlt => .inr ?_⟩
    obtain hm | ⟨hm, hplaced | ⟨c', rest', hc', hm'⟩⟩ := h.settled m hle hlt
    · cases hm
    · exact ⟨hm, .inl hplaced⟩
    · rw [hc] at hc'
      cases hc'
      have hsome : c.breakLabel = some m := hm'
      rw [hnone] at hsome
      cases hsome
  · have hpending : t.Pending .breakLoop l := ⟨c, _, hc, hl⟩
    obtain ⟨hle, -, -⟩ := h.breakOut l hpending
    refine ⟨.of_eq rfl, id, fun _ => rfl, hsize.trans hlabels.ge, fun m hm => ?_,
      fun m hm => (hsame m).trans (hused m hm), fun j m hm => .inl hm, by simp,
      fun m hle hlt => .inr ?_⟩
    · show labels.place? m = _
      rw [hplaces, if_neg (by rintro rfl; omega)]
      exact h.places m hm
    · obtain hm | ⟨hm, hm'⟩ := h.settled m hle (hlt.trans_le hlabels.le)
      · cases hm
      · refine ⟨(hsame m).trans hm, .inl ?_⟩
        show (labels.place? m).isSome = true
        rw [hplaces]
        split
        · rfl
        · rename_i hne
          exact hm'.resolve_right fun hm' => hne (hm'.unique hpending)

end Opens

/-- What the code after the body of a loop does to labels. That of `continue` may have to be placed
first. -/
def SettlesPost (jumps : Bool) (post : Option Form) (s s' : Assembly) : Prop :=
  match post with
  | none => s' = s
  | some _ =>
    s.loops.current?.bind (·.continueLabel) = none ∧ Settles jumps [] s s' ∨
      ∃ l t, s.loops.current?.bind (·.continueLabel) = some l ∧ Places l s t ∧ Settles jumps [] t s'

/-- The code of a loop up to its body: it jumps to the test, whose label `l` has no place yet, and
`m` is the label of the body. -/
def Starts (l m : Label) (s d : Assembly) : Prop :=
  ∃ a b c, Creates l s a ∧ Creates m a b ∧ Appends (.jump .always l) b c ∧ Places m c d

namespace Starts

variable {l m : Label} {s d f g h k n : Assembly} {post : Option Form} {depth : Nat}

theorem settles (h : Starts l m s d) : Settles false [l, m] s d := by
  obtain ⟨a, b, c, htest, hstart, hjump, hplace⟩ := h
  exact (((Settles.of_creates htest).trans (.of_creates hstart)).andThen
    (.of_appends hjump)).places_label hplace (by simp)

theorem isUsed (h : Starts l m s d) : d.labels.isUsed l = true := by
  obtain ⟨a, b, c, -, -, hjump, hplace⟩ := h
  exact hplace.isUsed.trans ((hjump.used _).2 (.inr rfl))

theorem isPlaced (h : Starts l m s d) : (d.labels.place? m).isSome = true := by
  obtain ⟨a, b, c, -, -, -, hplace⟩ := h
  exact hplace.isPlaced

theorem place?_test (h : Starts l m s d) : d.labels.place? l = none := by
  obtain ⟨a, b, c, ⟨name, rfl, rfl⟩, ⟨name', rfl, rfl⟩, hjump, ⟨labels, rfl, -, -, hplaces, -⟩⟩ := h
  have hne : s.labels.next ≠ (s.labels.create name).next := by
    simp [LabelTable.next, LabelTable.size_create]
  show labels.place? _ = none
  rw [hplaces, if_neg hne, hjump.places]
  show ((s.labels.create name).create name').place? _ = none
  rw [LabelTable.place?_create, LabelTable.place?_create]
  exact LabelTable.place?_eq_none_of_size_le (Nat.le_refl _)

/-- Before the body, the loop has no label but that of the test. -/
theorem known (h : Starts l m s d) :
    Known { d with loops := d.loops.enter depth (if post.isNone then some l else none) } := by
  rintro (_ | _) x ⟨c, rest, hc, hx⟩
  · cases hc
    cases hx
  · cases hc
    obtain rfl : l = x := by
      cases post with
      | none => exact Option.some.inj hx
      | some after => cases hx
    exact (h.settles.isNew l (by simp)).2

/-- The loop once its body and what follows the body are there. -/
theorem opens (h : Starts l m s d) (hs : s.Known)
    (hf : Settles true []
      { d with loops := d.loops.enter depth (if post.isNone then some l else none) } f)
    (hpost : SettlesPost false post f g) : Opens [l, m] s d g := by
  cases post with
  | none =>
      cases hpost
      exact .of_noPost hs h.settles (by simp) hf
  | some after =>
      obtain ⟨hnone, hg⟩ | ⟨x, t, hsome, hat, hg⟩ := hpost
      · exact (Opens.of_post hs h.settles hf hnone).andThen hg h.settles.size
      · exact (Opens.of_postAt hs h.settles hf hsome hat).andThen hg h.settles.size

/-- Nothing places the label of the test before the test. -/
theorem place?_round (h : Starts l m s d)
    (hf : Settles true []
      { d with loops := d.loops.enter depth (if post.isNone then some l else none) } f)
    (hpost : SettlesPost false post f g) : g.labels.place? l = none := by
  have hlt := (h.settles.isNew l (by simp)).2
  have hfree : f.labels.place? l = none := (hf.places l hlt).trans h.place?_test
  have hltf := hlt.trans_le hf.size
  cases post with
  | none =>
      cases hpost
      exact hfree
  | some after =>
      obtain ⟨-, hg⟩ | ⟨x, t, hsome, ⟨labels, rfl, hsize, -, hplaces, -⟩, hg⟩ := hpost
      · rw [hg.places l hltf, hfree]
      · obtain ⟨-, hx, -⟩ := Opens.pending_continue hf hsome
        rw [hg.places l (hltf.trans_le hsize.ge)]
        show labels.place? l = none
        rw [hplaces, if_neg (by rintro rfl; exact absurd hlt (Nat.not_lt.2 hx)), hfree]

end Starts

/-- The loop up to the jump back to its body. -/
theorem Opens.tested {l m : Label} {s d g h k n : Assembly} (hround : Opens [l, m] s d g)
    (hstarts : Starts l m s d) (hplace : Places l g h) (hcond : Settles false [] h k)
    (hagain : Appends (.jump .ifNotNil m) k n) : Opens [] s d n := by
  have hk := (hround.places_used hplace hstarts.isUsed).andThen hcond hstarts.settles.size
  have hn := hk.andThen (.of_appends hagain) hstarts.settles.size
  exact hn.discharge ((hagain.used _).2 (.inr rfl)) (hn.placed m hstarts.isPlaced)

/-- All labels of a function are used and placed in the end, so its code can be finished. -/
theorem Settles.finish {b : Bool} {params : List String} {s : Assembly}
    (h : Settles b [] (ofParams params) s) : ∃ chunk, s.finish = .ok chunk := by
  have hloops : s.loops.loops = [] := h.closed rfl
  obtain ⟨ps, hps⟩ := LabelTable.resolve_eq_ok (t := s.labels) fun l hl => by
    obtain hl | ⟨hused, hplaced | ⟨j, c, rest, hc, -⟩⟩ := h.settled l (Nat.zero_le _) hl
    · cases hl
    · exact ⟨hused, hplaced⟩
    · simp [hloops] at hc
  refine ⟨⟨s.code, ps.toArray, s.slots.maxDepth⟩, ?_⟩
  simp [Assembly.finish, LoopStack.inLoop, hloops, hps]

end Assembly

/-! ### Emitted code -/

theorem Setting.inLoop_post {c : Setting} (h : c.strict = true) : c.post.inLoop = false := by
  simp [post, h]

section

variable {functions : SignatureTable} {s s' : Assembly}

open Assembly (Settles Starts)

/-- Code for values places the labels that it creates. -/
theorem Code.settles_of_isOperand {p : Piece} (h : Code functions p s s')
    (hp : p.isOperand = true) : Settles false [] s s' := by
  induction h with
  | constant _ hload | resultRef _ hload => exact .of_indexed hload
  | slot _ hread hname => exact (Settles.of_appends hread).andThen (.of_relabels hname)
  | dynamic _ hread hname => exact (Settles.of_indexed hread).andThen (.of_relabels hname)
  | application _ hload _ _ hcall ih =>
      exact ((Settles.of_indexed hload).andThen (ih rfl)).andThen (.of_appends hcall)
  | sparseArray _ _ ihctor ihstores => exact (ihctor rfl).andThen (ihstores rfl)
  | get _ _ hget ihsource ihindex =>
      exact ((ihsource rfl).andThen (ihindex rfl)).andThen (.of_appends hget)
  | concat _ _ _ hconcat ih => exact (ih rfl).andThen (.of_appends hconcat)
  | fold _ _ _ _ ihfirst ihrest => exact (ihfirst rfl).andThen (ihrest rfl)
  | foldNot _ _ _ _ hnot ihfirst ihrest =>
      exact ((ihfirst rfl).andThen (ihrest rfl)).andThen (.of_appends hnot)
  | unary _ _ hinstr ih => exact (ih rfl).andThen (.of_appends hinstr)
  | shortcut _ hlabel _ hjump _ hplace hname ihleft ihright =>
      have hjumped := ((Settles.of_creates hlabel).andThen (ihleft rfl)).andThen (.of_appends hjump)
      have hused := (ihright rfl).used _ ((hjump.used _).2 (.inr rfl))
      exact ((hjumped.andThen (ihright rfl)).places_used hplace hused).andThen (.of_relabels hname)
  | noValues | noChain | noStores | noResults => exact .refl _
  | valuesCons _ _ ihf ihfs => exact (ihf rfl).andThen (ihfs rfl)
  | chainCons _ hinstr _ ihf ihfs =>
      exact ((ihf rfl).andThen (.of_appends hinstr)).andThen (ihfs rfl)
  | storesCons hcopy hindex _ hset _ ihf ihrest =>
      exact ((((Settles.of_appends hcopy).andThen (.of_indexed hindex)).andThen (ihf rfl)).andThen
        (.of_appends hset)).andThen (ihrest rfl)
  | resultsCons _ hset _ ihf ihfs =>
      exact ((ihf rfl).andThen (.of_indexed hset)).andThen (ihfs rfl)
  | _ => cases hp

def Piece.Settles (c : Setting) (s s' : Assembly) : Piece → Prop
  | .post after => Assembly.SettlesPost c.inLoop after s s'
  | _ => Assembly.Settles c.inLoop [] s s'

/-- Up to the jump past the body of a branch, which is still to be placed. -/
theorem Assembly.Settles.of_condition {b : Bool} {cond : Form} {l : Label} {a d : Assembly}
    (hlabel : Creates l s a) (hcond : Code functions (.value cond) a d)
    (hjump : Appends (.jump .ifNil l) d s') :
    Assembly.Settles b [l] s s' ∧ s'.labels.isUsed l = true :=
  ⟨((of_creates hlabel).andThen (hcond.settles_of_isOperand rfl).weaken).andThen (of_appends hjump),
    (hjump.used _).2 (.inr rfl)⟩

/-- The labels that code creates are used, and placed at the end of the loop around it at the
latest. -/
theorem Code.settles {p : Piece} {c : Setting} (h : Code functions p s s')
    (hp : p.isOperand = false) (hfits : p.fits c = true) (hstrict : c.strict = true)
    (hs : s.Known) : p.Settles c s s' := by
  induction h generalizing c with
  | noForms => exact Settles.refl _
  | noPost => exact rfl
  | formsCons _ _ ihf ihfs =>
      simp only [Piece.fits, areFit, Bool.and_eq_true] at hfits ihf ihfs
      have ht : Settles c.inLoop [] _ _ := ihf rfl hfits.1 hstrict hs
      have hu : Settles c.inLoop [] _ _ := ihfs (c := c.bind _) rfl hfits.2 hstrict (ht.known hs)
      exact ht.andThen hu
  | block _ hdrop ih =>
      have ht : Settles c.inLoop [] _ _ := ih rfl hfits hstrict hs
      exact ht.andThen (.of_drops hdrop)
  | branch hlabel hcond hjump _ hdrop hplace _ ihbody =>
      simp only [Piece.fits, Form.fits, Bool.and_eq_true] at hfits ihbody
      obtain ⟨hjumped, hused⟩ := Settles.of_condition (b := c.inLoop) hlabel hcond hjump
      have hd : Settles c.inLoop [] _ _ := ihbody rfl hfits.1.2 hstrict (hjumped.known hs)
      have he := hd.andThen (.of_drops hdrop)
      exact (hjumped.andThen he).places_used hplace (he.used _ hused)
  | branchElse _ hlabel hcond hjump _ hdrop hplace _ _ ihbody ihother =>
      simp only [Piece.fits, Form.fits, fits?, Bool.and_eq_true] at hfits ihbody ihother
      obtain ⟨hjumped, hused⟩ := Settles.of_condition (b := c.inLoop) hlabel hcond hjump
      have hd : Settles c.inLoop [] _ _ := ihbody rfl hfits.1.2 hstrict (hjumped.known hs)
      have he := hd.andThen (.of_drops hdrop)
      have hf := (hjumped.andThen he).places_used hplace (he.used _ hused)
      exact hf.andThen (ihother rfl hfits.2 hstrict (hf.known hs))
  | branchJoin hlabel hcond hjump _ hdrop hdone hskip hplace _ hjoin _ ihbody ihother =>
      simp only [Piece.fits, Form.fits, fits?, Bool.and_eq_true] at hfits ihbody ihother
      obtain ⟨hjumped, hused⟩ := Settles.of_condition (b := c.inLoop) hlabel hcond hjump
      have hd : Settles c.inLoop [] _ _ := ihbody rfl hfits.1.2 hstrict (hjumped.known hs)
      have he := hd.andThen (.of_drops hdrop)
      -- both labels are owed between the jump past the other way and the place of its start
      have hskipped := (Settles.of_creates (b := c.inLoop) hdone).andThen (.of_appends hskip)
      have hf := ((hjumped.andThen he).trans hskipped).places_used hplace
        (hskipped.used _ (he.used _ hused))
      have hk : Settles c.inLoop [] _ _ := ihother rfl hfits.2 hstrict (hf.known hs)
      exact (hf.andThen hk).places_used hjoin
        (hk.used _ (hplace.isUsed.trans ((hskip.used _).2 (.inr rfl))))
  | loop htest hstart hjump hplace _ hdrop _ hplaceTest hcond hagain hclose ihbody ihpost _ =>
      simp only [Piece.fits, Form.fits, Bool.and_eq_true] at hfits ihbody ihpost
      have hstarts : Starts _ _ _ _ := ⟨_, _, _, htest, hstart, hjump, hplace⟩
      have he : Settles true [] _ _ := ihbody rfl hfits.1.2 hstrict hstarts.known
      have hf := he.andThen (.of_drops hdrop)
      have hpost := ihpost rfl hfits.2 hstrict (hf.known hstarts.known)
      rw [Piece.Settles, Setting.inLoop_post hstrict] at hpost
      have hround := hstarts.opens hs hf hpost
      have htested := hround.tested hstarts hplaceTest (hcond.settles_of_isOperand rfl) hagain
      exact htested.closes hstarts.settles hclose
  | post hnone _ ih => exact .inl ⟨hnone, ih rfl hfits hstrict hs⟩
  | postAt hsome hplace _ ih =>
      refine .inr ⟨_, _, hsome, hplace, ih rfl hfits hstrict ?_⟩
      obtain ⟨labels, rfl, hsize, -⟩ := hplace
      exact fun j m hm => (hs j m hm).trans_le hsize.ge
  | retNil hload hret => exact (Settles.of_indexed hload).andThen (.of_appends hret)
  | ret hfirst hrest hret _ _ =>
      exact ((hfirst.settles_of_isOperand rfl).weaken.andThen
        (hrest.settles_of_isOperand rfl).weaken).andThen (.of_appends hret)
  | jump hf hloops hfind hleave =>
      have hinLoop : c.inLoop = true := by cases ‹Form› <;> cases hf <;> exact hfits
      show Settles c.inLoop [] _ _
      rw [hinLoop]
      exact .of_jump hs hloops hfind hleave
  | bind hinit hname _ =>
      exact (hinit.settles_of_isOperand rfl).weaken.andThen (.of_relabels hname)
  | rebindSlot hvalue _ hset _ =>
      exact (hvalue.settles_of_isOperand rfl).weaken.andThen (.of_appends hset)
  | rebindDynamic hvalue _ hset _ =>
      exact (hvalue.settles_of_isOperand rfl).weaken.andThen (.of_indexed hset)
  | set htarget hindex hvalue hset _ _ _ =>
      exact (((htarget.settles_of_isOperand rfl).weaken.andThen
        (hindex.settles_of_isOperand rfl).weaken).andThen
          (hvalue.settles_of_isOperand rfl).weaken).andThen (.of_appends hset)
  | never _ _ hload hargs _ hcall hforget _ =>
      exact (((Settles.of_indexed hload).andThen (hargs.settles_of_isOperand rfl).weaken).andThen
        (.of_appends hcall)).andThen (.of_forgets hforget)
  | effect hf hdrop _ =>
      exact (hf.settles_of_isOperand rfl).weaken.andThen (.of_drops hdrop)
  | _ => cases hp

end

end StackCompiler
