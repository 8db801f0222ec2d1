import StackCompiler.Proofs.StaticStack

/-!
What emission does to the state it starts from. Instructions and constants are only added at the
end. A value adds one slot and a form that is run for its effect adds none, unless it is a binding.
The open loops are the same ones as before, and only the innermost of them can get a label, which
then is a new one.
-/

namespace StackCompiler

/-- The same loop a while later: a label that it did not have before was created between `s` and
`s'`. -/
structure LoopContext.Fills (s s' : Assembly) (c c' : LoopContext) : Prop where
  depth : c'.depth = c.depth
  labels : ∀ j : LoopJump, j.label? c' = j.label? c ∨
    j.label? c = none ∧
      ∃ l, j.label? c' = some l ∧ s.labels.size ≤ l.id ∧ l.id < s'.labels.size

def Assembly.FillsLoops (s s' : Assembly) : Prop :=
  s'.loops = s.loops ∨ ∃ c c' rest, s.loops = ⟨c :: rest⟩ ∧ s'.loops = ⟨c' :: rest⟩ ∧
    c.Fills s s' c'

/-- Nothing is taken back but slots: instructions and constants come at the end, and the loops that
are open stay open. -/
structure Assembly.Extends (s s' : Assembly) : Prop where
  code : s.code.toList <+: s'.code.toList
  constants : s.pool.entries.toList <+: s'.pool.entries.toList
  loops : s.FillsLoops s'

namespace LoopContext.Fills

theorem of_le {s t s' t' : Assembly} {c c' : LoopContext} (h : c.Fills t t' c')
    (hs : s.labels.size ≤ t.labels.size) (ht : t'.labels.size ≤ s'.labels.size) :
    c.Fills s s' c' := by
  refine ⟨h.depth, fun j => ?_⟩
  rcases h.labels j with hsame | ⟨hnone, l, hl, hlow, hhigh⟩
  · exact .inl hsame
  · exact .inr ⟨hnone, l, hl, hs.trans hlow, hhigh.trans_le ht⟩

/-- A label that was filled in is kept from then on. -/
theorem trans {s t u : Assembly} {a b c : LoopContext} (h₁ : a.Fills s t b) (h₂ : b.Fills t u c)
    (hst : s.labels.size ≤ t.labels.size) (htu : t.labels.size ≤ u.labels.size) :
    a.Fills s u c := by
  refine ⟨h₂.depth.trans h₁.depth, fun j => ?_⟩
  rcases (h₁.of_le le_rfl htu).labels j with hsame | ⟨hnone, l, hl, hnew⟩
  · rw [← hsame]
    exact (h₂.of_le hst le_rfl).labels j
  · rcases h₂.labels j with hkeep | ⟨hempty, -⟩
    · exact .inr ⟨hnone, l, hkeep.trans hl, hnew⟩
    · rw [hl] at hempty
      cases hempty

/-- The label that a jump gets on its first use is the next one of the table. -/
theorem setLabel {s s' : Assembly} {j : LoopJump} {c : LoopContext} {l : Label}
    (hnone : j.label? c = none) (hlow : s.labels.size ≤ l.id) (hhigh : l.id < s'.labels.size) :
    c.Fills s s' (j.setLabel l c) := by
  refine ⟨by cases j <;> rfl, fun k => ?_⟩
  cases j <;> cases k
  · exact .inr ⟨hnone, l, rfl, hlow, hhigh⟩
  · exact .inl rfl
  · exact .inl rfl
  · exact .inr ⟨hnone, l, rfl, hlow, hhigh⟩

end LoopContext.Fills

def Assembly.KeepsLoops (s s' : Assembly) : Prop :=
  s.labels.size ≤ s'.labels.size ∧ s.FillsLoops s'

namespace Assembly.KeepsLoops

theorem of_eq {s s' : Assembly} (hlabels : s.labels.size ≤ s'.labels.size)
    (hloops : s'.loops = s.loops) : s.KeepsLoops s' :=
  ⟨hlabels, .inl hloops⟩

theorem trans {s t u : Assembly} (h₁ : s.KeepsLoops t) (h₂ : t.KeepsLoops u) :
    s.KeepsLoops u := by
  obtain ⟨hst, hloops₁⟩ := h₁
  obtain ⟨htu, hloops₂⟩ := h₂
  refine ⟨hst.trans htu, ?_⟩
  obtain hsame₁ | ⟨a, b, rest, hs, ht, hfill₁⟩ := hloops₁
  · obtain hsame₂ | ⟨b, c, rest, ht, hu, hfill₂⟩ := hloops₂
    · exact .inl (hsame₂.trans hsame₁)
    · exact .inr ⟨b, c, rest, hsame₁ ▸ ht, hu, hfill₂.of_le hst le_rfl⟩
  · obtain hsame₂ | ⟨b', c, rest', ht', hu, hfill₂⟩ := hloops₂
    · exact .inr ⟨a, b, rest, hs, hsame₂.trans ht, hfill₁.of_le le_rfl htu⟩
    · rw [ht] at ht'
      cases ht'
      exact .inr ⟨a, c, rest, hs, hu, hfill₁.trans hfill₂ hst htu⟩

theorem of_finds {j : LoopJump} {c : LoopContext} {rest : List LoopContext} {l : Label}
    {s s' : Assembly} (hloops : s.loops.loops = c :: rest) (h : Finds j c rest l s s') :
    s.KeepsLoops s' := by
  obtain ⟨-, rfl⟩ | ⟨hnone, rfl, rfl⟩ := h
  · exact of_eq le_rfl rfl
  · have hsize : (s.labels.create j.labelName).size = s.labels.size + 1 :=
      LabelTable.size_create _ _
    refine ⟨by simp [hsize], .inr ⟨c, j.setLabel s.labels.next c, rest, ?_, rfl, ?_⟩⟩
    · exact congrArg LoopStack.mk hloops
    · exact .setLabel hnone le_rfl (by simp [hsize, LabelTable.next])

/-- A loop that is opened and closed again leaves those around it as they were. -/
theorem of_loop {depth : Nat} {l : Option Label} {s t s' : Assembly}
    (h : KeepsLoops { s with loops := s.loops.enter depth l } t) (hclose : Closes t s') :
    s.KeepsLoops s' := by
  obtain ⟨hsize, hloops⟩ := h
  obtain ⟨c, rest, hopen, hshut⟩ := hclose
  have hrest : rest = s.loops.loops := by
    obtain hsame | ⟨b, b', outer, hs, ht, -⟩ := hloops
    · rw [hsame] at hopen
      exact (List.cons.inj hopen).2.symm
    · rw [ht] at hopen
      exact (List.cons.inj hopen).2.symm.trans (List.cons.inj (LoopStack.mk.inj hs)).2.symm
  obtain ⟨-, rfl⟩ | ⟨m, -, labels, rfl, hlabels, -⟩ := hshut
  · exact of_eq hsize (congrArg LoopStack.mk hrest)
  · exact of_eq (hsize.trans hlabels.ge) (congrArg LoopStack.mk hrest)

theorem stable : Stable Assembly.KeepsLoops where
  refl _ := of_eq le_rfl rfl
  trans := trans
  appends h := of_eq h.labels.ge h.loops
  discard _ _ := of_eq le_rfl rfl
  addConstant _ _ _ := of_eq le_rfl rfl
  forgets h := by
    obtain ⟨slots, rfl, -⟩ := h
    exact of_eq le_rfl rfl
  relabels h := by
    obtain ⟨slots, old, rest, rfl, -⟩ := h
    exact of_eq le_rfl rfl
  creates h := by
    obtain ⟨name, -, rfl⟩ := h
    exact of_eq (by simp [LabelTable.size_create]) rfl
  places h := by
    obtain ⟨labels, rfl, hsize, -⟩ := h
    exact of_eq hsize.ge rfl
  finds := of_finds
  loop := of_loop

end Assembly.KeepsLoops

theorem Code.extends {functions : SignatureTable} {p : Piece} {s s' : Assembly}
    (h : Code functions p s s') : s.Extends s' where
  code := h.grows.code
  constants := h.grows.pool
  loops := (Assembly.KeepsLoops.stable.code h fun _ _ _ => .of_eq le_rfl rfl).2

/-- Forms at the level of a block add the slots of its variables, and the block drops them. -/
theorem Code.names_block {functions : SignatureTable} {body : Block} {s s' : Assembly}
    (h : Code functions (.form (.block body)) s s')
    (htidy : ∀ g ∈ listParts body, g.isTidy = true) : s'.slots.names = s.slots.names := by
  refine h.names fun g hg => ?_
  rcases List.mem_cons.1 hg with rfl | hg
  · rfl
  · exact htidy g hg

/-- From every state and for every form that binds no variable as an `else` or after a round: a
value adds exactly one slot on top, a binding adds the slot of its variable, every other form and
every block leaves the slots as they were, and the rest of the state is only added to. -/
theorem emission_effect (functions : SignatureTable) (f : Form)
    (htidy : ∀ g ∈ f.parts, g.isTidy = true) (s s' : Assembly) :
    (emitValue functions f s = .ok () s' →
      (∃ top, s'.slots.names = top :: s.slots.names) ∧ s.Extends s') ∧
    (emitForm functions f s = .ok () s' →
      (∀ name init, f = .bind name init → s'.slots.names = some name :: s.slots.names) ∧
      (f.isBind = false → s'.slots.names = s.slots.names) ∧ s.Extends s') ∧
    (∀ body : Block, (∀ g ∈ listParts body, g.isTidy = true) →
      emitBlock functions body s = .ok () s' →
      s'.slots.names = s.slots.names ∧ s.Extends s') := by
  refine ⟨fun h => ?_, fun h => ?_, fun body hbody h => ?_⟩
  · have hcode := emitValue_code f h
    exact ⟨⟨f.slotName, hcode.names htidy⟩, hcode.extends⟩
  · have hcode := emitForm_code f h
    refine ⟨fun name init hf => ?_, fun hbind => ?_, hcode.extends⟩
    · rw [hcode.names htidy, hf]
      rfl
    · rw [hcode.names htidy, Piece.after_form hbind]
  · -- emitting a block is emitting the form that consists of it
    have hcode : Code functions (.form (.block body)) s s' := emitForm_code (.block body) h
    exact ⟨hcode.names_block hbody, hcode.extends⟩

/-- A block inside an open loop at depth one, which binds a variable and may leave the loop. -/
def leavingBody : Block :=
  [.bind "y" (.var "x"), .branch (.var "y") [.rebind "x" (.int 1), .breakLoop] (some .continueLoop)]

def insideLoop : Assembly :=
  { Assembly.ofParams ["x"] with loops := ⟨[{ depth := 1 }]⟩ }

/-- The block drops its variable again, and the loop gets the labels of both jumps. -/
theorem emission_effect_leavingBody :
    (∀ g ∈ (Form.block leavingBody).parts, g.isTidy = true) ∧
    ∃ s', emitForm .empty (.block leavingBody) insideLoop = .ok () s' ∧
      s'.slots.names = [some "x"] ∧ insideLoop.Extends s' ∧
      s'.loops = ⟨[⟨1, some ⟨2⟩, some ⟨1⟩⟩]⟩ := by
  have htidy : ∀ g ∈ (Form.block leavingBody).parts, g.isTidy = true := by
    simp [leavingBody, Form.parts, listParts, optionParts, Form.isTidy, Form.isBind]
  have hloops : (Emit.built? (emitForm .empty (.block leavingBody)) insideLoop).map (·.loops) =
      some ⟨[⟨1, some ⟨2⟩, some ⟨1⟩⟩]⟩ := by decide +kernel
  obtain ⟨s', hbuilt, hloops⟩ := Option.map_eq_some_iff.1 hloops
  have hemit := Emit.built?_eq_some hbuilt
  obtain ⟨-, hnames, hextends⟩ := (emission_effect .empty _ htidy insideLoop s').2.1 hemit
  exact ⟨htidy, s', hemit, hnames rfl, hextends, hloops⟩

end StackCompiler
