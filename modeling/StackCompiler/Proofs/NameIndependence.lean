import StackCompiler.Proofs.Renaming

/-!
Code and the names of variables. Code refers to the variables of a function by their places on the
stack, so other names for them give the same code, as long as different variables get different
names. A variable that is in scope has a slot, in which both constructions find it, so that neither
falls back to a dynamic variable. `emitForm_mirrored` follows the form for this: what is bound is in
scope from there on, and a block never drops the slots that it found.
-/

namespace StackCompiler

open Source

section

variable {ρ : String → String} {N : Set String} {α β : Type} {s : Assembly}

/-! ### Variables -/

/-- Code can be built here: the variables in scope have slots, and slots belong to no other names
than the given ones. -/
structure Ready (N : Set String) (visible : Scope) (s : Assembly) : Prop where
  within : s.Within N
  shows : s.Shows visible

namespace Ready

variable {visible : Scope} {t : Assembly}

theorem of_subset (h : Ready N visible s) (ht : t.Within N)
    (hnames : ∀ slot ∈ s.slots.names, slot ∈ t.slots.names) : Ready N visible t :=
  ⟨ht, fun name hname => hnames _ (h.shows name hname)⟩

theorem of_names (h : Ready N visible s) (hnames : t.slots.names = s.slots.names) :
    Ready N visible t :=
  ⟨fun name hname => h.within name (hnames ▸ hname), h.shows.of_names hnames⟩

theorem adds {bound : List String} (h : Ready N visible s) (hadds : s.Adds bound t)
    (ht : t.Within N) : Ready N (visible.bind bound) t :=
  ⟨ht, h.shows.adds hadds⟩

theorem kept {bound : List String} (h : Ready N visible s) (hadds : s.Adds bound t)
    (ht : t.Within N) : Ready N visible t :=
  ⟨ht, h.shows.kept hadds⟩

end Ready

structure Steady (ρ : String → String) (N : Set String) (x : Emit α) : Prop where
  blind : Blind ρ N x
  names : ∀ {s a t}, x s = .ok a t → t.slots.names = s.slots.names

namespace Steady

theorem bind {visible : Scope} {x : Emit α} {k k' : α → Emit β} (hx : Steady ρ N x)
    (hs : Ready N visible s)
    (hk : ∀ a t, Ready N visible t → Mirrored ρ N t (k a) (k' a)) :
    Mirrored ρ N s (x >>= k) (x >>= k') :=
  (hx.blind s hs.within).bind fun a t ht _ => hk a t (hs.of_names (hx.names ht))

theorem newLabel (name : String) : Steady ρ N (Emit.newLabel name) :=
  ⟨.newLabel name, fun h => by rw [(Emit.newLabel_ok h).slots]⟩

theorem bindLabel (l : Label) : Steady ρ N (Emit.bindLabel l) :=
  ⟨.bindLabel l, fun h => by rw [(Emit.bindLabel_ok h).slots]⟩

theorem skip (l : Label) : Steady ρ N (Emit.jump .always l) :=
  ⟨.instr _, fun h => (Emit.instr_ok h).names⟩

theorem enterLoop (l : Option Label) : Steady ρ N (Emit.enterLoop l) :=
  ⟨.enterLoop l, fun h => by cases h; rfl⟩

theorem pendingContinue : Steady ρ N Emit.pendingContinue :=
  ⟨.pendingContinue, fun h => by cases h; rfl⟩

end Steady

theorem bindLocal_mirrored {name : String} (hs : s.Within N) (hname : name ∈ N) :
    Mirrored ρ N s (Emit.bindLocal name) (Emit.bindLocal (ρ name)) := by
  refine .onSlots (s.slots.bind_renamed name) fun t ht other hother => ?_
  obtain ⟨slots, old, rest, rfl, hold, hnew, -⟩ := Emit.bindLocal_ok ht
  rw [show (_ : Assembly).slots.names = _ from hnew, List.mem_cons, Option.some.injEq] at hother
  rcases hother with rfl | hother
  · exact hname
  · refine hs other ?_
    rw [hold]
    exact List.mem_cons_of_mem _ hother

section

variable (hinj : Set.InjOn ρ N) {name : String} (hs : s.Within N)
  (hname : some name ∈ s.slots.names)
include hinj hs hname

theorem find?_mirrored : Mirrored ρ N s (Emit.find? name) (Emit.find? (ρ name)) := by
  show Mirrors ρ N (.ok _ s) (.ok ((s.slots.renamed ρ).find? (ρ name)) (s.renamed ρ))
  rw [Slots.find?_renamed hinj hs (hs name hname)]
  exact .ok hs

/-- A variable with a slot is read from the same place in both constructions. -/
theorem varRef_mirrored : Mirrored ρ N s (Emit.varRef name) (Emit.varRef (ρ name)) := by
  refine (find?_mirrored hinj hs hname).bind fun offset? t ht _ => ?_
  cases ht
  cases hfind : s.slots.find? name with
  | none => exact absurd hfind (Slots.find?_ne_none hname)
  | some offset =>
      refine (Blind.word _ _ s hs).bind fun n t _ ht => ?_
      exact (Blind.instr _ t ht).bind fun _ t _ ht => bindLocal_mirrored ht (hs name hname)

/-- A variable with a slot is set at the same place in both constructions. -/
theorem varSet_mirrored : Mirrored ρ N s (Emit.varSet name) (Emit.varSet (ρ name)) := by
  refine (find?_mirrored hinj hs hname).bind fun offset? t ht _ => ?_
  cases ht
  cases hfind : s.slots.find? name with
  | none => exact absurd hfind (Slots.find?_ne_none hname)
  | some offset =>
      refine (Blind.word _ _ s hs).bind fun n t _ ht => ?_
      exact Blind.instr _ t ht

end

/-! ### Values -/

section

variable {functions : SignatureTable} {visible : Scope}

theorem checkOperands_mirrored (hs : s.Within N) (kind : OpKind) (family : Family)
    (args : List Form) :
    Mirrored ρ N s (checkOperands kind family args)
      (checkOperands kind family (Form.renameAll ρ args)) := by
  simp only [checkOperands, length_renameAll, find?_clashesWith_renameAll]
  split
  · cases args.find? (·.clashesWith family) with
    | none => exact .ok hs
    | some arg => exact .throw _ _
  · exact .throw _ _

/-- A constant is pushed. -/
theorem Mirrored.load {c : Constant} {k k' : Emit α} (hs : Ready N visible s)
    (hk : ∀ t, Ready N visible t → Mirrored ρ N t k k') :
    Mirrored ρ N s (do Emit.constant c; k) (do Emit.constant c; k') := by
  refine (Blind.constant c s hs.within).bind fun _ t ht htw => hk t ?_
  obtain ⟨n, -, happ⟩ := Emit.indexed_ok ht
  refine hs.of_subset htw fun slot hslot => ?_
  rw [happ.names]
  exact List.mem_append_right _ hslot

/-- A value is pushed. -/
theorem Mirrored.operand {f : Form} {k k' : Emit α}
    (hf : Mirrored ρ N s (emitValue functions f) (emitValue functions (f.rename ρ)))
    (hs : Ready N visible s) (hk : ∀ t, Ready N visible t → Mirrored ρ N t k k') :
    Mirrored ρ N s (do emitValue functions f; k) (do emitValue functions (f.rename ρ); k') :=
  hf.bind fun _ t ht htw => hk t ⟨htw, hs.shows.value (emitValue_code f ht)⟩

/-- A value is tested and used up by a jump. -/
theorem Mirrored.test {f : Form} {kind : JumpKind} {l : Label} {k k' : Emit α}
    (hf : Mirrored ρ N s (emitValue functions f) (emitValue functions (f.rename ρ)))
    (hpops : (Instr.jump kind l).pops = 1) (hs : Ready N visible s)
    (hk : ∀ t, Ready N visible t → Mirrored ρ N t k k') :
    Mirrored ρ N s
      (do
        emitValue functions f
        Emit.jump kind l
        k)
      (do
        emitValue functions (f.rename ρ)
        Emit.jump kind l
        k') := by
  refine hf.bind fun _ t ht htw => (Blind.instr _ t htw).bind fun _ u hu _ => hk u ?_
  exact hs.of_names ((Emit.instr_ok hu).names_of_jump (emitValue_code f ht) hpops)

/-- The variables of a block are dropped in the end, and those around it stay. -/
theorem Mirrored.body {body : Block} {k k' : Emit α}
    (hbody : Mirrored ρ N s (emitForms functions body)
      (emitForms functions (Form.renameAll ρ body)))
    (hs : Ready N visible s) (hk : ∀ t, Ready N visible t → Mirrored ρ N t k k') :
    Mirrored ρ N s
      (do
        emitForms functions body
        Emit.discard (Block.locals body)
        k)
      (do
        emitForms functions (Form.renameAll ρ body)
        Emit.discard (Block.locals (Form.renameAll ρ body))
        k') := by
  rw [locals_renameAll]
  refine hbody.bind fun _ t ht htw => (Blind.discard _ t htw).bind fun _ u hu huw => hk u ?_
  exact hs.kept (((emitForms_code body ht).adds rfl).drops (Emit.discard_ok hu)) huw

mutual
/-- The code for a value does not depend on the names of the variables that it reads. -/
theorem emitValue_mirrored (hinj : Set.InjOn ρ N) (f : Form)
    (hclosed : f.isClosed visible = true) (s : Assembly) (hs : Ready N visible s) :
    Mirrored ρ N s (emitValue functions f) (emitValue functions (f.rename ρ)) := by
  cases f with
  | bool _ | char _ | int _ | float _ | str _ | symbol _ => exact Blind.constant _ s hs.within
  | var name => exact varRef_mirrored hinj hs.within (hs.shows name hclosed)
  | array elems =>
      refine .load hs fun t ht => ?_
      refine (emitValues_mirrored hinj elems hclosed t ht).bind fun _ u _ huw => ?_
      rw [length_renameAll]
      exact Blind.call _ u huw
  | sparseArray ctor stores =>
      simp only [Form.isClosed, Bool.and_eq_true] at hclosed
      refine .operand (emitValue_mirrored hinj ctor hclosed.1 s hs) hs fun t ht => ?_
      exact emitStores_mirrored hinj stores hclosed.2 t ht
  | copy source =>
      refine .load hs fun t ht => ?_
      refine (emitValue_mirrored hinj source hclosed t ht).bind fun _ u _ huw => ?_
      exact Blind.call 1 u huw
  | get source index =>
      simp only [Form.isClosed, Bool.and_eq_true] at hclosed
      refine .operand (emitValue_mirrored hinj source hclosed.1 s hs) hs fun t ht => ?_
      refine (emitValue_mirrored hinj index hclosed.2 t ht).bind fun _ u _ huw => ?_
      exact Blind.instr _ u huw
  | op kind family args =>
      refine (checkOperands_mirrored hs.within kind family args).bind fun _ t ht _ => ?_
      obtain ⟨rfl, -⟩ := checkOperands_ok ht
      cases kind.plan? family with
      | none => exact .throw _ _
      | some plan =>
          cases plan with
          | fold i => exact emitFold_mirrored hinj i args hclosed s hs
          | foldNot i =>
              refine (emitFold_mirrored hinj i args hclosed s hs).bind fun _ u _ huw => ?_
              exact Blind.instr _ u huw
          | concat =>
              refine (emitValues_mirrored hinj args hclosed s hs).bind fun _ u _ huw => ?_
              rw [length_renameAll]
              exact Blind.concat _ u huw
          | host name =>
              refine .load hs fun t ht => ?_
              refine (emitValues_mirrored hinj args hclosed t ht).bind fun _ u _ huw => ?_
              rw [length_renameAll]
              exact Blind.call _ u huw
  | unary kind family arg =>
      cases kind with
      | neg =>
          cases family with
          | string => exact .throw _ _
          | _ =>
              refine (emitValue_mirrored hinj arg hclosed s hs).bind fun _ t _ htw => ?_
              exact Blind.instr _ t htw
      | bitNot =>
          cases family with
          | int =>
              refine .load hs fun t ht => ?_
              refine (emitValue_mirrored hinj arg hclosed t ht).bind fun _ u _ huw => ?_
              exact Blind.call 1 u huw
          | _ => exact .throw _ _
  | not arg =>
      refine (emitValue_mirrored hinj arg hclosed s hs).bind fun _ t _ htw => ?_
      exact Blind.instr _ t htw
  | and left right | or left right =>
      simp only [Form.isClosed, Bool.and_eq_true] at hclosed
      refine (Steady.newLabel _).bind hs fun done t ht => ?_
      refine .test (emitValue_mirrored hinj left hclosed.1 t ht) rfl ht fun u hu => ?_
      refine (emitValue_mirrored hinj right hclosed.2 u hu).bind fun _ v _ hvw => ?_
      exact (Blind.bindLabel done v hvw).bind fun _ w _ hww => Blind.unbindTop w hww
  | call name args =>
      refine .load hs fun t ht => ?_
      refine (emitValues_mirrored hinj args hclosed t ht).bind fun _ u _ huw => ?_
      rw [length_renameAll]
      refine (Blind.endCall functions name args.length u huw).bind fun convention v _ hvw => ?_
      split
      · exact .ok hvw
      · exact .throw _ _
  | dynCall callee args =>
      simp only [Form.isClosed, Bool.and_eq_true] at hclosed
      refine .load hs fun t ht => ?_
      refine .operand (emitValue_mirrored hinj callee hclosed.1 t ht) ht fun u hu => ?_
      refine (emitValues_mirrored hinj args hclosed.2 u hu).bind fun _ v _ hvw => ?_
      rw [length_renameAll]
      exact Blind.call _ v hvw
  | resultRef index => exact Blind.emitResultRef index s hs.within
  | block _ | branch _ _ _ | loop _ _ _ | ret _ | breakLoop | continueLoop | bind _ _ | rebind _ _
  | set _ _ _ => exact .throw _ _
termination_by structural f

theorem emitValues_mirrored (hinj : Set.InjOn ρ N) (fs : List Form)
    (hclosed : allClosed visible fs = true) (s : Assembly) (hs : Ready N visible s) :
    Mirrored ρ N s (emitValues functions fs) (emitValues functions (Form.renameAll ρ fs)) := by
  cases fs with
  | nil => exact .ok hs.within
  | cons f fs =>
      simp only [allClosed, Bool.and_eq_true] at hclosed
      refine .operand (emitValue_mirrored hinj f hclosed.1 s hs) hs fun t ht => ?_
      exact emitValues_mirrored hinj fs hclosed.2 t ht
termination_by structural fs

theorem emitFold_mirrored (hinj : Set.InjOn ρ N) (i : BinaryInstr) (fs : List Form)
    (hclosed : allClosed visible fs = true) (s : Assembly) (hs : Ready N visible s) :
    Mirrored ρ N s (emitFold functions i fs) (emitFold functions i (Form.renameAll ρ fs)) := by
  cases fs with
  | nil => exact .ok hs.within
  | cons f fs =>
      simp only [allClosed, Bool.and_eq_true] at hclosed
      refine (emitValue_mirrored hinj f hclosed.1 s hs).bind fun _ t ht htw => ?_
      refine emitFoldRest_mirrored hinj i fs hclosed.2 t htw fun name hname => ?_
      rw [(emitValue_code f ht).names_of_isOperand rfl]
      exact hs.shows name hname
termination_by structural fs

/-- The topmost slot is used up with the next operand, so variables have to lie below it. -/
theorem emitFoldRest_mirrored (hinj : Set.InjOn ρ N) (i : BinaryInstr) (fs : List Form)
    (hclosed : allClosed visible fs = true) (s : Assembly) (hs : s.Within N)
    (hshows : ∀ name, visible name = true → some name ∈ s.slots.names.tail) :
    Mirrored ρ N s (emitFoldRest functions i fs)
      (emitFoldRest functions i (Form.renameAll ρ fs)) := by
  cases fs with
  | nil => exact .ok hs
  | cons f fs =>
      simp only [allClosed, Bool.and_eq_true] at hclosed
      have hready : Ready N visible s :=
        ⟨hs, fun name hname => List.mem_of_mem_tail (hshows name hname)⟩
      refine (emitValue_mirrored hinj f hclosed.1 s hready).bind fun _ t ht htw => ?_
      refine (Blind.instr _ t htw).bind fun _ u hu huw => ?_
      refine emitFoldRest_mirrored hinj i fs hclosed.2 u huw fun name hname => ?_
      -- the result takes the place of both operands
      rw [(Emit.instr_ok hu).names, (emitValue_code f ht).names_of_isOperand rfl]
      simpa [Piece.after, Instr.pops, Instr.pushes] using hshows name hname
termination_by structural fs

theorem emitStores_mirrored (hinj : Set.InjOn ρ N) (stores : List (Int64 × Form))
    (hclosed : storesClosed visible stores = true) (s : Assembly) (hs : Ready N visible s) :
    Mirrored ρ N s (emitStores functions stores)
      (emitStores functions (Form.renameStores ρ stores)) := by
  match stores with
  | [] => exact .ok hs.within
  | (index, f) :: rest =>
      simp only [storesClosed, Bool.and_eq_true] at hclosed
      refine (Blind.instr _ s hs.within).bind fun _ a ha haw => ?_
      have hcopy : a.slots.names = none :: s.slots.names := (Emit.instr_ok ha).names
      refine (Blind.constant _ a haw).bind fun _ b hb hbw => ?_
      obtain ⟨n, -, happ⟩ := Emit.indexed_ok hb
      have hindex : b.slots.names = none :: none :: s.slots.names := by
        rw [happ.names, ← hcopy]
        rfl
      have hready : Ready N visible b := hs.of_subset hbw fun slot hslot => by
        rw [hindex]
        exact List.mem_cons_of_mem _ (List.mem_cons_of_mem _ hslot)
      refine (emitValue_mirrored hinj f hclosed.1 b hready).bind fun _ c hc hcw => ?_
      refine (Blind.instr _ c hcw).bind fun _ d hd _ => ?_
      refine emitStores_mirrored hinj rest hclosed.2 d (hs.of_names ?_)
      rw [(Emit.instr_ok hd).names, (emitValue_code f hc).names_of_isOperand rfl, hindex]
      rfl
termination_by structural stores
end

/-! ### Forms -/

theorem emitResults_mirrored (hinj : Set.InjOn ρ N) (vars : List String) (fs : List Form)
    (hclosed : allClosed visible fs = true) (s : Assembly) (hs : Ready N visible s) :
    Mirrored ρ N s (emitResults functions vars fs)
      (emitResults functions vars (Form.renameAll ρ fs)) := by
  induction fs generalizing vars s with
  | nil => cases vars <;> exact .ok hs.within
  | cons f fs ih =>
      cases vars with
      | nil => exact .ok hs.within
      | cons var vars =>
          simp only [allClosed, Bool.and_eq_true] at hclosed
          refine (emitValue_mirrored hinj f hclosed.1 s hs).bind fun _ t ht htw => ?_
          refine (Blind.dynamicSet var t htw).bind fun _ u hu _ => ?_
          refine ih vars hclosed.2 u (hs.of_names ?_)
          obtain ⟨n, -, happ⟩ := Emit.indexed_ok hu
          rw [happ.names, (emitValue_code f ht).names_of_isOperand rfl]
          rfl

theorem emitReturn_mirrored (hinj : Set.InjOn ρ N) (results : List Form)
    (hclosed : allClosed visible results = true) (s : Assembly) (hs : Ready N visible s) :
    Mirrored ρ N s (emitReturn functions results)
      (emitReturn functions (Form.renameAll ρ results)) := by
  cases results with
  | nil => exact (Blind.constant _ s hs.within).bind fun _ t _ htw => Blind.instr _ t htw
  | cons first rest =>
      simp only [allClosed, Bool.and_eq_true] at hclosed
      simp only [emitReturn, Form.renameAll, List.length_cons, length_renameAll]
      split
      · refine .operand (emitValue_mirrored hinj first hclosed.1 s hs) hs fun t ht => ?_
        refine (emitResults_mirrored hinj _ rest hclosed.2 t ht).bind fun _ u _ huw => ?_
        exact Blind.instr _ u huw
      · exact .throw _ _

/-- A form that has a value, of which no use is made. -/
theorem effect_mirrored (hinj : Set.InjOn ρ N) (f : Form) (hclosed : f.isClosed visible = true)
    (s : Assembly) (hs : Ready N visible s) :
    Mirrored ρ N s (do emitValue functions f; Emit.discard 1)
      (do emitValue functions (f.rename ρ); Emit.discard 1) :=
  (emitValue_mirrored hinj f hclosed s hs).bind fun _ t _ htw => Blind.discard 1 t htw

mutual
/-- The code for a form does not depend on the names of its variables. -/
theorem emitForm_mirrored (hinj : Set.InjOn ρ N) {visible : Scope} (f : Form)
    (hclosed : f.isClosed visible = true) (hvars : ∀ name ∈ f.variables, name ∈ N)
    (s : Assembly) (hs : Ready N visible s) :
    Mirrored ρ N s (emitForm functions f) (emitForm functions (f.rename ρ)) := by
  cases f with
  | block body =>
      refine (emitForms_mirrored hinj body hclosed hvars s hs).bind fun _ t _ htw => ?_
      rw [locals_renameAll]
      exact Blind.discard _ t htw
  | branch cond body els =>
      simp only [Form.isClosed, Bool.and_eq_true] at hclosed
      simp only [Form.variables, List.forall_mem_append] at hvars
      rw [Form.rename, emitForm, emitForm]
      refine (Steady.newLabel _).bind hs fun l a ha => ?_
      refine .test (emitValue_mirrored hinj cond hclosed.1.1 a ha) rfl ha fun b hb => ?_
      refine .body (emitForms_mirrored hinj body hclosed.1.2 hvars.1.2 b hb) hb fun c hc => ?_
      cases els with
      | none => exact Blind.bindLabel l c hc.within
      | some other =>
          have hother := emitForm_mirrored hinj other hclosed.2 hvars.2
          simp only [Form.renameOption, lastTerminates_renameAll]
          split
          · exact (Steady.bindLabel l).bind hc fun _ d hd => hother d hd
          · refine (Steady.newLabel _).bind hc fun done d hd => ?_
            refine (Steady.skip done).bind hd fun _ e he => ?_
            refine (Steady.bindLabel l).bind he fun _ g hg => ?_
            exact (hother g hg).bind fun _ h _ hhw => Blind.bindLabel done h hhw
  | loop cond body post =>
      simp only [Form.isClosed, Bool.and_eq_true] at hclosed
      simp only [Form.variables, List.forall_mem_append] at hvars
      have htest (test start : Label) (t : Assembly) (ht : Ready N visible t) :
          Mirrored ρ N t
            (do
              Emit.bindLabel test
              emitValue functions cond
              Emit.jump .ifNotNil start
              Emit.exitLoop)
            (do
              Emit.bindLabel test
              emitValue functions (cond.rename ρ)
              Emit.jump .ifNotNil start
              Emit.exitLoop) := by
        refine (Steady.bindLabel test).bind ht fun _ u hu => ?_
        refine .test (emitValue_mirrored hinj cond hclosed.1.1 u hu) rfl hu fun v hv => ?_
        exact Blind.exitLoop v hv.within
      rw [Form.rename, emitForm, emitForm]
      refine (Steady.newLabel _).bind hs fun test a ha => ?_
      refine (Steady.newLabel _).bind ha fun start b hb => ?_
      refine (Steady.skip test).bind hb fun _ c hc => ?_
      refine (Steady.bindLabel start).bind hc fun _ d hd => ?_
      cases post with
      | none =>
          refine (Steady.enterLoop _).bind hd fun _ e he => ?_
          refine .body (emitForms_mirrored hinj body hclosed.1.2 hvars.1.2 e he) he fun g hg => ?_
          exact htest test start g hg
      | some after =>
          -- a binding in this place is not dropped, but it lies above the variables in scope
          have hafter (t : Assembly) (ht : Ready N visible t) :=
            (emitForm_mirrored hinj after hclosed.2 hvars.2 t ht).bind fun _ u hu huw =>
              htest test start u (ht.kept ((emitForm_code after hu).adds rfl) huw)
          refine (Steady.enterLoop _).bind hd fun _ e he => ?_
          refine .body (emitForms_mirrored hinj body hclosed.1.2 hvars.1.2 e he) he fun g hg => ?_
          refine Steady.pendingContinue.bind hg fun pending h hh => ?_
          cases pending with
          | none => exact hafter h hh
          | some l => exact (Steady.bindLabel l).bind hh fun _ k hk => hafter k hk
  | ret results => exact emitReturn_mirrored hinj results hclosed s hs
  | breakLoop => exact Blind.loopJump _ s hs.within
  | continueLoop => exact Blind.loopJump _ s hs.within
  | bind name init =>
      simp only [Form.variables, List.forall_mem_cons] at hvars
      refine (emitValue_mirrored hinj init hclosed s hs).bind fun _ t _ htw => ?_
      exact bindLocal_mirrored htw hvars.1
  | rebind name value =>
      simp only [Form.isClosed, Bool.and_eq_true] at hclosed
      refine .operand (emitValue_mirrored hinj value hclosed.2 s hs) hs fun t ht => ?_
      exact varSet_mirrored hinj ht.within (ht.shows name hclosed.1)
  | set target index value =>
      simp only [Form.isClosed, Bool.and_eq_true] at hclosed
      refine .operand (emitValue_mirrored hinj target hclosed.1.1 s hs) hs fun t ht => ?_
      refine .operand (emitValue_mirrored hinj index hclosed.1.2 t ht) ht fun u hu => ?_
      refine (emitValue_mirrored hinj value hclosed.2 u hu).bind fun _ v _ hvw => ?_
      exact Blind.instr _ v hvw
  | call name args =>
      have hcall : Mirrored ρ N s (emitCall functions name args)
          (emitCall functions name (Form.renameAll ρ args)) := by
        refine .load hs fun t ht => ?_
        refine (emitValues_mirrored hinj args hclosed t ht).bind fun _ u _ huw => ?_
        rw [length_renameAll]
        exact Blind.endCall functions name args.length u huw
      refine hcall.bind fun convention t _ htw => ?_
      split
      · exact Blind.discard 1 t htw
      · exact .ok htw
  | bool _ | char _ | int _ | float _ | str _ | symbol _ | var _ | array _ | sparseArray _ _
  | copy _ | get _ _ | op _ _ _ | unary _ _ _ | not _ | and _ _ | or _ _ | dynCall _ _
  | resultRef _ => exact effect_mirrored hinj _ hclosed s hs
termination_by structural f

theorem emitForms_mirrored (hinj : Set.InjOn ρ N) {visible : Scope} (fs : List Form)
    (hclosed : areClosed visible fs = true) (hvars : ∀ name ∈ Form.variablesAll fs, name ∈ N)
    (s : Assembly) (hs : Ready N visible s) :
    Mirrored ρ N s (emitForms functions fs) (emitForms functions (Form.renameAll ρ fs)) := by
  cases fs with
  | nil => exact .ok hs.within
  | cons f fs =>
      simp only [areClosed, Bool.and_eq_true] at hclosed
      simp only [Form.variablesAll, List.forall_mem_append] at hvars
      refine (emitForm_mirrored hinj f hclosed.1 hvars.1 s hs).bind fun _ t ht htw => ?_
      exact emitForms_mirrored hinj fs hclosed.2 hvars.2 t
        (hs.adds ((emitForm_code f ht).adds rfl) htw)
termination_by structural fs
end

/-! ### Functions -/

theorem emitBody_mirrored (hinj : Set.InjOn ρ N) {body : Block}
    (hclosed : areClosed visible body = true) (hvars : ∀ name ∈ Form.variablesAll body, name ∈ N)
    (hs : Ready N visible s) :
    Mirrored ρ N s (emitBody functions body) (emitBody functions (Form.renameAll ρ body)) := by
  refine (emitForms_mirrored hinj body hclosed hvars s hs).bind fun _ t ht htw => ?_
  rw [endsInReturn_renameAll]
  split
  · exact .ok htw
  · exact emitReturn_mirrored hinj [] rfl t (hs.kept ((emitForms_code body ht).adds rfl) htw)

end

theorem ofParams_renamed (params : List String) :
    Assembly.ofParams (params.map ρ) = (Assembly.ofParams params).renamed ρ := by
  have hslots : ∀ (params : List String) (slots : Slots),
      (params.map ρ).foldl Slots.pushNamed (slots.renamed ρ) =
        (params.foldl Slots.pushNamed slots).renamed ρ := by
    intro params
    induction params with
    | nil => exact fun _ => rfl
    | cons param rest ih =>
        intro slots
        rw [List.map_cons, List.foldl_cons, List.foldl_cons, Slots.pushNamed_renamed, ih]
  have hempty : Slots.empty.renamed ρ = Slots.empty := rfl
  rw [Assembly.ofParams, Assembly.ofParams, Assembly.renamed, ← hslots, hempty]

theorem ofParams_ready {params : List String} (hparams : ∀ name ∈ params, name ∈ N) :
    Ready N (fun name => params.contains name) (Assembly.ofParams params) := by
  refine ⟨fun name hname => hparams name ?_, Assembly.ofParams_shows params⟩
  rw [Assembly.ofParams_names] at hname
  simpa using hname

end

namespace CompiledFunction

/-- Compilation does not depend on the names of variables. If every variable of a body is a
parameter or bound before its use, the body compiles with other names exactly if it compiles as it
is, to the same code and constants. Only different variables have to get different names. -/
theorem ofBlock_rename (functions : SignatureTable) (name : String) (params : List String)
    (body : Block) (ρ : String → String)
    (hclosed : areClosed (fun x => params.contains x) body = true)
    (hinj : Set.InjOn ρ {x | x ∈ params ∨ x ∈ Form.variablesAll body}) :
    (ofBlock functions name (params.map ρ) (Form.renameAll ρ body)).toOption =
      (ofBlock functions name params body).toOption.map
        fun F => { F with params := params.map ρ } := by
  have hmirrored : Mirrored ρ _ (Assembly.ofParams params) (emitBody functions body)
      (emitBody functions (Form.renameAll ρ body)) :=
    emitBody_mirrored hinj hclosed (fun x hx => Or.inr hx) (ofParams_ready fun x hx => Or.inl hx)
  unfold Mirrored at hmirrored
  rw [ofBlock, ofBlock, ofParams_renamed]
  generalize emitBody functions body (Assembly.ofParams params) = built,
    emitBody functions (Form.renameAll ρ body) ((Assembly.ofParams params).renamed ρ) = built'
    at hmirrored
  rcases hmirrored with @⟨_, t, -⟩ | _
  · have hfinish : (t.renamed ρ).finish = t.finish := rfl
    simp only [ofAssembly, hfinish]
    cases t.finish <;> rfl
  · rfl

/-- How often `k` fits into `n`, and what is left. In the body of the loop, another variable has the
name of the count. -/
def quotientBody : Block :=
  [.bind "i" (.int 0),
    .loop (.op .lessEq .int [.var "k", .var "n"])
      [.bind "i" (.op .sub .int [.var "n", .var "k"]), .rebind "n" (.var "i")]
      (some (.rebind "i" (.op .add .int [.var "i", .int 1]))),
    .ret [.var "i", .var "n"]]

/-- New names, of which one was the name of another variable. -/
def shiftNames : String → String
  | "n" => "i"
  | "i" => "count"
  | name => name

theorem ofBlock_rename_quotientBody :
    ∃ F, ofBlock .empty "quotient" ["n", "k"] quotientBody = .ok F ∧
      (ofBlock .empty "quotient" ["i", "k"] (Form.renameAll shiftNames quotientBody)).toOption =
        some { F with params := ["i", "k"] } := by
  have hok : (ofBlock .empty "quotient" ["n", "k"] quotientBody).isOk = true := by decide +kernel
  have hclosed : areClosed (fun x => ["n", "k"].contains x) quotientBody = true := by decide
  have hinj : Set.InjOn shiftNames {x | x ∈ ["n", "k"] ∨ x ∈ Form.variablesAll quotientBody} := by
    have hnames : ∀ x ∈ ["n", "k"] ++ Form.variablesAll quotientBody, x ∈ ["n", "k", "i"] := by
      decide
    have hshift : ∀ x ∈ ["n", "k", "i"], ∀ y ∈ ["n", "k", "i"],
        shiftNames x = shiftNames y → x = y := by decide
    intro x hx y hy
    exact hshift x (hnames x (List.mem_append.2 hx)) y (hnames y (List.mem_append.2 hy))
  have hrename := ofBlock_rename .empty "quotient" ["n", "k"] quotientBody shiftNames hclosed hinj
  cases hcompile : ofBlock .empty "quotient" ["n", "k"] quotientBody with
  | error e =>
      rw [hcompile] at hok
      cases hok
  | ok F =>
      rw [hcompile] at hrename
      exact ⟨F, rfl, hrename⟩

end CompiledFunction

end StackCompiler
