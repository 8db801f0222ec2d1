import StackCompiler.Proofs.FormShape
import StackCompiler.Proofs.ValueCode

/-!
Slots that stay visible. Whatever code does, the slots that were there before it stay below those
that it adds, and among the latter are those of the variables it binds. This holds also where a
binding stands at a place where nothing drops it. So a variable that is in scope has a slot, and
code for it never refers to a dynamic variable of the same name.
-/

namespace StackCompiler

open Source

/-- The variables that a piece binds for the code after it, the latest first. -/
def Piece.bound : Piece → List String
  | .form f | .post (some f) => f.bound
  | .forms fs => boundNames fs
  | _ => []

/-- Slots are added on top of those that were there, among them those of bound variables. -/
def Assembly.Adds (bound : List String) (s s' : Assembly) : Prop :=
  ∃ added, s'.slots.names = added ++ s.slots.names ∧ List.Sublist (bound.map some) added

namespace Assembly.Adds

variable {bound bound' : List String} {s t s' : Assembly}

theorem of_names (h : s'.slots.names = bound.map some ++ s.slots.names) : s.Adds bound s' :=
  ⟨bound.map some, h, List.Sublist.refl _⟩

theorem of_eq (h : s'.slots.names = s.slots.names) : s.Adds [] s' :=
  of_names h

theorem trans (h₁ : s.Adds bound t) (h₂ : t.Adds bound' s') : s.Adds (bound' ++ bound) s' := by
  obtain ⟨first, hfirst, hbound⟩ := h₁
  obtain ⟨second, hsecond, hbound'⟩ := h₂
  refine ⟨second ++ first, by rw [hsecond, hfirst, List.append_assoc], ?_⟩
  rw [List.map_append]
  exact hbound'.append hbound

theorem congr_left (h : t.Adds bound s') (hs : t.slots.names = s.slots.names) :
    s.Adds bound s' := by
  simpa using (of_eq hs).trans h

theorem congr_right (h : s.Adds bound t) (hs : s'.slots.names = t.slots.names) :
    s.Adds bound s' := by
  simpa using h.trans (of_eq hs)

theorem forget (h : s.Adds bound s') : s.Adds [] s' := by
  obtain ⟨added, hadded, -⟩ := h
  exact ⟨added, hadded, List.nil_sublist _⟩

/-- A block drops its own bindings, or other slots that were added, but never more. -/
theorem drops {fs : List Form} (h : s.Adds (boundNames fs) t)
    (hdrop : Drops (Block.locals fs) t s') : s.Adds [] s' := by
  obtain ⟨added, hadded, hbound⟩ := h
  have hle : Block.locals fs ≤ added.length := by
    simpa [boundNames_length] using hbound.length_le
  refine ⟨added.drop (Block.locals fs), ?_, List.nil_sublist _⟩
  rw [hdrop.names, hadded, List.drop_append_of_le_length hle]

theorem length_le (h : s.Adds bound s') :
    s.slots.names.length + bound.length ≤ s'.slots.names.length := by
  obtain ⟨added, hadded, hbound⟩ := h
  have hle := hbound.length_le
  rw [hadded, List.length_append]
  rw [List.length_map] at hle
  omega

end Assembly.Adds

section

variable {functions : SignatureTable} {s a b c d e s' : Assembly}

/-- Code adds slots but takes none away that was there before. -/
theorem Code.adds {p : Piece} (h : Code functions p s s') (hp : p.isOperand = false) :
    s.Adds p.bound s' := by
  induction h with
  | noForms | noPost => exact .of_eq rfl
  | formsCons _ _ ihf ihfs => exact (ihf rfl).trans (ihfs rfl)
  | block _ hdrop ih => exact (ih rfl).drops hdrop
  | branch hlabel hcond hjump _ hdrop hplace _ ihbody =>
      have hbody := (ihbody rfl).drops hdrop
      have hnames := (hjump.names_of_jump hcond rfl).trans (by rw [hlabel.slots])
      exact (hbody.congr_left hnames).congr_right (by rw [hplace.slots])
  | branchElse _ hlabel hcond hjump _ hdrop hplace _ _ ihbody ihother =>
      rename_i cond other body l s a b c d e f s' _ _ _ _
      have hbody := (ihbody rfl).drops hdrop
      have hother : e.Adds [] s' := ((ihother rfl).congr_left (by rw [hplace.slots])).forget
      exact (hbody.trans hother).congr_left
        ((hjump.names_of_jump hcond rfl).trans (by rw [hlabel.slots]))
  | branchJoin hlabel hcond hjump _ hdrop hdone hskip hplace _ hjoin _ ihbody ihother =>
      rename_i cond other body l m s a b c d e f g h k s' _ _ _
      have hbody := (ihbody rfl).drops hdrop
      have hskip : g.slots.names = e.slots.names := by
        rw [hskip.names, hdone.slots]
        rfl
      have hother : e.Adds [] k :=
        ((ihother rfl).congr_left (by rw [hplace.slots, hskip])).forget
      exact ((hbody.trans hother).congr_left
        ((hjump.names_of_jump hcond rfl).trans (by rw [hlabel.slots]))).congr_right
          (by rw [hjoin.slots])
  | loop htest hstart hjump hplace _ hdrop _ hplaceTest hcond hagain hclose ihbody ihpost _ =>
      have hbody := (ihbody rfl).drops hdrop
      have hround := hbody.trans (ihpost rfl).forget
      have hstartNames := hjump.names
      rw [hstart.slots, htest.slots] at hstartNames
      refine (hround.congr_left ?_).congr_right ?_
      · rw [show (_ : Assembly).slots.names = _ from congrArg Slots.names hplace.slots, hstartNames]
        rfl
      · rw [hclose.slots, hagain.names_of_jump hcond rfl, hplaceTest.slots]
  | post _ _ ih => exact ih rfl
  | postAt _ hplace _ ih => exact (ih rfl).congr_left (by rw [hplace.slots])
  | retNil hload hret =>
      obtain ⟨n, -, happ⟩ := hload
      refine .of_eq ?_
      rw [hret.names, happ.names]
      rfl
  | ret hfirst hrest hret _ _ =>
      refine .of_eq ?_
      rw [hret.names, hrest.names_of_isOperand rfl, hfirst.names_of_isOperand rfl]
      rfl
  | jump hf _ hfind hleave =>
      rename_i f j c rest l s t s' _
      have hbound : f.bound = [] := by cases f <;> cases hf <;> rfl
      have hnames : s'.slots.names = s.slots.names := by rw [hleave.names, hfind.slots]
      simpa only [Piece.bound, hbound] using Assembly.Adds.of_eq hnames
  | bind hinit hname _ =>
      obtain ⟨slots, old, rest, rfl, hold, hnew, -⟩ := hname
      rw [hinit.names_of_isOperand rfl, Piece.after, List.cons.injEq] at hold
      refine .of_names ?_
      rw [hold.2]
      exact hnew
  | rebindSlot hvalue _ hset _ =>
      refine .of_eq ?_
      rw [hset.names, hvalue.names_of_isOperand rfl]
      rfl
  | rebindDynamic hvalue _ hset _ =>
      obtain ⟨n, -, happ⟩ := hset
      refine .of_eq ?_
      rw [happ.names, hvalue.names_of_isOperand rfl]
      rfl
  | set htarget hindex hvalue hset _ _ _ =>
      refine .of_eq ?_
      rw [hset.names, hvalue.names_of_isOperand rfl, hindex.names_of_isOperand rfl,
        htarget.names_of_isOperand rfl]
      rfl
  | never _ _ hload hargs hn hcall hforget _ =>
      obtain ⟨k, -, happ⟩ := hload
      obtain ⟨slots, rfl, -, hnames, -⟩ := hforget
      refine .of_eq ?_
      rw [show (_ : Assembly).slots.names = _ from hnames, hcall.names,
        hargs.names_of_isOperand rfl, happ.names]
      simp [Piece.after, Instr.pops, Instr.pushes, hn, List.drop_append]
  | effect hf hdrop _ =>
      rename_i f s t s' _
      have hbound := Form.bound_of_isBind (isBind_of_isStatement hf.isStatement)
      have hnames : s'.slots.names = s.slots.names := by
        rw [hdrop.names, hf.names_of_isOperand rfl]
        rfl
      simpa only [Piece.bound, hbound] using Assembly.Adds.of_eq hnames
  | _ => cases hp

end

/-! ### Dynamic variables -/

def Instr.dynamicIndex? : Instr → Option UInt16
  | varRef n | varSet n => some n
  | _ => none

/-- The instruction refers to no dynamic variable, or to one that is reserved for results. -/
def Instr.Reserved (constants : Array Constant) (i : Instr) : Prop :=
  ∀ n, i.dynamicIndex? = some n →
    ∃ var ∈ Host.resultVars, constants[n.toNat]? = some (.symbol var)

def Assembly.Reserved (s : Assembly) : Prop :=
  ∀ i ∈ s.code, i.Reserved s.pool.entries

namespace Assembly.Reserved

variable {s t s' : Assembly}

theorem of_eq (h : s.Reserved) (hcode : s'.code = s.code) (hpool : s'.pool = s.pool) :
    s'.Reserved := by
  rw [Reserved, hcode, hpool]
  exact h

/-- An index keeps its meaning when constants are added. -/
theorem addConstant (h : s.Reserved) (c : Constant) :
    Reserved { s with pool := (s.pool.add c).2 } := by
  intro i hi n hn
  obtain ⟨var, hvar, hentry⟩ := h i hi n hn
  obtain ⟨rest, hrest⟩ := (s.pool.add_spec c).2
  refine ⟨var, hvar, ?_⟩
  rw [← Array.getElem?_toList] at hentry ⊢
  rw [← hrest, List.getElem?_append_left (List.getElem?_eq_some_iff.1 hentry).1, hentry]

theorem push {i : Instr} (h : s.Reserved) (hi : i.Reserved s.pool.entries)
    (hcode : s'.code = s.code.push i) (hpool : s'.pool = s.pool) : s'.Reserved := by
  intro j hj
  rw [hpool]
  rw [hcode, Array.mem_push] at hj
  obtain hj | rfl := hj
  · exact h j hj
  · exact hi

theorem appends {i : Instr} (h : s.Reserved) (happ : Appends i s s')
    (hi : i.dynamicIndex? = none := by rfl) : s'.Reserved :=
  h.push (by simp [Instr.Reserved, hi]) happ.code happ.pool

theorem loads {c : Constant} (h : s.Reserved) (hload : AppendsIndexed .constRef c s s') :
    s'.Reserved := by
  obtain ⟨n, -, happ⟩ := hload
  exact (h.addConstant c).appends happ

/-- An instruction may refer to a variable that is reserved. -/
theorem indexed {i : UInt16 → Instr} {var : String} (h : s.Reserved)
    (hindexed : AppendsIndexed i (.symbol var) s s') (hi : ∀ n, (i n).dynamicIndex? = some n)
    (hvar : var ∈ Host.resultVars) : s'.Reserved := by
  obtain ⟨n, hn, happ⟩ := hindexed
  refine (h.addConstant _).push (fun m hm => ⟨var, hvar, ?_⟩) happ.code happ.pool
  rw [hi, Option.some.injEq] at hm
  obtain ⟨d, hd, hkey⟩ := (s.pool.add_spec (.symbol var)).1
  rw [← hm, hn, hd, Constant.eq_of_key (by simp) hkey]

theorem drops {count : Nat} (h : s.Reserved) (hdrop : Drops count s s') : s'.Reserved := by
  obtain ⟨-, rfl⟩ | ⟨n, -, happ⟩ := hdrop
  · exact h
  · exact h.appends happ

theorem relabels {name : Option String} (h : s.Reserved) (hname : Relabels name s s') :
    s'.Reserved := by
  obtain ⟨slots, old, rest, rfl, -⟩ := hname
  exact h.of_eq rfl rfl

theorem creates {l : Label} (h : s.Reserved) (hlabel : Creates l s s') : s'.Reserved := by
  obtain ⟨name, -, rfl⟩ := hlabel
  exact h.of_eq rfl rfl

theorem places {l : Label} (h : s.Reserved) (hplace : Places l s s') : s'.Reserved := by
  obtain ⟨labels, rfl, -⟩ := hplace
  exact h.of_eq rfl rfl

theorem closes (h : s.Reserved) (hclose : Closes s s') : s'.Reserved := by
  obtain ⟨c, rest, -, ⟨-, rfl⟩ | ⟨l, -, hplace⟩⟩ := hclose
  · exact h.of_eq rfl rfl
  · exact Reserved.places (s := { s with loops := ⟨rest⟩ }) (h.of_eq rfl rfl) hplace

theorem finds {j : LoopJump} {c : LoopContext} {rest : List LoopContext} {l : Label}
    (h : s.Reserved) (hfind : Finds j c rest l s s') : s'.Reserved := by
  obtain ⟨-, rfl⟩ | ⟨-, -, rfl⟩ := hfind
  · exact h
  · exact h.of_eq rfl rfl

theorem leaves {depth : Nat} {l : Label} (h : s.Reserved) (hleave : Leaves depth l s s') :
    s'.Reserved := by
  obtain ⟨-, happ⟩ | ⟨n, -, -, happ⟩ := hleave
  · exact h.appends happ
  · have hdiscard : Reserved { s with code := s.code.push (.discard n) } :=
      h.push (i := .discard n) (fun _ hm => by cases hm) rfl rfl
    exact hdiscard.appends happ

end Assembly.Reserved

/-- The slots that stay while a piece is computed: operands are combined with the topmost one. -/
def Piece.below : Piece → List (Option String) → List (Option String)
  | .chain _ _, names => names.tail
  | .value _, names | .values _, names | .stores _, names | .results _ _, names
  | .form _, names | .forms _, names | .post _, names => names

def Piece.resultVars : Piece → List String
  | .results vars _ => vars
  | _ => []

section

variable {functions : SignatureTable} {s s' : Assembly}

theorem Slots.find?_ne_none {slots : Slots} {name : String} (h : some name ∈ slots.names) :
    slots.find? name ≠ none := by
  intro hfind
  rw [find?, List.findIdx?_eq_none_iff] at hfind
  simpa using hfind _ h

/-- A value whose variables all have slots refers to no dynamic variable but those of results. -/
theorem Code.reserved_of_isOperand {p : Piece} (h : Code functions p s s')
    (hp : p.isOperand = true)
    (hvars : ∀ name, .var name ∈ p.parts → some name ∈ p.below s.slots.names)
    (hresults : ∀ var ∈ p.resultVars, var ∈ Host.resultVars) (hs : s.Reserved) : s'.Reserved := by
  induction h with
  | constant _ hload => exact hs.loads hload
  | slot _ hread hname => exact (hs.appends hread).relabels hname
  -- the only case with content: a variable that has a slot is not read as a dynamic one
  | dynamic hfind _ _ =>
      rename_i name s t s' _ _
      exact absurd hfind (Slots.find?_ne_none (hvars name (mem_parts_self _)))
  | resultRef hvar hread =>
      rename_i index var s s'
      refine hs.indexed hread (fun _ => rfl) ?_
      cases index with
      | zero => cases hvar
      | succ k => exact List.mem_of_getElem? hvar
  | application hf hload _ _ hcall ih =>
      obtain ⟨n, -, happ⟩ := id hload
      refine (ih rfl (fun name hname => ?_) (by simp [Piece.resultVars])
        (hs.loads hload)).appends hcall
      have hvisible := hvars name ((mem_parts_of_application? hf).2 (.inr hname))
      simp only [Piece.below, happ.names, Instr.pops, Instr.pushes] at hvisible ⊢
      exact List.mem_append_right _ hvisible
  | sparseArray hctor _ ihctor ihstores =>
      simp only [Piece.parts, Form.parts, List.mem_cons, List.mem_append] at hvars ihctor ihstores
      have hmiddle := ihctor rfl (fun name hname => hvars name (.inr (.inl hname))) hresults hs
      refine ihstores rfl (fun name hname => ?_) hresults hmiddle
      rw [Piece.below, hctor.names_of_isOperand rfl]
      exact List.mem_cons_of_mem _ (hvars name (.inr (.inr hname)))
  | get hsource _ hget ihsource ihindex =>
      simp only [Piece.parts, Form.parts, List.mem_cons, List.mem_append] at hvars ihsource ihindex
      have hmiddle := ihsource rfl (fun name hname => hvars name (.inr (.inl hname))) hresults hs
      refine (ihindex rfl (fun name hname => ?_) hresults hmiddle).appends hget
      rw [Piece.below, hsource.names_of_isOperand rfl]
      exact List.mem_cons_of_mem _ (hvars name (.inr (.inr hname)))
  | concat _ _ _ hconcat ih =>
      simp only [Piece.parts, Form.parts, List.mem_cons] at hvars ih
      exact (ih rfl (fun name hname => hvars name (.inr hname)) hresults hs).appends hconcat
  | fold _ _ hfirst _ ihfirst ihrest =>
      simp only [Piece.parts, Form.parts, listParts, List.mem_cons, List.mem_append]
        at hvars ihfirst ihrest
      have hmiddle := ihfirst rfl (fun name hname => hvars name (.inr (.inl hname))) hresults hs
      refine ihrest rfl (fun name hname => ?_) hresults hmiddle
      rw [Piece.below, hfirst.names_of_isOperand rfl]
      exact hvars name (.inr (.inr hname))
  | foldNot _ _ hfirst _ hnot ihfirst ihrest =>
      simp only [Piece.parts, Form.parts, listParts, List.mem_cons, List.mem_append]
        at hvars ihfirst ihrest
      have hmiddle := ihfirst rfl (fun name hname => hvars name (.inr (.inl hname))) hresults hs
      refine (ihrest rfl (fun name hname => ?_) hresults hmiddle).appends hnot
      rw [Piece.below, hfirst.names_of_isOperand rfl]
      exact hvars name (.inr (.inr hname))
  | unary hf _ hinstr ih =>
      exact (ih rfl (fun name hname => hvars name ((mem_parts_of_unary? hf).2 (.inr hname)))
        hresults hs).appends hinstr
  | shortcut hf hlabel hleft hjump _ hplace hname ihleft ihright =>
      rename_i f left right kind l s a b c d e s' _
      have hvars' := fun name hname => hvars name ((mem_parts_of_shortcut? hf).2 hname)
      have hpops : (Instr.jump kind l).pops = 1 := by cases f <;> cases hf <;> rfl
      have hnames : c.slots.names = s.slots.names := by
        rw [hjump.names_of_jump hleft hpops, hlabel.slots]
      have hb := ihleft rfl (fun name hname => by
        rw [Piece.below, hlabel.slots]
        exact hvars' name (.inr (.inl hname))) hresults (hs.creates hlabel)
      have hd := ihright rfl (fun name hname => by
        rw [Piece.below, hnames]
        exact hvars' name (.inr (.inr hname))) hresults (hb.appends hjump)
      exact (hd.places hplace).relabels hname
  | noValues | noChain | noStores | noResults => exact hs
  | valuesCons hf _ ihf ihfs =>
      simp only [Piece.parts, listParts, List.mem_append] at hvars ihf ihfs
      have hmiddle := ihf rfl (fun name hname => hvars name (.inl hname)) hresults hs
      refine ihfs rfl (fun name hname => ?_) hresults hmiddle
      rw [Piece.below, hf.names_of_isOperand rfl]
      exact List.mem_cons_of_mem _ (hvars name (.inr hname))
  | chainCons hf hinstr _ ihf ihfs =>
      simp only [Piece.parts, listParts, List.mem_append] at hvars ihf ihfs
      have hmiddle := ihf rfl (fun name hname => List.mem_of_mem_tail (hvars name (.inl hname)))
        hresults hs
      refine ihfs rfl (fun name hname => ?_) hresults (hmiddle.appends hinstr)
      rw [Piece.below, hinstr.names, hf.names_of_isOperand rfl]
      simpa [Piece.below, Piece.after, Instr.pops, Instr.pushes] using hvars name (.inr hname)
  | storesCons hcopy hindex hf hset _ ihf ihrest =>
      rename_i index f rest s a b c d s' _
      simp only [Piece.parts, storeParts, List.mem_append] at hvars ihf ihrest
      obtain ⟨n, -, happ⟩ := id hindex
      have hb : b.slots.names = none :: none :: s.slots.names := by
        rw [happ.names, hcopy.names]
        rfl
      have hc := ihf rfl (fun name hname => by
        rw [Piece.below, hb]
        exact List.mem_cons_of_mem _ (List.mem_cons_of_mem _ (hvars name (.inl hname))))
        hresults ((hs.appends hcopy).loads hindex)
      refine ihrest rfl (fun name hname => ?_) hresults (hc.appends hset)
      rw [Piece.below, hset.names, hf.names_of_isOperand rfl, hb]
      exact hvars name (.inr hname)
  | resultsCons hf hset _ ihf ihfs =>
      simp only [Piece.parts, listParts, List.mem_append] at hvars ihf ihfs
      simp only [Piece.resultVars, List.forall_mem_cons] at hresults
      have hmiddle := ihf rfl (fun name hname => hvars name (.inl hname))
        (by simp [Piece.resultVars]) hs
      obtain ⟨n, -, happ⟩ := id hset
      refine ihfs rfl (fun name hname => ?_) hresults.2
        (hmiddle.indexed hset (fun _ => rfl) hresults.1)
      rw [Piece.below, happ.names, hf.names_of_isOperand rfl]
      exact hvars name (.inr hname)
  | _ => cases hp

/-- Whether the forms of a piece fit, those that are emitted for their values as operands. -/
def Piece.fits (c : Setting) : Piece → Bool
  | .value f => f.isOperand c.visible
  | .values fs | .chain _ fs | .results _ fs => areOperands c.visible fs
  | .stores elems => (storeParts elems).all (Form.isSound c.visible)
  | .form f => f.fits c
  | .forms fs => areFit c fs
  | .post after => fits? c after

def Assembly.Shows (s : Assembly) (visible : Scope) : Prop :=
  ∀ name, visible name = true → some name ∈ s.slots.names

namespace Assembly.Shows

variable {visible : Scope} {t : Assembly}

theorem of_names (h : s.Shows visible) (hnames : t.slots.names = s.slots.names) :
    t.Shows visible := by
  intro name hname
  rw [hnames]
  exact h name hname

/-- What was visible still is, and so is what has been bound. -/
theorem adds {bound : List String} (h : s.Shows visible) (hadds : s.Adds bound s') :
    s'.Shows (visible.bind bound) := by
  obtain ⟨added, hadded, hbound⟩ := hadds
  intro name hname
  rw [hadded, List.mem_append]
  obtain hname | hname := Scope.bind_eq_true.1 hname
  · exact .inl (hbound.subset (List.mem_map_of_mem hname))
  · exact .inr (h name hname)

theorem kept {bound : List String} (h : s.Shows visible) (hadds : s.Adds bound s') :
    s'.Shows visible :=
  fun name hname => h.adds hadds name (Scope.bind_eq_true.2 (.inr hname))

theorem value {f : Form} (h : s.Shows visible) (hcode : Code functions (.value f) s s') :
    s'.Shows visible := by
  intro name hname
  rw [hcode.names_of_isOperand rfl]
  exact List.mem_cons_of_mem _ (h name hname)

end Assembly.Shows

theorem Code.reserved_value {f : Form} {visible : Scope} (h : Code functions (.value f) s s')
    (hf : f.isOperand visible = true) (hshows : s.Shows visible) (hs : s.Reserved) :
    s'.Reserved :=
  h.reserved_of_isOperand rfl
    (fun name hname => hshows name (List.all_eq_true.1 hf _ hname)) (by simp [Piece.resultVars]) hs

/-- Code of forms whose variables are in scope refers to no dynamic variable but those of results.
Control need not get to the code for this. -/
theorem Code.reserved {p : Piece} {c : Setting} (h : Code functions p s s')
    (hp : p.isOperand = false) (hfits : p.fits c = true) (hshows : s.Shows c.visible)
    (hs : s.Reserved) : s'.Reserved := by
  induction h generalizing c with
  | noForms | noPost => exact hs
  | formsCons hf _ ihf ihfs =>
      simp only [Piece.fits, areFit, Bool.and_eq_true] at hfits ihf ihfs
      exact ihfs rfl hfits.2 (hshows.adds (hf.adds rfl)) (ihf rfl hfits.1 hshows hs)
  | block _ hdrop ih => exact (ih rfl hfits hshows hs).drops hdrop
  | branch hlabel hcond hjump _ hdrop hplace _ ihbody =>
      rename_i cond body l s a b d e f s' _ _
      simp only [Piece.fits, Form.fits, Bool.and_eq_true] at hfits ihbody
      have ha := hshows.of_names (t := a) (by rw [hlabel.slots])
      have hb := hcond.reserved_value hfits.1.1 ha (hs.creates hlabel)
      have he := ihbody rfl hfits.1.2 (ha.of_names (hjump.names_of_jump hcond rfl))
        (hb.appends hjump)
      exact (he.drops hdrop).places hplace
  | branchElse _ hlabel hcond hjump hbody hdrop hplace _ _ ihbody ihother =>
      rename_i cond other body l s a b d e f g s' _ _ _
      simp only [Piece.fits, Form.fits, fits?, Bool.and_eq_true] at hfits ihbody ihother
      have ha := hshows.of_names (t := a) (by rw [hlabel.slots])
      have hb := hcond.reserved_value hfits.1.1 ha (hs.creates hlabel)
      have hd := ha.of_names (hjump.names_of_jump hcond rfl)
      have he := ihbody rfl hfits.1.2 hd (hb.appends hjump)
      have hf := hd.kept ((hbody.adds rfl).drops hdrop)
      exact ihother rfl hfits.2 (hf.of_names (by rw [hplace.slots]))
        ((he.drops hdrop).places hplace)
  | branchJoin hlabel hcond hjump hbody hdrop hdone hskip hplace _ hjoin _ ihbody ihother =>
      rename_i cond other body l m s a b d e f g h k n s' _ _
      simp only [Piece.fits, Form.fits, fits?, Bool.and_eq_true] at hfits ihbody ihother
      have ha := hshows.of_names (t := a) (by rw [hlabel.slots])
      have hb := hcond.reserved_value hfits.1.1 ha (hs.creates hlabel)
      have hd := ha.of_names (hjump.names_of_jump hcond rfl)
      have he := ihbody rfl hfits.1.2 hd (hb.appends hjump)
      have hf := hd.kept ((hbody.adds rfl).drops hdrop)
      have hk : k.slots.names = f.slots.names := by
        rw [hplace.slots, hskip.names, hdone.slots]
        rfl
      exact (ihother rfl hfits.2 (hf.of_names hk)
        ((((he.drops hdrop).creates hdone).appends hskip).places hplace)).places hjoin
  | loop htest hstart hjump hplace hbody hdrop hpost hplaceTest hcond hagain hclose ihbody ihpost
      _ =>
      rename_i cond body post l m s a b d e f g h k n q s' _
      simp only [Piece.fits, Form.fits, Bool.and_eq_true] at hfits ihbody ihpost
      have hstartNames : e.slots.names = s.slots.names := by
        rw [hplace.slots, hjump.names, hstart.slots, htest.slots]
        rfl
      have hstarted := (((hs.creates htest).creates hstart).appends hjump).places hplace
      have heShows := hshows.of_names hstartNames
      have hbodyDone := ihbody rfl hfits.1.2 heShows (hstarted.of_eq rfl rfl)
      have hgShows := heShows.kept ((hbody.adds rfl).drops hdrop)
      have hhShows := hgShows.kept (hpost.adds rfl)
      have hround := (ihpost rfl hfits.2 hgShows (hbodyDone.drops hdrop)).places hplaceTest
      have hn := hcond.reserved_value hfits.1.1 (hhShows.of_names (by rw [hplaceTest.slots])) hround
      exact (hn.appends hagain).closes hclose
  | post _ _ ih => exact ih rfl hfits hshows hs
  | postAt _ hplace _ ih =>
      exact ih rfl hfits (hshows.of_names (by rw [hplace.slots])) (hs.places hplace)
  | retNil hload hret => exact (hs.loads hload).appends hret
  | ret hfirst hrest hret _ _ =>
      simp only [Piece.fits, Form.fits, areOperands_cons, Bool.and_eq_true] at hfits
      have ht := hfirst.reserved_value hfits.1 hshows hs
      refine (hrest.reserved_of_isOperand rfl (fun name hname => ?_) (fun _ hvar => hvar)
        ht).appends hret
      exact hshows.value hfirst name (List.all_eq_true.1 hfits.2 _ hname)
  | jump _ _ hfind hleave => exact (hs.finds hfind).leaves hleave
  | bind hinit hname _ => exact (hinit.reserved_value hfits hshows hs).relabels hname
  | rebindSlot hvalue _ hset _ =>
      simp only [Piece.fits, Form.fits, Bool.and_eq_true] at hfits
      exact (hvalue.reserved_value hfits.2 hshows hs).appends hset
  | rebindDynamic hvalue hfind hset _ =>
      simp only [Piece.fits, Form.fits, Bool.and_eq_true] at hfits
      exact absurd hfind (Slots.find?_ne_none (hshows.value hvalue _ hfits.1))
  | set htarget hindex hvalue hset _ _ _ =>
      simp only [Piece.fits, Form.fits, Bool.and_eq_true] at hfits
      have ht := htarget.reserved_value hfits.1.1 hshows hs
      have htShows := hshows.value htarget
      have hu := hindex.reserved_value hfits.1.2 htShows ht
      exact (hvalue.reserved_value hfits.2 (htShows.value hindex) hu).appends hset
  | never _ _ hload hargs _ hcall hforget _ =>
      obtain ⟨n, -, happ⟩ := id hload
      obtain ⟨slots, rfl, -⟩ := hforget
      simp only [Piece.fits, Form.fits, Form.isOperand_call] at hfits
      have hu := hargs.reserved_of_isOperand rfl (fun name hname => ?_)
        (by simp [Piece.resultVars]) (hs.loads hload)
      · exact (hu.appends hcall).of_eq rfl rfl
      · rw [Piece.below, happ.names]
        exact List.mem_append_right _ (hshows name (List.all_eq_true.1 hfits _ hname))
  | effect hf hdrop _ =>
      have hoperand := isOperand_of_fits hf.isStatement hfits
      exact (hf.reserved_value hoperand hshows hs).drops hdrop
  | _ => cases hp

end

/-! ### Functions -/

theorem areFit_withReturn {c : Setting} {body : Block} (h : areFit c body = true) :
    areFit c body.withReturn = true := by
  unfold Block.withReturn
  split
  · exact h
  · exact areFit_append.2 ⟨h, rfl⟩

theorem Assembly.ofParams_shows (params : List String) :
    (ofParams params).Shows fun name => params.contains name := by
  intro name hname
  rw [ofParams_names]
  exact List.mem_map_of_mem (List.mem_reverse.2 (List.contains_iff_mem.1 hname))

namespace CompiledFunction

/-- The body of a compiled function, as forms. -/
theorem ofSource_ok {env : Environment} {f : Function} {F : CompiledFunction}
    (h : ofSource env f = .ok F) : ∃ body, Block.ofFunction env f = .ok body ∧
      ofBlock env.functions f.name (f.params.map (·.name)) body = .ok F := by
  unfold ofSource at h
  split at h
  · split at h
    · exact ⟨_, ‹_›, h⟩
    · cases h
  · cases h

/-- A function whose variables are all parameters or defined before they are used keeps them on the
stack: the only dynamic variables in its code, also where control never gets, are those that pass
results. -/
theorem ofSource_reserved {env : Environment} {f : Function} {F : CompiledFunction}
    (hscope : f.isScoped = true) (h : ofSource env f = .ok F) :
    ∀ i ∈ F.chunk.code, i.Reserved F.constants := by
  obtain ⟨body, hbody, hblock⟩ := ofSource_ok h
  obtain ⟨s, hcode, hfinish⟩ := ofBlock_ok hblock
  have hfit :
      areFit ⟨fun name => (f.params.map (·.name)).contains name, false, false⟩ body = true :=
    areFit_ofStmts f.body hbody hscope (fun _ hname => hname) nofun
  have hs : s.Reserved := hcode.reserved rfl (areFit_withReturn hfit)
    (Assembly.ofParams_shows _) (by simp [Assembly.Reserved, Assembly.ofParams])
  rw [hfinish.code, hfinish.constants]
  exact hs

/-- How often the remainder is taken until it is zero, or one. What follows the `break` is never
run. -/
def remainderCount : Function where
  name := "remainder-count"
  params := [⟨"a", .int⟩, ⟨"b", .int⟩]
  results := [.int]
  body :=
    [.decl .var [⟨["count"], .int, [], {}⟩] {},
      .loop none (some (.ofBinary .notEq (.ofName "b" .int) (.ofLiteral (.int 0))))
        (some (.step .up (.ofName "count" .int) {}))
        [.assign [.ofName "_" .int, .ofDefinition "r" .int] .define
            [.call (.function "divide") [.ofName "a" .int, .ofName "b" .int] (.tuple 2) {}] {},
          .assign [.ofName "a" .int, .ofName "b" .int] .assign
            [.ofName "b" .int, .ofName "r" .int] {},
          .branch none (.ofBinary .eq (.ofName "r" .int) (.ofLiteral (.int 1)))
            [.breakLoop {}, .assign [.ofName "a" .int] .assign [.ofName "r" .int] {}] none {}] {},
      .ret [.ofName "count" .int] {}]

theorem ofSource_reserved_remainderCount :
    ∃ F, ofSource ⟨⟨[(.ofName "divide", ⟨"divide", .value⟩)]⟩, .empty⟩ remainderCount = .ok F ∧
      (∃ i ∈ F.chunk.code, i.dynamicIndex?.isSome = true) ∧
        ∀ i ∈ F.chunk.code, i.Reserved F.constants := by
  have hok : (match ofSource ⟨⟨[(.ofName "divide", ⟨"divide", .value⟩)]⟩, .empty⟩
      remainderCount with
      | .ok F => F.chunk.code.any (·.dynamicIndex?.isSome)
      | .error _ => false) = true := by decide +kernel
  split at hok
  · rename_i F hF
    exact ⟨F, hF, Array.any_eq_true'.1 hok, ofSource_reserved (by decide) hF⟩
  · cases hok

end CompiledFunction

end StackCompiler
