import StackCompiler.Proofs.LabelUse

/-!
The errors that are left once the source has a form. No step of the construction underflows the
static stack, loses a label or leaves a loop that is not open. What remains are the bounds of the
machine, and three ways in which forms can be at fault that their conversion does not rule out.
-/

namespace StackCompiler

open Source

/-- Errors that the parts of a function account for. -/
inductive Explained (functions : SignatureTable) (parts : List Form) : CompileError → Prop where
  /-- More is asked for than the machine has. -/
  | capacity {r : Resource} {n : Nat} (hlimit : r.limit < n) :
      Explained functions parts (.capacity r n)
  /-- A call of a function without value is used as a value. -/
  | noValue {name : String} {args : List Form} (hpart : .call name args ∈ parts)
      (hname : functions.convention name ≠ .value) :
      Explained functions parts (.internal (.noValue name))
  /-- An operator is not defined for the family of its operands. -/
  | undefinedOperator {kind : OpKind} {family : Family} {args : List Form}
      (hpart : .op kind family args ∈ parts) (hplan : kind.plan? family = none) :
      Explained functions parts (.internal (.undefinedOperator kind family))
  /-- A literal is of another family than the operator it is an operand of. -/
  | operandFamily {kind : OpKind} {family : Family} {args : List Form} {operand : Form}
      (hpart : .op kind family args ∈ parts) (hoperand : operand ∈ args)
      (hclash : operand.clashesWith family = true) :
      Explained functions parts (.internal (.operandFamily operand kind family))

/-- A step that, if it fails, fails with an error that is accounted for. -/
def Emit.Safe (functions : SignatureTable) (parts : List Form) {α : Type} (x : Emit α)
    (s : Assembly) : Prop :=
  ∀ e s', x s = .error e s' → Explained functions parts e

theorem Slots.exists_rename? {slots : Slots} (h : slots.names ≠ []) (name : Option String) :
    ∃ slots', slots.rename? name = some slots' := by
  match slots with
  | ⟨_ :: rest, depth, maxDepth, hdepth⟩ => exact ⟨_, rfl⟩
  | ⟨[], _, _, _⟩ => exact absurd rfl h

namespace Emit.Safe

variable {functions : SignatureTable} {parts : List Form} {α β : Type} {x : Emit α} {s t : Assembly}

theorem of_ok {a : α} (h : x s = .ok a t) : Safe functions parts x s := by
  intro e s' he
  rw [h] at he
  cases he

theorem of_error {e : CompileError} (h : x s = .error e t) (he : Explained functions parts e) :
    Safe functions parts x s := by
  intro e' s' he'
  rw [h] at he'
  cases he'
  exact he

/-- A step that follows another starts where that one succeeded. -/
theorem bind {f : α → Emit β} (hx : Safe functions parts x s)
    (hf : ∀ a t, x s = .ok a t → Safe functions parts (f a) t) :
    Safe functions parts (x >>= f) s := by
  intro e s' h
  cases hresult : x s with
  | error e' t =>
      have herror : (x >>= f) s = .error e' t := by simp only [Bind.bind, EStateM.bind, hresult]
      rw [herror] at h
      cases h
      exact hx _ _ hresult
  | ok a t =>
      have hrest : (x >>= f) s = f a t := by simp only [Bind.bind, EStateM.bind, hresult]
      rw [hrest] at h
      exact hf a t hresult e s' h

theorem onSlots {g : Slots → Except Fault Slots} (h : ∃ slots, g s.slots = .ok slots) :
    Safe functions parts (Emit.onSlots g) s := by
  obtain ⟨slots, h⟩ := h
  exact of_ok (a := ()) (t := { s with slots }) (by simp [Emit.onSlots, h])

theorem onLabels {g : LabelTable → Except Fault LabelTable}
    (h : ∃ labels, g s.labels = .ok labels) : Safe functions parts (Emit.onLabels g) s := by
  obtain ⟨labels, h⟩ := h
  exact of_ok (a := ()) (t := { s with labels }) (by simp [Emit.onLabels, h])

/-! ### Single steps -/

theorem pop {count : Nat} (h : count ≤ s.slots.names.length) :
    Safe functions parts (Emit.onSlots (·.pop count)) s := by
  refine onSlots ?_
  rw [← s.slots.depth_eq] at h
  rw [Slots.pop, if_pos h]
  exact ⟨_, rfl⟩

/-- An instruction needs its operands on the static stack and its label among those created. -/
theorem instr {i : Instr} (hpops : i.pops ≤ s.slots.names.length)
    (hlabel : ∀ l, i.label? = some l → l.id < s.labels.size) :
    Safe functions parts (Emit.instr i) s := by
  unfold Emit.instr
  refine bind (pop hpops) fun _ t ht => ?_
  obtain ⟨slots, -, rfl⟩ := Emit.onSlots_ok ht
  refine bind (of_ok rfl) fun _ t ht => ?_
  cases ht
  cases hl : i.label? with
  | none => exact of_ok rfl
  | some l =>
      refine bind (onLabels ?_) fun _ t _ => of_ok rfl
      obtain ⟨info, hinfo⟩ : ∃ info, s.labels.get? l = some info :=
        ⟨_, Array.getElem?_eq_getElem (hlabel l hl)⟩
      rw [LabelTable.markUsed, hinfo]
      exact ⟨_, rfl⟩

theorem word (r : Resource) (n : Nat) : Safe functions parts (Emit.word r n) s := by
  unfold Emit.word
  split
  · exact of_ok rfl
  · exact of_error rfl (.capacity (by omega))

theorem byte (r : Resource) (n : Nat) : Safe functions parts (Emit.byte r n) s := by
  unfold Emit.byte
  split
  · exact of_ok rfl
  · exact of_error rfl (.capacity (by omega))

theorem indexed {i : UInt16 → Instr} {c : Constant} (hpops : ∀ n, (i n).pops ≤ s.slots.names.length)
    (hlabel : ∀ n, (i n).label? = none) :
    Safe functions parts (poolIndex c >>= fun n => Emit.instr (i n)) s := by
  refine bind (bind (of_ok rfl) fun k t ht => word _ _) fun n t ht => ?_
  obtain ⟨k, t', hadd, hword⟩ := bind_eq_ok.1 ht
  cases hadd
  obtain ⟨rfl, -⟩ := Emit.word_ok hword
  exact instr (hpops n) (by simp [hlabel])

theorem constant (c : Constant) : Safe functions parts (Emit.constant c) s :=
  indexed (fun _ => Nat.zero_le _) fun _ => rfl

theorem bindLocal {name : String} (h : s.slots.names ≠ []) :
    Safe functions parts (Emit.bindLocal name) s := by
  obtain ⟨slots, hslots⟩ := Slots.exists_rename? h (some name)
  exact onSlots ⟨slots, by rw [Slots.bind, hslots]⟩

theorem unbindTop (h : s.slots.names ≠ []) : Safe functions parts Emit.unbindTop s := by
  obtain ⟨slots, hslots⟩ := Slots.exists_rename? h none
  exact onSlots ⟨slots, by rw [Slots.unbindTop, hslots]⟩

theorem discard {count : Nat} (h : count ≤ s.slots.names.length) :
    Safe functions parts (Emit.discard count) s := by
  unfold Emit.discard
  split
  · exact of_ok rfl
  · refine bind (word _ _) fun n t ht => ?_
    obtain ⟨rfl, hn⟩ := Emit.word_ok ht
    exact instr (by rw [Instr.pops, hn]; exact h) (by simp [Instr.label?])

theorem call {args : Nat} (h : args + 1 ≤ s.slots.names.length) :
    Safe functions parts (Emit.call args) s := by
  refine bind (byte _ _) fun n t ht => ?_
  obtain ⟨rfl, hn⟩ := Emit.byte_ok (by decide) ht
  exact instr (by rw [Instr.pops, hn]; exact h) (by simp [Instr.label?])

theorem concat {count : Nat} (h : count ≤ s.slots.names.length) :
    Safe functions parts (Emit.concat count) s := by
  refine bind (byte _ _) fun n t ht => ?_
  obtain ⟨rfl, hn⟩ := Emit.byte_ok (by decide) ht
  exact instr (by rw [Instr.pops, hn]; exact h) (by simp [Instr.label?])

theorem varRef (name : String) : Safe functions parts (Emit.varRef name) s := by
  unfold Emit.varRef
  refine bind (of_ok (find?_eq name s)) fun found t ht => ?_
  cases ht
  cases s.slots.find? name with
  | some offset =>
      refine bind (word _ _) fun n t ht => ?_
      obtain ⟨rfl, -⟩ := Emit.word_ok ht
      refine bind (instr (Nat.zero_le _) (by simp [Instr.label?])) fun _ t ht => bindLocal ?_
      simp [(Emit.instr_ok ht).names, Instr.pushes]
  | none =>
      refine bind (indexed (fun _ => Nat.zero_le _) fun _ => rfl) fun _ t ht => bindLocal ?_
      obtain ⟨n, -, happ⟩ := Emit.indexed_ok ht
      simp [happ.names, Instr.pushes]

theorem varSet {name : String} (h : s.slots.names ≠ []) :
    Safe functions parts (Emit.varSet name) s := by
  have hpops : 1 ≤ s.slots.names.length := List.length_pos_of_ne_nil h
  unfold Emit.varSet
  refine bind (of_ok (find?_eq name s)) fun found t ht => ?_
  cases ht
  cases s.slots.find? name with
  | some offset =>
      refine bind (word _ _) fun n t ht => ?_
      obtain ⟨rfl, -⟩ := Emit.word_ok ht
      exact instr hpops (by simp [Instr.label?])
  | none => exact indexed (fun _ => hpops) fun _ => rfl

theorem jump {kind : JumpKind} {l : Label} (hpops : 1 ≤ s.slots.names.length)
    (hl : l.id < s.labels.size) : Safe functions parts (Emit.jump kind l) s := by
  refine instr ?_ (by simpa [Instr.label?] using hl)
  cases kind with
  | always => exact Nat.zero_le _
  | _ => exact hpops

/-- Only a label without a place can be placed. -/
theorem bindLabel {l : Label} (hl : l.id < s.labels.size) (hfree : s.labels.place? l = none) :
    Safe functions parts (Emit.bindLabel l) s := by
  obtain ⟨info, hinfo⟩ : ∃ info, s.labels.get? l = some info :=
    ⟨_, Array.getElem?_eq_getElem hl⟩
  have hposition : info.position = none := by simpa [LabelTable.place?, hinfo] using hfree
  refine onLabels ⟨s.labels.update l { info with position := some s.code.size }, ?_⟩
  simp [LabelTable.bind, hinfo, hposition]

end Emit.Safe

/-! ### Labels without a place -/

/-- The label exists and has no place yet. -/
def Assembly.IsFree (s : Assembly) (l : Label) : Prop :=
  l.id < s.labels.size ∧ s.labels.place? l = none

theorem Creates.isFree {l : Label} {s s' : Assembly} (h : Creates l s s') : s'.IsFree l := by
  obtain ⟨name, rfl, rfl⟩ := h
  constructor
  · simp [LabelTable.next, LabelTable.size_create]
  · rw [LabelTable.place?_create]
    exact LabelTable.place?_eq_none_of_size_le (Nat.le_refl _)

theorem Assembly.IsFree.settles {b : Bool} {owed : List Label} {l : Label} {s s' : Assembly}
    (h : s.IsFree l) (hsettles : Assembly.Settles b owed s s') : s'.IsFree l :=
  ⟨h.1.trans_le hsettles.size, (hsettles.places l h.1).trans h.2⟩

theorem Assembly.IsFree.places {l m : Label} {s s' : Assembly} (h : s.IsFree m)
    (hplace : Places l s s') (hne : m ≠ l) : s'.IsFree m := by
  obtain ⟨labels, rfl, hsize, -, hplaces, -⟩ := hplace
  exact ⟨h.1.trans_le hsize.ge, (hplaces m).trans ((if_neg hne).trans h.2)⟩

theorem Creates.ne {l m : Label} {s s' : Assembly} (h : Creates m s s') (hl : s.IsFree l) :
    m ≠ l := by
  rintro rfl
  obtain ⟨name, rfl, -⟩ := h
  exact Nat.lt_irrefl _ hl.1

/-! ### Values -/

section

open Emit (Safe)

variable {functions : SignatureTable} {parts : List Form} {visible : Scope}

/-- A call finds its function and its arguments on the static stack. -/
theorem call_room {name : String} {args : List Form} {s t u : Assembly}
    (hload : AppendsIndexed .constRef (.symbol name) s t)
    (hargs : Code functions (.values args) t u) : args.length + 1 ≤ u.slots.names.length := by
  obtain ⟨n, -, happ⟩ := hload
  rw [hargs.names_of_isOperand rfl, happ.names]
  simp [Piece.after, Instr.pushes]

theorem call_safe {name : String} {args : List Form} {s t u : Assembly}
    (hload : AppendsIndexed .constRef (.symbol name) s t)
    (hargs : Code functions (.values args) t u) :
    Safe functions parts (Emit.call args.length) u :=
  .call (call_room hload hargs)

/-- A result other than the first is read from its variable, as far as there are variables. -/
theorem emitResultRef_safe {index : Nat} {s : Assembly} (h : (index != 0) = true) :
    Safe functions parts (emitResultRef index) s := by
  cases index with
  | zero => cases h
  | succ k =>
      unfold emitResultRef
      rw [if_neg (Nat.succ_ne_zero k)]
      cases hvar : Host.resultVar? (k + 1) with
      | some var => exact .indexed (fun _ => Nat.zero_le _) fun _ => rfl
      | none =>
          have hlength : Host.resultVars.length ≤ k := List.getElem?_eq_none_iff.1 hvar
          exact .of_error rfl (.capacity (by simp only [Resource.limit, Host.maxResults]; omega))

/-- The way past the second operand leads to a label that nothing else places. -/
theorem shortcut_safe {name : String} {kind : JumpKind} {left right : Form}
    (hleft : ∀ s, Safe functions parts (emitValue functions left) s)
    (hright : ∀ s, Safe functions parts (emitValue functions right) s) (s : Assembly) :
    Safe functions parts (do
      let done ← Emit.newLabel name
      emitValue functions left
      Emit.jump kind done
      emitValue functions right
      Emit.bindLabel done
      Emit.unbindTop) s := by
  refine .bind (.of_ok rfl) fun l a ha => ?_
  have hl := (Emit.newLabel_ok ha).isFree
  refine .bind (hleft a) fun _ b hb => ?_
  have hb := emitValue_code left hb
  have hl := hl.settles (hb.settles_of_isOperand rfl)
  refine .bind (.jump (by simp [hb.names_of_isOperand rfl, Piece.after]) hl.1) fun _ c hc => ?_
  have hl := hl.settles (.of_appends (b := false) (Emit.instr_ok hc))
  refine .bind (hright c) fun _ d hd => ?_
  have hd := emitValue_code right hd
  have hl := hl.settles (hd.settles_of_isOperand rfl)
  refine .bind (.bindLabel hl.1 hl.2) fun _ e he => .unbindTop ?_
  rw [(Emit.bindLabel_ok he).slots, hd.names_of_isOperand rfl]
  exact List.cons_ne_nil _ _

theorem checkOperands_safe {kind : OpKind} {family : Family} {args : List Form} {s : Assembly}
    (hpart : .op kind family args ∈ parts) (hadmits : kind.admits args.length = true) :
    Safe functions parts (checkOperands kind family args) s := by
  unfold checkOperands
  rw [if_pos hadmits]
  cases hclash : args.find? (·.clashesWith family) with
  | none => exact .of_ok rfl
  | some operand =>
      have hfound : operand.clashesWith family = true := by simpa using List.find?_some hclash
      exact .of_error rfl (.operandFamily hpart (List.mem_of_find?_eq_some hclash) hfound)

theorem endCall_safe {name : String} {args : Nat} {s : Assembly}
    (h : args + 1 ≤ s.slots.names.length) :
    Safe functions parts (endCall functions name args) s := by
  refine .bind (.call h) fun _ t ht => ?_
  obtain ⟨n, -, happ⟩ := Emit.call_ok ht
  have hpushed : 1 ≤ t.slots.names.length := by simp [happ.names, Instr.pushes]
  cases hconvention : functions.convention name with
  | value => exact .of_ok rfl
  | void => exact .bind (.discard hpushed) fun _ _ _ => .of_ok rfl
  | never => exact .bind (.pop hpushed) fun _ _ _ => .of_ok rfl

theorem endCall_convention {name : String} {args : Nat} {s t : Assembly} {convention : Convention}
    (h : endCall functions name args s = .ok convention t) :
    convention = functions.convention name := by
  obtain ⟨_, u, -, h⟩ := bind_eq_ok.1 h
  cases hconvention : functions.convention name with
  | value =>
      rw [hconvention] at h
      cases h
      rfl
  | void | never =>
      rw [hconvention] at h
      obtain ⟨_, v, -, h⟩ := bind_eq_ok.1 h
      cases h
      rfl

mutual
theorem emitValue_safe (f : Form) (hf : ∀ g ∈ f.parts, g ∈ parts ∧ g.isSound visible = true)
    (s : Assembly) : Safe functions parts (emitValue functions f) s := by
  cases f with
  | bool _ | char _ | int _ | float _ | str _ | symbol _ => exact .constant _
  | var name => exact .varRef name
  | array elems =>
      simp only [Form.parts, List.forall_mem_cons] at hf
      refine .bind (.constant _) fun _ t ht => ?_
      refine .bind (emitValues_safe elems hf.2 t) fun _ u hu => ?_
      exact call_safe (Emit.indexed_ok ht) (emitValues_code elems hu)
  | sparseArray ctor stores =>
      simp only [Form.parts, List.forall_mem_cons, List.forall_mem_append] at hf
      refine .bind (emitValue_safe ctor hf.2.1 s) fun _ t ht => ?_
      exact emitStores_safe stores hf.2.2 t
  | copy source =>
      simp only [Form.parts, List.forall_mem_cons] at hf
      refine .bind (.constant _) fun _ t ht => ?_
      refine .bind (emitValue_safe source hf.2 t) fun _ u hu => ?_
      exact call_safe (Emit.indexed_ok ht) (.valuesCons (emitValue_code source hu) .noValues)
  | get source index =>
      simp only [Form.parts, List.forall_mem_cons, List.forall_mem_append] at hf
      refine .bind (emitValue_safe source hf.2.1 s) fun _ t ht => ?_
      refine .bind (emitValue_safe index hf.2.2 t) fun _ u hu => ?_
      refine .instr ?_ (by simp [Instr.label?])
      rw [(emitValue_code index hu).names_of_isOperand rfl,
        (emitValue_code source ht).names_of_isOperand rfl]
      simp [Piece.after, Instr.pops]
  | op kind family args =>
      have hsound := hf _ (mem_parts_self _)
      simp only [Form.parts, List.forall_mem_cons] at hf
      refine .bind (checkOperands_safe hsound.1 hsound.2) fun _ t ht => ?_
      obtain ⟨rfl, hlength⟩ := checkOperands_ok ht
      cases hplan : kind.plan? family with
      | none => exact .of_error rfl (.undefinedOperator hsound.1 hplan)
      | some plan =>
          cases plan with
          | fold i => exact emitFold_safe i args hf.2 s
          | foldNot i =>
              refine .bind (emitFold_safe i args hf.2 s) fun _ t ht => ?_
              obtain ⟨first, rest, u, rfl, -, hrest⟩ := emitFold_code i args hlength ht
              refine .instr ?_ (by simp [Instr.label?])
              cases rest with
              | nil => simp at hlength
              | cons second rest =>
                  rw [hrest.names_of_isOperand rfl]
                  simp [Piece.after, Instr.pops]
          | concat =>
              refine .bind (emitValues_safe args hf.2 s) fun _ t ht => .concat ?_
              rw [(emitValues_code args ht).names_of_isOperand rfl]
              simp [Piece.after]
          | host name =>
              refine .bind (.constant _) fun _ t ht => ?_
              refine .bind (emitValues_safe args hf.2 t) fun _ u hu => ?_
              exact call_safe (Emit.indexed_ok ht) (emitValues_code args hu)
  | unary kind family arg =>
      have hdefined : kind.isDefinedOn family = true := (hf _ (mem_parts_self _)).2
      simp only [Form.parts, List.forall_mem_cons] at hf
      have hnegate : Safe functions parts (do
          emitValue functions arg
          Emit.instr (.unary .negate)) s := by
        refine .bind (emitValue_safe arg hf.2 s) fun _ t ht => .instr ?_ (by simp [Instr.label?])
        simp [(emitValue_code arg ht).names_of_isOperand rfl, Piece.after, Instr.pops]
      cases kind with
      | neg =>
          cases family with
          | string => cases hdefined
          | int => exact hnegate
          | float => exact hnegate
      | bitNot =>
          cases family with
          | string => cases hdefined
          | float => cases hdefined
          | int =>
              refine .bind (.constant _) fun _ t ht => ?_
              refine .bind (emitValue_safe arg hf.2 t) fun _ u hu => ?_
              exact call_safe (Emit.indexed_ok ht) (.valuesCons (emitValue_code arg hu) .noValues)
  | not arg =>
      simp only [Form.parts, List.forall_mem_cons] at hf
      refine .bind (emitValue_safe arg hf.2 s) fun _ t ht => ?_
      refine .instr ?_ (by simp [Instr.label?])
      rw [(emitValue_code arg ht).names_of_isOperand rfl]
      simp [Piece.after, Instr.pops]
  | and left right | or left right =>
      simp only [Form.parts, List.forall_mem_cons, List.forall_mem_append] at hf
      exact shortcut_safe (emitValue_safe left hf.2.1) (emitValue_safe right hf.2.2) s
  | call name args =>
      have hpart := (hf _ (mem_parts_self _)).1
      simp only [Form.parts, List.forall_mem_cons] at hf
      refine .bind (.constant _) fun _ t ht => ?_
      refine .bind (emitValues_safe args hf.2 t) fun _ u hu => ?_
      refine .bind (endCall_safe (call_room (Emit.indexed_ok ht) (emitValues_code args hu)))
        fun convention v hv => ?_
      split
      · exact .of_ok rfl
      · rename_i hconvention
        rw [endCall_convention hv] at hconvention
        exact .of_error rfl (.noValue hpart hconvention)
  | dynCall callee args =>
      simp only [Form.parts, List.forall_mem_cons, List.forall_mem_append] at hf
      refine .bind (.constant _) fun _ t ht => ?_
      refine .bind (emitValue_safe callee hf.2.1 t) fun _ u hu => ?_
      refine .bind (emitValues_safe args hf.2.2 u) fun _ v hv => ?_
      have hargs : Code functions (.values (callee :: args)) t v :=
        .valuesCons (emitValue_code callee hu) (emitValues_code args hv)
      exact call_safe (Emit.indexed_ok ht) hargs
  | resultRef index =>
      have hindex : (index != 0) = true := (hf _ (mem_parts_self _)).2
      exact emitResultRef_safe hindex
  | block _ | branch _ _ _ | loop _ _ _ | ret _ | breakLoop | continueLoop | bind _ _ | rebind _ _
  | set _ _ _ => cases (hf _ (mem_parts_self _)).2

theorem emitValues_safe (fs : List Form)
    (hfs : ∀ g ∈ listParts fs, g ∈ parts ∧ g.isSound visible = true) (s : Assembly) :
    Safe functions parts (emitValues functions fs) s := by
  match fs with
  | [] => exact .of_ok rfl
  | f :: fs =>
      simp only [listParts, List.forall_mem_append] at hfs
      exact .bind (emitValue_safe f hfs.1 s) fun _ t ht => emitValues_safe fs hfs.2 t

theorem emitFold_safe (i : BinaryInstr) (fs : List Form)
    (hfs : ∀ g ∈ listParts fs, g ∈ parts ∧ g.isSound visible = true) (s : Assembly) :
    Safe functions parts (emitFold functions i fs) s := by
  match fs with
  | [] => exact .of_ok rfl
  | f :: fs =>
      simp only [listParts, List.forall_mem_append] at hfs
      refine .bind (emitValue_safe f hfs.1 s) fun _ t ht => emitFoldRest_safe i fs hfs.2 ?_
      rw [(emitValue_code f ht).names_of_isOperand rfl]
      exact List.cons_ne_nil _ _

theorem emitFoldRest_safe (i : BinaryInstr) (fs : List Form)
    (hfs : ∀ g ∈ listParts fs, g ∈ parts ∧ g.isSound visible = true) {s : Assembly}
    (hs : s.slots.names ≠ []) : Safe functions parts (emitFoldRest functions i fs) s := by
  match fs with
  | [] => exact .of_ok rfl
  | f :: fs =>
      simp only [listParts, List.forall_mem_append] at hfs
      refine .bind (emitValue_safe f hfs.1 s) fun _ t ht => ?_
      have hnames := (emitValue_code f ht).names_of_isOperand rfl
      have hpops : 1 ≤ s.slots.names.length := List.length_pos_of_ne_nil hs
      refine .bind (.instr ?_ (by simp [Instr.label?])) fun _ u hu => ?_
      · rw [hnames]
        simpa [Piece.after, Instr.pops] using hpops
      · refine emitFoldRest_safe i fs hfs.2 ?_
        simp [(Emit.instr_ok hu).names, Instr.pushes]

theorem emitStores_safe (stores : List (Int64 × Form))
    (hstores : ∀ g ∈ storeParts stores, g ∈ parts ∧ g.isSound visible = true) (s : Assembly) :
    Safe functions parts (emitStores functions stores) s := by
  match stores with
  | [] => exact .of_ok rfl
  | (index, f) :: rest =>
      simp only [storeParts, List.forall_mem_append] at hstores
      refine .bind (.instr (Nat.zero_le _) (by simp [Instr.label?])) fun _ a ha => ?_
      refine .bind (.constant _) fun _ b hb => ?_
      refine .bind (emitValue_safe f hstores.1 b) fun _ c hc => ?_
      refine .bind (.instr ?_ (by simp [Instr.label?])) fun _ d hd =>
        emitStores_safe rest hstores.2 d
      obtain ⟨n, -, happ⟩ := Emit.indexed_ok hb
      rw [(emitValue_code f hc).names_of_isOperand rfl, happ.names, (Emit.instr_ok ha).names]
      simp [Piece.after, Instr.pops, Instr.pushes]
end

theorem isSound_parts {f : Form} (hf : f.isOperand visible = true)
    (hparts : ∀ g ∈ f.parts, g ∈ parts) :
    ∀ g ∈ f.parts, g ∈ parts ∧ g.isSound visible = true :=
  fun g hg => ⟨hparts g hg, List.all_eq_true.1 hf g hg⟩

theorem emitResults_safe (vars : List String) (fs : List Form)
    (hfs : ∀ g ∈ listParts fs, g ∈ parts ∧ g.isSound visible = true) (s : Assembly) :
    Safe functions parts (emitResults functions vars fs) s := by
  induction fs generalizing vars s with
  | nil => cases vars <;> exact .of_ok rfl
  | cons f fs ih =>
      cases vars with
      | nil => exact .of_ok rfl
      | cons var vars =>
          simp only [listParts, List.forall_mem_append] at hfs
          refine .bind (emitValue_safe f hfs.1 s) fun _ t ht => ?_
          refine .bind (.indexed (fun _ => ?_) fun _ => rfl) fun _ u hu => ih vars hfs.2 u
          simp [(emitValue_code f ht).names_of_isOperand rfl, Piece.after, Instr.pops]

theorem emitReturn_safe {results : List Form}
    (hresults : ∀ g ∈ listParts results, g ∈ parts ∧ g.isSound visible = true) (s : Assembly) :
    Safe functions parts (emitReturn functions results) s := by
  cases results with
  | nil =>
      refine .bind (.constant _) fun _ t ht => .instr ?_ (by simp [Instr.label?])
      obtain ⟨n, -, happ⟩ := Emit.indexed_ok ht
      simp [happ.names, Instr.pops, Instr.pushes]
  | cons first rest =>
      simp only [listParts, List.forall_mem_append] at hresults
      unfold emitReturn
      dsimp only
      split
      · rename_i hmax
        have hlength : rest.length ≤ Host.resultVars.length := by simpa [Host.maxResults] using hmax
        refine .bind (emitValue_safe first hresults.1 s) fun _ t ht => ?_
        refine .bind (emitResults_safe _ rest hresults.2 t) fun _ u hu => ?_
        refine .instr ?_ (by simp [Instr.label?])
        rw [(emitResults_code hlength hu).names_of_isOperand rfl, Piece.after,
          (emitValue_code first ht).names_of_isOperand rfl]
        simp [Piece.after, Instr.pops]
      · rename_i hmax
        exact .of_error rfl (.capacity (Nat.not_le.1 hmax))

/-- A call for a value leaves it on the static stack. -/
theorem emitCall_room {name : String} {args : List Form} {s t : Assembly}
    (h : emitCall functions name args s = .ok .value t) : 1 ≤ t.slots.names.length := by
  obtain ⟨_, u, -, h⟩ := bind_eq_ok.1 h
  obtain ⟨_, v, -, h⟩ := bind_eq_ok.1 h
  have hconvention := endCall_convention h
  obtain ⟨_, w, hcall, h⟩ := bind_eq_ok.1 h
  obtain ⟨n, -, happ⟩ := Emit.call_ok hcall
  rw [← hconvention] at h
  cases h
  simp [happ.names, Instr.pushes]

/-! ### Statements -/

/-- The assembly is as the setting says: where jumps may stand, a loop is open, which began no
deeper than the present stack. -/
structure Assembly.Ready (c : Setting) (s : Assembly) : Prop where
  known : s.Known
  inLoop : c.inLoop = true →
    ∃ l rest, s.loops.loops = l :: rest ∧ l.depth ≤ s.slots.names.length

theorem Assembly.Ready.settles {c : Setting} {b : Bool} {owed : List Label} {s t : Assembly}
    (h : s.Ready c) (hsettles : Assembly.Settles b owed s t)
    (hlength : s.slots.names.length ≤ t.slots.names.length) : t.Ready c where
  known := hsettles.known h.known
  inLoop hc := by
    obtain ⟨l, rest, hloops, hdepth⟩ := h.inLoop hc
    obtain ⟨l', hloops', hdepth', -⟩ := hsettles.keeps l rest hloops
    exact ⟨l', rest, hloops', hdepth' ▸ hdepth.trans hlength⟩

theorem Assembly.Ready.places {c : Setting} {l : Label} {s t : Assembly} (h : s.Ready c)
    (hplace : Places l s t) : t.Ready c := by
  obtain ⟨labels, rfl, hsize, -⟩ := hplace
  exact ⟨fun j m hm => (h.known j m hm).trans_le hsize.ge, h.inLoop⟩

/-- The slots of a block's variables are there to be dropped. -/
theorem Code.locals_le {body : Block} {s t : Assembly} (h : Code functions (.forms body) s t) :
    Block.locals body ≤ t.slots.names.length := by
  have hle := (h.adds rfl).length_le
  rw [Piece.bound, boundNames_length] at hle
  omega

/-- A block without its variables. -/
theorem Code.dropped {c : Setting} {body : Block} {s t u : Assembly}
    (h : Code functions (.forms body) s t) (hdrop : Drops body.locals t u)
    (hfits : areFit c body = true) (hstrict : c.strict = true) (hs : s.Known) :
    Assembly.Settles c.inLoop [] s u ∧ s.slots.names.length ≤ u.slots.names.length := by
  have hbody : Assembly.Settles c.inLoop [] s t := h.settles rfl hfits hstrict hs
  exact ⟨hbody.andThen (.of_drops hdrop), ((h.adds rfl).drops hdrop).length_le⟩

/-- The other way of a branch, where the body jumps over it. -/
theorem other_safe {c : Setting} {other : Form} {l : Label} {s : Assembly} (hl : s.IsFree l)
    (hs : s.Ready c) (hfits : other.fits c = true) (hstrict : c.strict = true)
    (hother : ∀ s : Assembly, s.Ready c → Safe functions parts (emitForm functions other) s) :
    Safe functions parts (do
      let done ← Emit.newLabel "endif"
      Emit.jump .always done
      Emit.bindLabel l
      emitForm functions other
      Emit.bindLabel done) s := by
  refine .bind (.of_ok rfl) fun m g hg => ?_
  have hg := Emit.newLabel_ok hg
  have hne := hg.ne hl
  refine .bind (.instr (Nat.zero_le _) (by simpa [Instr.label?] using hg.isFree.1)) fun _ h hh => ?_
  have hh := Emit.instr_ok hh
  have hskipped := (Assembly.Settles.of_creates (b := c.inLoop) hg).andThen (.of_appends hh)
  have hl := hl.settles hskipped
  have hm := hg.isFree.settles (.of_appends (b := c.inLoop) hh)
  refine .bind (.bindLabel hl.1 hl.2) fun _ k hk => ?_
  have hk := Emit.bindLabel_ok hk
  have hready : k.Ready c :=
    (hs.settles hskipped (by simp [hh.names, hg.slots, Instr.pops])).places hk
  refine .bind (hother k hready) fun _ n hn => ?_
  have hsettles : Assembly.Settles c.inLoop [] k n :=
    (emitForm_code other hn).settles rfl hfits hstrict hready.known
  have hm := (hm.places hk hne).settles hsettles
  exact .bindLabel hm.1 hm.2

theorem Emit.Safe.loopJump {j : LoopJump} {l : LoopContext} {rest : List LoopContext} {s : Assembly}
    (hknown : s.Known) (hloops : s.loops.loops = l :: rest)
    (hdepth : l.depth ≤ s.slots.names.length) : Safe functions parts (Emit.loopJump j) s := by
  have hcurrent : s.loops.current? = some l := by simp [LoopStack.current?, hloops]
  refine .bind (.of_ok rfl) fun _ t ht => ?_
  cases ht
  rw [hcurrent]
  refine .bind ?_ fun target t ht => ?_
  · unfold Emit.loopLabel
    cases j.label? l <;> exact .of_ok rfl
  have hfind := Emit.loopLabel_ok hloops ht
  have htarget : target.id < t.labels.size := by
    obtain ⟨hlabel, rfl⟩ | ⟨-, rfl, rfl⟩ := hfind
    · exact hknown j target ⟨l, rest, hloops, hlabel⟩
    · simp [LabelTable.next, LabelTable.size_create]
  unfold Emit.leaveTo
  refine .bind (.of_ok rfl) fun _ u hu => ?_
  cases hu
  rw [t.slots.depth_eq, hfind.slots, if_neg (Nat.not_lt.2 hdepth)]
  split
  · exact .instr (Nat.zero_le _) (by simpa [Instr.label?] using htarget)
  · refine .bind (.word _ _) fun n u hu => ?_
    obtain ⟨rfl, -⟩ := Emit.word_ok hu
    refine .bind (.of_ok rfl) fun _ u hu => ?_
    cases hu
    exact .instr (Nat.zero_le _) (by simpa [Instr.label?] using htarget)

/-- A loop that is closed has at most the label of `break` to place. -/
theorem Emit.Safe.exitLoop {s d t : Assembly} (h : Assembly.Opens [] s d t) :
    Safe functions parts Emit.exitLoop t := by
  obtain ⟨c, hc⟩ := h.loops
  have hclose : Emit.closeLoop t = .ok c { t with loops := ⟨s.loops.loops⟩ } := by
    simp [Emit.closeLoop, LoopStack.exit?, hc]
  refine .bind (.of_ok hclose) fun c' t' ht => ?_
  rw [hclose] at ht
  cases ht
  cases hbreak : c.breakLabel with
  | none => exact .of_ok rfl
  | some l =>
      have hpending : t.Pending .breakLoop l := ⟨c, _, hc, hbreak⟩
      exact .bindLabel (h.known _ _ hpending) (h.breakOut l hpending).2.1

/-- The end of a loop, from its test on. -/
theorem test_safe {cond : Form} {post : Option Form} {l m : Label} {depth : Nat}
    {s d f g : Assembly} (hstarts : Assembly.Starts l m s d) (hs : s.Known)
    (hf : Assembly.Settles true []
      { d with loops := d.loops.enter depth (if post.isNone then some l else none) } f)
    (hcond : ∀ s, Safe functions parts (emitValue functions cond) s)
    (hpost : Assembly.SettlesPost false post f g) :
    Safe functions parts (do
      Emit.bindLabel l
      emitValue functions cond
      Emit.jump .ifNotNil m
      Emit.exitLoop) g := by
  have hround := hstarts.opens hs hf hpost
  refine .bind (.bindLabel (hround.isNew l (by simp)).2 (hstarts.place?_round hf hpost))
    fun _ h hh => ?_
  have hplaced := hround.places_used (Emit.bindLabel_ok hh) hstarts.isUsed
  refine .bind (hcond h) fun _ k hk => ?_
  have hk := emitValue_code cond hk
  have htested := hplaced.andThen (hk.settles_of_isOperand rfl) hstarts.settles.size
  refine .bind (.jump (by simp [hk.names_of_isOperand rfl, Piece.after])
    (htested.isNew m (by simp)).2) fun _ n hn => .exitLoop (s := s) (d := d) ?_
  exact hround.tested hstarts (Emit.bindLabel_ok hh) (hk.settles_of_isOperand rfl)
    (Emit.instr_ok hn)

/-- The end of a loop with a form after its body, once the label of `continue` has its place. -/
theorem after_safe {c : Setting} {cond after : Form} {l m : Label} {depth : Nat}
    {s d f t : Assembly} (hstarts : Assembly.Starts l m s d) (hs : s.Known)
    (hf : Assembly.Settles true [] { d with loops := d.loops.enter depth none } f)
    (hcond : ∀ s, Safe functions parts (emitValue functions cond) s)
    (hfits : after.fits c.post = true) (hstrict : c.strict = true) (ht : t.Ready c.post)
    (hafter : ∀ s : Assembly, s.Ready c.post → Safe functions parts (emitForm functions after) s)
    (hpost : ∀ g, Assembly.Settles false [] t g → Assembly.SettlesPost false (some after) f g) :
    Safe functions parts (do
      emitForm functions after
      Emit.bindLabel l
      emitValue functions cond
      Emit.jump .ifNotNil m
      Emit.exitLoop) t := by
  refine .bind (hafter t ht) fun _ g hg => test_safe hstarts hs hf hcond (hpost g ?_)
  have hg : Assembly.Settles c.post.inLoop [] t g :=
    (emitForm_code after hg).settles rfl hfits hstrict ht.known
  rwa [Setting.inLoop_post hstrict] at hg

mutual
theorem emitForm_safe (f : Form) {c : Setting} (hfits : f.fits c = true) (hstrict : c.strict = true)
    (hparts : ∀ g ∈ f.parts, g ∈ parts) {s : Assembly} (hs : s.Ready c) :
    Safe functions parts (emitForm functions f) s := by
  cases f with
  | block body =>
      simp only [Form.parts, List.forall_mem_cons] at hparts
      exact .bind (emitForms_safe body hfits hstrict hparts.2 hs) fun _ t ht =>
        .discard (emitForms_code body ht).locals_le
  | branch cond body els =>
      simp only [Form.parts, List.forall_mem_cons, List.forall_mem_append] at hparts
      simp only [Form.fits, Bool.and_eq_true] at hfits
      obtain ⟨-, hcondParts, hbodyParts, helsParts⟩ := hparts
      unfold emitForm
      refine .bind (.of_ok rfl) fun l a ha => ?_
      have ha := Emit.newLabel_ok ha
      refine .bind (emitValue_safe cond (isSound_parts hfits.1.1 hcondParts) a) fun _ b hb => ?_
      have hb := emitValue_code cond hb
      have hl := ha.isFree.settles (hb.settles_of_isOperand rfl)
      refine .bind (.jump (by simp [hb.names_of_isOperand rfl, Piece.after]) hl.1) fun _ d hd => ?_
      have hd := Emit.instr_ok hd
      have hl := hl.settles (.of_appends (b := c.inLoop) hd)
      have hnames : d.slots.names = s.slots.names := by rw [hd.names_of_jump hb rfl, ha.slots]
      have hready : d.Ready c :=
        hs.settles (Assembly.Settles.of_condition (b := c.inLoop) ha hb hd).1 (by rw [hnames])
      refine .bind (emitForms_safe body hfits.1.2 hstrict hbodyParts hready) fun _ e he => ?_
      have he := emitForms_code body he
      refine .bind (.discard he.locals_le) fun _ f hf => ?_
      have hf := Emit.discard_ok hf
      obtain ⟨hsettles, hlength⟩ := he.dropped hf hfits.1.2 hstrict hready.known
      have hl := hl.settles hsettles
      have hready := hready.settles hsettles hlength
      cases els with
      | none => exact .bindLabel hl.1 hl.2
      | some other =>
          dsimp only
          split
          · refine .bind (.bindLabel hl.1 hl.2) fun _ g hg => ?_
            exact emitForm_safe other hfits.2 hstrict helsParts
              (hready.places (Emit.bindLabel_ok hg))
          · exact other_safe hl hready hfits.2 hstrict fun s hs =>
              emitForm_safe other hfits.2 hstrict helsParts hs
  | loop cond body post =>
      simp only [Form.parts, List.forall_mem_cons, List.forall_mem_append] at hparts
      simp only [Form.fits, Bool.and_eq_true] at hfits
      obtain ⟨-, hcondParts, hbodyParts, hpostParts⟩ := hparts
      unfold emitForm
      refine .bind (.of_ok rfl) fun l a ha => ?_
      have ha := Emit.newLabel_ok ha
      refine .bind (.of_ok rfl) fun m b hb => ?_
      have hb := Emit.newLabel_ok hb
      have hl := ha.isFree.settles (.of_creates (b := c.inLoop) hb)
      refine .bind (.instr (Nat.zero_le _) (by simpa [Instr.label?] using hl.1)) fun _ c' hc => ?_
      have hc := Emit.instr_ok hc
      have hm := hb.isFree.settles (.of_appends (b := c.inLoop) hc)
      refine .bind (.bindLabel hm.1 hm.2) fun _ d hd => ?_
      have hstarts : Assembly.Starts l m s d := ⟨a, b, c', ha, hb, hc, Emit.bindLabel_ok hd⟩
      refine .bind (.of_ok rfl) fun _ d' hd' => ?_
      rw [Emit.enterLoop_eq] at hd'
      cases hd'
      refine .bind (emitForms_safe body hfits.1.2 hstrict hbodyParts
        ⟨hstarts.known, fun _ => ⟨_, _, rfl, d.slots.depth_eq.le⟩⟩) fun _ e he => ?_
      have he := emitForms_code body he
      refine .bind (.discard he.locals_le) fun _ f hf => ?_
      obtain ⟨hf, -⟩ := he.dropped (Emit.discard_ok hf) hfits.1.2 hstrict hstarts.known
      have hknown := hf.known hstarts.known
      have hready : f.Ready c.post :=
        ⟨hknown, fun hin => by simp [Setting.inLoop_post hstrict] at hin⟩
      have hcond : ∀ s, Safe functions parts (emitValue functions cond) s :=
        emitValue_safe cond (isSound_parts hfits.1.1 hcondParts)
      cases post with
      | none => exact test_safe hstarts hs.known hf hcond rfl
      | some after =>
          refine .bind (.of_ok rfl) fun pending f' hf' => ?_
          rw [Emit.pendingContinue_eq] at hf'
          cases hf'
          have hafter : ∀ s : Assembly, s.Ready c.post →
              Safe functions parts (emitForm functions after) s :=
            fun s hs => emitForm_safe after hfits.2 hstrict hpostParts hs
          cases hpending : f.loops.current?.bind (·.continueLabel) with
          | none =>
              exact after_safe hstarts hs.known hf hcond hfits.2 hstrict hready hafter
                fun g hg => .inl ⟨hpending, hg⟩
          | some k =>
              obtain ⟨hk, -, hfree⟩ := Assembly.Opens.pending_continue hf hpending
              refine .bind (.bindLabel (hknown _ _ hk) hfree) fun _ t ht => ?_
              have ht := Emit.bindLabel_ok ht
              exact after_safe hstarts hs.known hf hcond hfits.2 hstrict (hready.places ht) hafter
                fun g hg => .inr ⟨k, t, hpending, ht, hg⟩
  | ret results =>
      simp only [Form.parts, List.forall_mem_cons] at hparts
      exact emitReturn_safe (fun g hg => ⟨hparts.2 g hg, List.all_eq_true.1 hfits g hg⟩) s
  | breakLoop | continueLoop =>
      obtain ⟨l, rest, hloops, hdepth⟩ := hs.inLoop hfits
      exact .loopJump hs.known hloops hdepth
  | bind name init =>
      simp only [Form.parts, List.forall_mem_cons] at hparts
      refine .bind (emitValue_safe init (isSound_parts hfits hparts.2) s) fun _ t ht =>
        .bindLocal ?_
      rw [(emitValue_code init ht).names_of_isOperand rfl]
      exact List.cons_ne_nil _ _
  | rebind name value =>
      simp only [Form.parts, List.forall_mem_cons] at hparts
      simp only [Form.fits, Bool.and_eq_true] at hfits
      refine .bind (emitValue_safe value (isSound_parts hfits.2 hparts.2) s) fun _ t ht =>
        .varSet ?_
      rw [(emitValue_code value ht).names_of_isOperand rfl]
      exact List.cons_ne_nil _ _
  | set target index value =>
      simp only [Form.parts, List.forall_mem_cons, List.forall_mem_append] at hparts
      simp only [Form.fits, Bool.and_eq_true] at hfits
      obtain ⟨-, htarget, hindex, hvalue⟩ := hparts
      refine .bind (emitValue_safe target (isSound_parts hfits.1.1 htarget) s) fun _ t ht => ?_
      refine .bind (emitValue_safe index (isSound_parts hfits.1.2 hindex) t) fun _ u hu => ?_
      refine .bind (emitValue_safe value (isSound_parts hfits.2 hvalue) u) fun _ v hv => ?_
      refine .instr ?_ (by simp [Instr.label?])
      rw [(emitValue_code value hv).names_of_isOperand rfl,
        (emitValue_code index hu).names_of_isOperand rfl,
        (emitValue_code target ht).names_of_isOperand rfl]
      simp [Piece.after, Instr.pops]
  | call name args =>
      simp only [Form.parts, List.forall_mem_cons] at hparts
      simp only [Form.fits, Form.isOperand_call] at hfits
      refine .bind (.bind (.constant _) fun _ t ht => ?_) fun convention t ht => ?_
      · have hargs : ∀ g ∈ listParts args, g ∈ parts ∧ g.isSound c.visible = true :=
          fun g hg => ⟨hparts.2 g hg, List.all_eq_true.1 hfits g hg⟩
        refine .bind (emitValues_safe args hargs t) fun _ u hu => endCall_safe ?_
        exact call_room (Emit.indexed_ok ht) (emitValues_code args hu)
      · split
        · rename_i hvalue
          subst hvalue
          exact .discard (emitCall_room ht)
        · exact .of_ok rfl
  | _ =>
      refine .bind (emitValue_safe _ (isSound_parts hfits hparts) s) fun _ t ht => .discard ?_
      simp [(emitValue_code _ ht).names_of_isOperand rfl, Piece.after]

theorem emitForms_safe (fs : List Form) {c : Setting} (hfits : areFit c fs = true)
    (hstrict : c.strict = true) (hparts : ∀ g ∈ listParts fs, g ∈ parts) {s : Assembly}
    (hs : s.Ready c) : Safe functions parts (emitForms functions fs) s := by
  match fs with
  | [] => exact .of_ok rfl
  | f :: fs =>
      simp only [listParts, List.forall_mem_append] at hparts
      simp only [areFit, Bool.and_eq_true] at hfits
      refine .bind (emitForm_safe f hfits.1 hstrict hparts.1 hs) fun _ t ht => ?_
      have hcode := emitForm_code f ht
      have hsettles : Assembly.Settles c.inLoop [] s t := hcode.settles rfl hfits.1 hstrict hs.known
      have ht : t.Ready c := hs.settles hsettles
        (Nat.le_of_add_right_le (hcode.adds rfl).length_le)
      exact emitForms_safe fs hfits.2 hstrict hparts.2 ⟨ht.known, ht.inLoop⟩
end

end

/-! ### Functions -/

namespace CompiledFunction

theorem emitBody_safe {functions : SignatureTable} {c : Setting} {body : Block} {s : Assembly}
    (hfits : areFit c body = true) (hstrict : c.strict = true) (hs : s.Ready c) :
    Emit.Safe functions (listParts body) (emitBody functions body) s := by
  refine .bind (emitForms_safe body hfits hstrict (fun _ hg => hg) hs) fun _ t _ => ?_
  split
  · exact .of_ok rfl
  · have hnone : ∀ g ∈ listParts [], g ∈ listParts body ∧ g.isSound c.visible = true := by
      simp [listParts]
    exact emitReturn_safe hnone t

/-- A block that fits compiles, or fails with an error that its parts account for. -/
theorem ofBlock_explained {functions : SignatureTable} {c : Setting} {body : Block}
    (hfits : areFit c body = true) (hstrict : c.strict = true) (hloop : c.inLoop = false)
    (name : String) (params : List String) :
    (∃ F, ofBlock functions name params body = .ok F) ∨
      ∃ e, ofBlock functions name params body = .error e ∧
        Explained functions (listParts body) e := by
  have hknown : (Assembly.ofParams params).Known := by
    rintro j l ⟨context, rest, hloops, -⟩
    cases hloops
  have hready : (Assembly.ofParams params).Ready c := ⟨hknown, fun h => by simp [hloop] at h⟩
  unfold ofBlock
  cases hemit : emitBody functions body (Assembly.ofParams params) with
  | error e s => exact .inr ⟨e, rfl, emitBody_safe hfits hstrict hready e s hemit⟩
  | ok _ s =>
      have hsettles : Assembly.Settles c.inLoop [] (Assembly.ofParams params) s :=
        (emitBody_code hemit).settles rfl (areFit_withReturn hfits) hstrict hknown
      obtain ⟨chunk, hchunk⟩ := hsettles.finish
      exact .inl ⟨⟨name, params, chunk, s.pool.entries⟩, by simp [ofAssembly, hchunk]⟩

/-- The body of any source function whose loops do not jump after their bodies compiles under any
name and with any parameters, or fails because the machine has not enough of something, or because
of a call without value, an operator that is not defined, or a literal operand of another family.
No other rule of the compiler is ever broken. -/
theorem ofFunction_explained {env : Environment} {f : Function} {body : Block}
    (hposts : Stmt.postsStayAll f.body = true) (hbody : Block.ofFunction env f = .ok body)
    (functions : SignatureTable) (name : String) (params : List String) :
    (∃ F, ofBlock functions name params body = .ok F) ∨
      ∃ e, ofBlock functions name params body = .error e ∧
        Explained functions (listParts body) e := by
  have hfits : areFit ⟨.everything, false, true⟩ body = true :=
    areFit_ofStmts f.body hbody (Stmt.areScoped_everything f.body) (fun _ h => h) fun _ => hposts
  exact ofBlock_explained hfits rfl rfl name params

def returning (result : Expr) : Function :=
  ⟨"f", [⟨"x", .float⟩], [.int], [.ret [result] {}]⟩

/-- The loop compiles, and each of the three faults occurs. -/
theorem ofFunction_explained_samples :
    let functions : SignatureTable :=
      ⟨[(.ofName "divide", ⟨"divide", .value⟩), (.ofName "show", ⟨"show", .void⟩)]⟩
    let noValue := Expr.call (.function "show") [.ofName "x" .float] .int {}
    let undefined := Expr.ofBinary .rem (.ofName "x" .float) (.ofName "x" .float)
    let clash := Expr.ofBinary .add (.ofName "x" .float) (.ofLiteral (.int 1))
    (∃ body, Block.ofFunction ⟨functions, .empty⟩ remainderCount = .ok body ∧
      ((∃ F, ofBlock functions "f" ["a", "b"] body = .ok F) ∨
        ∃ e, ofBlock functions "f" ["a", "b"] body = .error e ∧
          Explained functions (listParts body) e)) ∧
      (∃ body, Block.ofFunction ⟨functions, .empty⟩ (returning noValue) = .ok body ∧
        ofBlock functions "f" ["x"] body = .error (.internal (.noValue "show"))) ∧
      (∃ body, Block.ofFunction ⟨functions, .empty⟩ (returning undefined) = .ok body ∧
        ofBlock functions "f" ["x"] body = .error (.internal (.undefinedOperator .rem .float))) ∧
      ∃ body, Block.ofFunction ⟨functions, .empty⟩ (returning clash) = .ok body ∧
        ofBlock functions "f" ["x"] body =
          .error (.internal (.operandFamily (.int 1) .add .float)) := by
  intro functions noValue undefined clash
  obtain ⟨body, hbody⟩ : ∃ body, Block.ofFunction ⟨functions, .empty⟩ remainderCount = .ok body :=
    ⟨_, rfl⟩
  exact ⟨⟨body, hbody, ofFunction_explained (by decide) hbody functions "f" ["a", "b"]⟩,
    ⟨_, rfl, rfl⟩, ⟨_, rfl, rfl⟩, ⟨_, rfl, rfl⟩⟩

end CompiledFunction

end StackCompiler
