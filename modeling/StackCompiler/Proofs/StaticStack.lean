import StackCompiler.Proofs.Growth
import StackCompiler.Proofs.Operands

/-!
The static stack and the open loops after code. A value adds one slot, which counts as the slot of a
variable if the value was read from it. A form that is run for its effect adds a slot only if it
binds a variable, and a block drops as many slots as it has bindings. The innermost open loop gets
labels but keeps those it has.
-/

namespace StackCompiler

namespace Form

/-- Whether the form binds no variable at a place where nothing drops it. -/
def isTidy : Form → Bool
  | .branch _ _ (some other) => !other.isBind
  | .loop _ _ (some after) => !after.isBind
  | _ => true

def bound : Form → List String
  | .bind name _ => [name]
  | _ => []

end Form

/-! ### Forms whose code is built alike -/

section Shapes

variable {f arg left right : Form} {c : Constant} {name : String} {args : List Form}
  {i : UnaryInstr} {kind : JumpKind}

/-- A statement has none of the shapes that have a value. -/
theorem shapes_of_isStatement (h : f.isStatement = true) :
    f.constant? = none ∧ f.application? = none ∧ f.unary? = none ∧ f.shortcut? = none := by
  cases f with
  | block _ | branch _ _ _ | loop _ _ _ | ret _ | breakLoop | continueLoop | bind _ _ | rebind _ _
  | set _ _ _ => exact ⟨rfl, rfl, rfl, rfl⟩
  | _ => cases h

theorem isStatement_of_constant? (h : f.constant? = some c) : f.isStatement = false := by
  refine Bool.eq_false_iff.2 fun hstatement => ?_
  rw [(shapes_of_isStatement hstatement).1] at h
  cases h

theorem isStatement_of_application? (h : f.application? = some (name, args)) :
    f.isStatement = false := by
  refine Bool.eq_false_iff.2 fun hstatement => ?_
  rw [(shapes_of_isStatement hstatement).2.1] at h
  cases h

theorem isStatement_of_unary? (h : f.unary? = some (i, arg)) : f.isStatement = false := by
  refine Bool.eq_false_iff.2 fun hstatement => ?_
  rw [(shapes_of_isStatement hstatement).2.2.1] at h
  cases h

theorem isStatement_of_shortcut? (h : f.shortcut? = some (kind, left, right)) :
    f.isStatement = false := by
  refine Bool.eq_false_iff.2 fun hstatement => ?_
  rw [(shapes_of_isStatement hstatement).2.2.2] at h
  cases h

theorem slotName_of_constant? (h : f.constant? = some c) : f.slotName = none := by
  cases f with
  | var _ | sparseArray _ _ => cases h
  | _ => rfl

theorem slotName_of_application? (h : f.application? = some (name, args)) : f.slotName = none := by
  cases f with
  | var _ | sparseArray _ _ => cases h
  | _ => rfl

theorem slotName_of_unary? (h : f.unary? = some (i, arg)) : f.slotName = none := by
  cases f with
  | var _ | sparseArray _ _ => cases h
  | _ => rfl

theorem slotName_of_shortcut? (h : f.shortcut? = some (kind, left, right)) :
    f.slotName = none := by
  cases f with
  | var _ | sparseArray _ _ => cases h
  | _ => rfl

/-- Only a form that has a value is emitted for it. -/
theorem Code.isStatement {functions : SignatureTable} {s s' : Assembly}
    (h : Code functions (.value f) s s') : f.isStatement = false := by
  cases h with
  | constant hf _ => exact isStatement_of_constant? hf
  | application hf _ _ _ _ => exact isStatement_of_application? hf
  | unary hf _ _ => exact isStatement_of_unary? hf
  | shortcut hf _ _ _ _ _ _ => exact isStatement_of_shortcut? hf
  | _ => rfl

theorem Form.bound_of_isBind (h : f.isBind = false) : f.bound = [] := by
  cases f with
  | bind _ _ => cases h
  | _ => rfl

theorem isBind_of_isStatement (h : f.isStatement = false) : f.isBind = false := by
  cases f with
  | bind _ _ => cases h
  | _ => rfl

end Shapes

/-! ### Slots -/

def boundNames : List Form → List String
  | [] => []
  | f :: fs => boundNames fs ++ f.bound

/-- A block drops as many slots as it binds variables. -/
theorem boundNames_length (fs : List Form) : (boundNames fs).length = Block.locals fs := by
  induction fs with
  | nil => rfl
  | cons f fs ih =>
      have hf : f.bound.length = if f.isBind then 1 else 0 := by cases f <;> rfl
      simp only [Block.locals] at ih ⊢
      rw [boundNames, List.length_append, ih, hf, List.countP_cons]

def Piece.after : Piece → List (Option String) → List (Option String)
  | .value f, names => f.slotName :: names
  | .values fs, names => (fs.map Form.slotName).reverse ++ names
  | .chain _ [], names => names
  | .chain _ (_ :: _), names => none :: names.tail
  | .stores _, names => names
  | .results _ _, names => names
  | .form f, names => f.bound.map some ++ names
  | .forms fs, names => (boundNames fs).map some ++ names
  | .post none, names => names
  | .post (some f), names => f.bound.map some ++ names

section Names

theorem Piece.after_form {f : Form} (h : f.isBind = false) (names : List (Option String)) :
    (Piece.form f).after names = names := by
  rw [Piece.after, Form.bound_of_isBind h]
  rfl

theorem Drops.names {count : Nat} {s s' : Assembly} (h : Drops count s s') :
    s'.slots.names = s.slots.names.drop count := by
  obtain ⟨rfl, rfl⟩ | ⟨n, rfl, happ⟩ := h
  · rfl
  · simp [happ.names, Instr.pops, Instr.pushes]

theorem Places.slots {l : Label} {s s' : Assembly} (h : Places l s s') : s'.slots = s.slots := by
  obtain ⟨labels, rfl, -⟩ := h
  rfl

theorem Creates.slots {l : Label} {s s' : Assembly} (h : Creates l s s') : s'.slots = s.slots := by
  obtain ⟨name, -, rfl⟩ := h
  rfl

theorem Closes.slots {s s' : Assembly} (h : Closes s s') : s'.slots = s.slots := by
  obtain ⟨c, rest, -, ⟨-, rfl⟩ | ⟨l, -, hplace⟩⟩ := h
  · rfl
  · exact hplace.slots

theorem Finds.slots {j : LoopJump} {c : LoopContext} {rest : List LoopContext} {l : Label}
    {s s' : Assembly} (h : Finds j c rest l s s') : s'.slots = s.slots := by
  obtain ⟨-, rfl⟩ | ⟨-, -, rfl⟩ := h <;> rfl

/-- The static stack describes the code after the jump, as if it had not been taken. -/
theorem Leaves.names {depth : Nat} {l : Label} {s s' : Assembly} (h : Leaves depth l s s') :
    s'.slots.names = s.slots.names := by
  obtain ⟨-, happ⟩ | ⟨n, -, -, happ⟩ := h <;> simp [happ.names, Instr.pops, Instr.pushes]

/-- A block leaves the static stack as it was. -/
theorem Drops.names_of_bound {fs : List Form} {s s' : Assembly} {names : List (Option String)}
    (h : Drops (Block.locals fs) s s') (hs : s.slots.names = (boundNames fs).map some ++ names) :
    s'.slots.names = names := by
  have hlength : ((boundNames fs).map some).length = Block.locals fs := by
    rw [List.length_map, boundNames_length]
  rw [h.names, hs, ← hlength, List.drop_left]

/-- The static stack after code depends on the static stack before it only. -/
theorem Code.names {functions : SignatureTable} {p : Piece} {s s' : Assembly}
    (h : Code functions p s s') (htidy : ∀ g ∈ p.parts, g.isTidy = true) :
    s'.slots.names = p.after s.slots.names := by
  induction h with
  | constant hf hload =>
      rename_i f c s s'
      obtain ⟨n, -, happ⟩ := hload
      simp [Piece.after, slotName_of_constant? hf, happ.names, Instr.pops, Instr.pushes]
  | slot _ hread hname =>
      obtain ⟨slots, old, rest, rfl, hold, hnew, -⟩ := hname
      rw [hread.names] at hold
      simp only [Instr.pops, Instr.pushes, List.drop_zero, List.replicate_one,
        List.singleton_append, List.cons.injEq] at hold
      rw [hold.2]
      exact hnew
  | dynamic _ hread hname =>
      obtain ⟨slots, old, rest, rfl, hold, hnew, -⟩ := hname
      obtain ⟨n, -, happ⟩ := hread
      rw [happ.names] at hold
      simp only [Instr.pops, Instr.pushes, List.drop_zero, List.replicate_one,
        List.singleton_append, List.cons.injEq] at hold
      rw [hold.2]
      exact hnew
  | resultRef _ hread =>
      obtain ⟨n, -, happ⟩ := hread
      simp [Piece.after, Form.slotName, happ.names, Instr.pops, Instr.pushes]
  | application hf hload _ hn hcall ih =>
      rename_i f name args n s t u s' _
      obtain ⟨k, -, happ⟩ := hload
      have hargs := ih fun g hg => htidy g ((mem_parts_of_application? hf).2 (.inr hg))
      rw [hcall.names, hargs, happ.names]
      simp [Piece.after, slotName_of_application? hf, Instr.pops, Instr.pushes, hn,
        List.drop_append]
  | sparseArray _ _ ihctor ihstores =>
      simp only [Piece.parts, Form.parts, List.forall_mem_cons, List.forall_mem_append] at htidy
      rw [ihstores htidy.2.2, Piece.after, ihctor htidy.2.1]
      rfl
  | get _ _ hget ihsource ihindex =>
      simp only [Piece.parts, Form.parts, List.forall_mem_cons, List.forall_mem_append] at htidy
      rw [hget.names, ihindex htidy.2.2, ihsource htidy.2.1]
      rfl
  | concat _ _ hn hconcat ih =>
      simp only [Piece.parts, Form.parts, List.forall_mem_cons] at htidy
      rw [hconcat.names, ih htidy.2]
      simp [Piece.after, Form.slotName, Instr.pops, Instr.pushes, hn]
  | fold _ hrest _ _ ihfirst ihchain =>
      rename_i rest s t s' _ _ _
      simp only [Piece.parts, Form.parts, listParts, List.forall_mem_cons,
        List.forall_mem_append] at htidy
      rw [ihchain htidy.2.2, ihfirst htidy.2.1]
      cases rest with
      | nil => exact absurd rfl hrest
      | cons _ _ => rfl
  | foldNot _ hrest _ _ hnot ihfirst ihchain =>
      rename_i rest s t u s' _ _ _
      simp only [Piece.parts, Form.parts, listParts, List.forall_mem_cons,
        List.forall_mem_append] at htidy
      rw [hnot.names, ihchain htidy.2.2, ihfirst htidy.2.1]
      cases rest with
      | nil => exact absurd rfl hrest
      | cons _ _ => rfl
  | unary hf _ hinstr ih =>
      rename_i f arg i s t s' _
      have harg := ih fun g hg => htidy g ((mem_parts_of_unary? hf).2 (.inr hg))
      rw [hinstr.names, harg, Piece.after, Piece.after, slotName_of_unary? hf]
      rfl
  | shortcut hf hlabel _ hjump _ hplace hname ihleft ihright =>
      rename_i f left right kind l s a b c d e s' _ _
      have hleft := ihleft fun g hg => htidy g ((mem_parts_of_shortcut? hf).2 (.inr (.inl hg)))
      have hright := ihright fun g hg => htidy g ((mem_parts_of_shortcut? hf).2 (.inr (.inr hg)))
      have hpops : (Instr.jump kind l).pops = 1 := by cases f <;> cases hf <;> rfl
      obtain ⟨slots, old, rest, rfl, hold, hnew, -⟩ := hname
      -- the slot has the name of the second operand until it is taken away again
      rw [hplace.slots, hright, hjump.names, hleft, hlabel.slots, hpops] at hold
      simp only [Piece.after, Instr.pushes, List.replicate_zero, List.nil_append, List.drop_one,
        List.tail_cons, List.cons.injEq] at hold
      rw [Piece.after, slotName_of_shortcut? hf, hold.2]
      exact hnew
  | noValues | noChain | noStores | noResults | noForms | noPost => rfl
  | valuesCons _ _ ihf ihfs =>
      simp only [Piece.parts, listParts, List.forall_mem_append] at htidy
      rw [ihfs htidy.2, ihf htidy.1]
      simp [Piece.after]
  | chainCons _ hinstr _ ihf ihfs =>
      rename_i fs s t u s' _ _
      simp only [Piece.parts, listParts, List.forall_mem_append] at htidy
      rw [ihfs htidy.2, hinstr.names, ihf htidy.1]
      cases fs with
      | nil => simp [Piece.after, Instr.pops, Instr.pushes]
      | cons _ _ => simp [Piece.after, Instr.pops, Instr.pushes]
  | storesCons hcopy hindex _ hset _ ihf ihrest =>
      simp only [Piece.parts, storeParts, List.forall_mem_append] at htidy
      obtain ⟨n, -, happ⟩ := hindex
      rw [ihrest htidy.2, hset.names, ihf htidy.1, happ.names, hcopy.names]
      rfl
  | resultsCons _ hset _ ihf ihfs =>
      simp only [Piece.parts, listParts, List.forall_mem_append] at htidy
      obtain ⟨n, -, happ⟩ := hset
      rw [ihfs htidy.2, happ.names, ihf htidy.1]
      rfl
  | block _ hdrop ih =>
      simp only [Piece.parts, Form.parts, List.forall_mem_cons] at htidy
      exact hdrop.names_of_bound (ih htidy.2)
  | branch hlabel _ hjump _ hdrop hplace ihcond ihbody =>
      simp only [Piece.parts, Form.parts, List.forall_mem_cons, List.forall_mem_append] at htidy
      rw [hplace.slots, hdrop.names_of_bound (ihbody htidy.2.2.1), hjump.names,
        ihcond htidy.2.1, hlabel.slots]
      rfl
  | branchElse _ hlabel _ hjump _ hdrop hplace _ ihcond ihbody ihother =>
      rename_i cond other body l s a b c d e f s' _ _ _ _
      simp only [Piece.parts, Form.parts, optionParts, List.forall_mem_cons,
        List.forall_mem_append] at htidy
      have hbind : other.isBind = false := by simpa [Form.isTidy] using htidy.1
      rw [ihother htidy.2.2.2, hplace.slots, hdrop.names_of_bound (ihbody htidy.2.2.1),
        hjump.names, ihcond htidy.2.1, hlabel.slots, Piece.after_form hbind]
      rfl
  | branchJoin hlabel _ hjump _ hdrop hdone hskip hplace _ hjoin ihcond ihbody ihother =>
      rename_i cond other body l m s a b c d e f g h k s' _ _ _
      simp only [Piece.parts, Form.parts, optionParts, List.forall_mem_cons,
        List.forall_mem_append] at htidy
      have hbind : other.isBind = false := by simpa [Form.isTidy] using htidy.1
      rw [hjoin.slots, ihother htidy.2.2.2, hplace.slots, hskip.names, hdone.slots,
        hdrop.names_of_bound (ihbody htidy.2.2.1), hjump.names, ihcond htidy.2.1, hlabel.slots,
        Piece.after_form hbind]
      rfl
  | loop htest hstart hjump hplace _ hdrop _ hplaceTest _ hagain hclose ihbody ihpost ihcond =>
      rename_i post l m s a b c d e f g h k n s' _ _ _
      simp only [Piece.parts, Form.parts, List.forall_mem_cons, List.forall_mem_append] at htidy
      -- a tidy body binds nothing after the condition of a loop
      have hpost : g.slots.names = f.slots.names := by
        rw [ihpost htidy.2.2.2]
        cases post with
        | none => rfl
        | some after =>
            have hbind : after.isBind = false := by simpa [Form.isTidy] using htidy.1
            exact Piece.after_form hbind _
      rw [hclose.slots, hagain.names, ihcond htidy.2.1, hplaceTest.slots, hpost,
        hdrop.names_of_bound (ihbody htidy.2.2.1), hplace.slots, hjump.names, hstart.slots,
        htest.slots]
      rfl
  | post _ _ ih => exact ih htidy
  | postAt _ hplace _ ih =>
      rw [ih htidy, hplace.slots]
      rfl
  | retNil hload hret =>
      obtain ⟨n, -, happ⟩ := hload
      rw [hret.names, happ.names]
      rfl
  | ret _ _ hret ihfirst ihrest =>
      simp only [Piece.parts, Form.parts, listParts, List.forall_mem_cons,
        List.forall_mem_append] at htidy
      rw [hret.names, ihrest htidy.2.2, Piece.after, ihfirst htidy.2.1]
      rfl
  | jump hf _ hfind hleave =>
      rename_i f j c rest l s t s' _
      have hbind : f.isBind = false := by cases f <;> simp_all [Form.loopJump?, Form.isBind]
      rw [hleave.names, hfind.slots, Piece.after_form hbind]
  | bind _ hname ih =>
      simp only [Piece.parts, Form.parts, List.forall_mem_cons] at htidy
      obtain ⟨slots, old, rest, rfl, hold, hnew, -⟩ := hname
      rw [ih htidy.2, Piece.after, List.cons.injEq] at hold
      rw [hold.2]
      exact hnew
  | rebindSlot _ _ hset ih =>
      simp only [Piece.parts, Form.parts, List.forall_mem_cons] at htidy
      rw [hset.names, ih htidy.2]
      rfl
  | rebindDynamic _ _ hset ih =>
      simp only [Piece.parts, Form.parts, List.forall_mem_cons] at htidy
      obtain ⟨n, -, happ⟩ := hset
      rw [happ.names, ih htidy.2]
      rfl
  | set _ _ _ hset ihtarget ihindex ihvalue =>
      simp only [Piece.parts, Form.parts, List.forall_mem_cons, List.forall_mem_append] at htidy
      rw [hset.names, ihvalue htidy.2.2.2, ihindex htidy.2.2.1, ihtarget htidy.2.1]
      rfl
  | never _ _ hload _ hn hcall hforget ih =>
      simp only [Piece.parts, Form.parts, List.forall_mem_cons] at htidy
      obtain ⟨k, -, happ⟩ := hload
      obtain ⟨slots, rfl, -, hnames, -⟩ := hforget
      rw [show (_ : Assembly).slots.names = _ from hnames, hcall.names, ih htidy.2, happ.names]
      simp [Piece.after, Form.bound, Instr.pops, Instr.pushes, hn, List.drop_append]
  | effect hf hdrop ih =>
      rename_i f s t s'
      rw [hdrop.names, ih htidy, Piece.after_form (isBind_of_isStatement hf.isStatement)]
      rfl
  | formsCons _ _ ihf ihfs =>
      simp only [Piece.parts, listParts, List.forall_mem_append] at htidy
      rw [ihfs htidy.2, ihf htidy.1]
      simp [Piece.after, boundNames]

def Piece.isOperand : Piece → Bool
  | .value _ | .values _ | .chain _ _ | .stores _ | .results _ _ => true
  | .form _ | .forms _ | .post _ => false

/-- Forms that are emitted for their values have values all the way down. -/
theorem Code.parts_isStatement {functions : SignatureTable} {p : Piece} {s s' : Assembly}
    (h : Code functions p s s') (hp : p.isOperand = true) :
    ∀ g ∈ p.parts, g.isStatement = false := by
  induction h with
  | constant hf _ =>
      intro g hg
      rw [(mem_parts_of_constant? hf).1 hg]
      exact isStatement_of_constant? hf
  | slot | dynamic | resultRef => simp [Piece.parts, Form.parts, Form.isStatement]
  | application hf _ _ _ _ ih =>
      intro g hg
      obtain rfl | hg := (mem_parts_of_application? hf).1 hg
      · exact isStatement_of_application? hf
      · exact ih rfl g hg
  | sparseArray _ _ ihctor ihstores =>
      simp only [Piece.parts, Form.parts, List.forall_mem_cons, List.forall_mem_append]
      exact ⟨rfl, ihctor rfl, ihstores rfl⟩
  | get _ _ _ ihsource ihindex =>
      simp only [Piece.parts, Form.parts, List.forall_mem_cons, List.forall_mem_append]
      exact ⟨rfl, ihsource rfl, ihindex rfl⟩
  | concat _ _ _ _ ih =>
      simp only [Piece.parts, Form.parts, List.forall_mem_cons]
      exact ⟨rfl, ih rfl⟩
  | fold _ _ _ _ ihfirst ihrest | foldNot _ _ _ _ _ ihfirst ihrest =>
      simp only [Piece.parts, Form.parts, listParts, List.forall_mem_cons, List.forall_mem_append]
      exact ⟨rfl, ihfirst rfl, ihrest rfl⟩
  | unary hf _ _ ih =>
      intro g hg
      obtain rfl | hg := (mem_parts_of_unary? hf).1 hg
      · exact isStatement_of_unary? hf
      · exact ih rfl g hg
  | shortcut hf _ _ _ _ _ _ ihleft ihright =>
      intro g hg
      obtain rfl | hg | hg := (mem_parts_of_shortcut? hf).1 hg
      · exact isStatement_of_shortcut? hf
      · exact ihleft rfl g hg
      · exact ihright rfl g hg
  | noValues | noChain | noStores | noResults => simp [Piece.parts, listParts, storeParts]
  | valuesCons _ _ ihf ihfs | chainCons _ _ _ ihf ihfs | resultsCons _ _ _ ihf ihfs =>
      simp only [Piece.parts, listParts, List.forall_mem_append]
      exact ⟨ihf rfl, ihfs rfl⟩
  | storesCons _ _ _ _ _ ihf ihrest =>
      simp only [Piece.parts, storeParts, List.forall_mem_append]
      exact ⟨ihf rfl, ihrest rfl⟩
  | _ => cases hp

/-- The slots that values add do not depend on what else is in the function. -/
theorem Code.names_of_isOperand {functions : SignatureTable} {p : Piece} {s s' : Assembly}
    (h : Code functions p s s') (hp : p.isOperand = true) :
    s'.slots.names = p.after s.slots.names := by
  refine h.names fun g hg => ?_
  have hvalue := h.parts_isStatement hp g hg
  cases g with
  | branch _ _ _ | loop _ _ _ => cases hvalue
  | _ => rfl

section Control

variable {functions : SignatureTable} {cond : Form} {body : Block} {post : Option Form}
  {kind : JumpKind} {l m : Label} {loops : LoopStack} {s a b c d e f g : Assembly}

/-- A jump that takes the tested value leaves the static stack as it was before the test. -/
theorem Appends.names_of_jump (hjump : Appends (.jump kind l) b c)
    (hcond : Code functions (.value cond) a b) (hpops : (Instr.jump kind l).pops = 1) :
    c.slots.names = a.slots.names := by
  rw [hjump.names, hcond.names_of_isOperand rfl, hpops]
  rfl

/-- A branch up to the end of its body leaves the static stack as it was. -/
theorem names_of_branch (hlabel : Creates l s a) (hcond : Code functions (.value cond) a b)
    (hjump : Appends (.jump .ifNil l) b c) (hbody : Code functions (.forms body) c d)
    (hdrop : Drops body.locals d e) (htidy : ∀ g ∈ listParts body, g.isTidy = true) :
    e.slots.names = s.slots.names := by
  rw [hdrop.names_of_bound (hbody.names htidy), hjump.names_of_jump hcond rfl, hlabel.slots]

/-- Where the body of a loop starts and where it ends, and before the test, the static stack is as
it was before the loop. -/
theorem names_of_loop (htest : Creates l s a) (hstart : Creates m a b)
    (hjump : Appends (.jump .always l) b c) (hplace : Places m c d)
    (hbody : Code functions (.forms body) { d with loops } e) (hdrop : Drops body.locals e f)
    (hpost : Code functions (.post post) f g)
    (htidy : ∀ g ∈ (Form.loop cond body post).parts, g.isTidy = true) :
    d.slots.names = s.slots.names ∧ f.slots.names = s.slots.names ∧
      g.slots.names = s.slots.names := by
  simp only [Form.parts, List.forall_mem_cons, List.forall_mem_append] at htidy
  have hd : d.slots.names = s.slots.names := by
    rw [hplace.slots, hjump.names, hstart.slots, htest.slots]
    rfl
  have hf : f.slots.names = s.slots.names := by
    rw [hdrop.names_of_bound (hbody.names htidy.2.2.1), hd]
  refine ⟨hd, hf, ?_⟩
  rw [hpost.names htidy.2.2.2, ← hf]
  cases post with
  | none => rfl
  | some after =>
      have hbind : after.isBind = false := by simpa [Form.isTidy] using htidy.1
      exact Piece.after_form hbind _

end Control

theorem Assembly.ofParams_names (params : List String) :
    (ofParams params).slots.names = params.reverse.map some := by
  have hfold : ∀ (slots : Slots) (params : List String),
      (params.foldl Slots.pushNamed slots).names = params.reverse.map some ++ slots.names := by
    intro slots params
    induction params generalizing slots with
    | nil => rfl
    | cons name params ih => simp [ih, Slots.pushNamed]
  simp [ofParams, hfold, Slots.empty]

end Names

/-! ### Loops -/

def Assembly.KeepsLoop (s s' : Assembly) : Prop :=
  ∀ c rest, s.loops.loops = c :: rest → ∃ c', s'.loops.loops = c' :: rest ∧ c'.depth = c.depth ∧
    ∀ (j : LoopJump) (l : Label), j.label? c = some l → j.label? c' = some l

namespace Assembly.KeepsLoop

theorem of_eq {s s' : Assembly} (h : s'.loops = s.loops) : s.KeepsLoop s' :=
  fun c rest hloops => ⟨c, by rw [h, hloops], rfl, fun _ _ hl => hl⟩

theorem trans {s t u : Assembly} (h₁ : s.KeepsLoop t) (h₂ : t.KeepsLoop u) : s.KeepsLoop u := by
  intro c rest hloops
  obtain ⟨c', hloops', hdepth', hlabels'⟩ := h₁ c rest hloops
  obtain ⟨c'', hloops'', hdepth'', hlabels''⟩ := h₂ c' rest hloops'
  exact ⟨c'', hloops'', hdepth''.trans hdepth', fun j l hl => hlabels'' j l (hlabels' j l hl)⟩

/-- A label that is new to the loop takes the place of none. -/
theorem of_finds {j : LoopJump} {c : LoopContext} {rest : List LoopContext} {l : Label}
    {s s' : Assembly} (hloops : s.loops.loops = c :: rest) (h : Finds j c rest l s s') :
    s.KeepsLoop s' := by
  obtain ⟨-, rfl⟩ | ⟨hnone, -, rfl⟩ := h
  · exact of_eq rfl
  · intro c₀ rest₀ hloops₀
    rw [hloops] at hloops₀
    cases hloops₀
    refine ⟨_, rfl, ?_, fun k m hm => ?_⟩
    · cases j <;> rfl
    · cases j <;> cases k <;> simp_all [LoopJump.label?, LoopJump.setLabel]

theorem stable : Stable Assembly.KeepsLoop where
  refl _ := of_eq rfl
  trans := trans
  appends h := of_eq h.loops
  discard _ _ := of_eq rfl
  addConstant _ _ _ := of_eq rfl
  forgets h := by
    obtain ⟨slots, rfl, -⟩ := h
    exact of_eq rfl
  relabels h := by
    obtain ⟨slots, old, rest, rfl, -⟩ := h
    exact of_eq rfl
  creates h := by
    obtain ⟨name, -, rfl⟩ := h
    exact of_eq rfl
  places h := by
    obtain ⟨labels, rfl, -⟩ := h
    exact of_eq rfl
  finds := of_finds
  loop h hclose := by
    -- the loop that was opened is the one that is closed
    obtain ⟨c, hloops, -, -⟩ := h _ _ rfl
    obtain ⟨c', rest, hloops', ⟨-, rfl⟩ | ⟨l, -, labels, rfl, -⟩⟩ := hclose
    all_goals
      rw [hloops] at hloops'
      cases hloops'
      exact of_eq rfl

end Assembly.KeepsLoop

theorem Code.keepsLoop {functions : SignatureTable} {p : Piece} {s s' : Assembly}
    (h : Code functions p s s') : s.KeepsLoop s' :=
  Assembly.KeepsLoop.stable.code h fun _ _ _ => .of_eq rfl

end StackCompiler
