import StackCompiler.Proofs.Layout
import StackCompiler.Proofs.Parts

/-!
Which constants code refers to, and in what order. An instruction can load a constant, or read or
write the dynamic variable that a symbol names. The constants that are loaded can be read off the
forms, in the order of the code, by `Form.loads`; whether a variable is read as a dynamic one also
depends on the slots.

`Logs.code` is the induction over code for relations between assemblies that keep a log of these
references.
-/

namespace StackCompiler

def Instr.poolIndex? : Instr → Option UInt16
  | .constRef n | .varRef n | .varSet n => some n
  | _ => none

/-- A reference to a constant, before the constant has an index. -/
inductive Reference where
  | load (c : Constant)
  | read (name : String)
  | write (name : String)

namespace Reference

def constant : Reference → Constant
  | load c => c
  | read name | write name => .symbol name

def instr : Reference → UInt16 → Instr
  | load _ => .constRef
  | read _ => .varRef
  | write _ => .varSet

/-- The constant that is loaded, unless the reference is to a variable. -/
def load? : Reference → Option Constant
  | load c => some c
  | read _ | write _ => none

@[simp] theorem poolIndex?_instr (u : Reference) (n : UInt16) :
    (u.instr n).poolIndex? = some n := by
  cases u <;> rfl

end Reference

/-! ### Constants that are loaded -/

def OpPlan.loads : Option OpPlan → List Constant
  | some (.host name) => [.symbol name]
  | _ => []

def UnaryKind.loads : UnaryKind → List Constant
  | .bitNot => [.symbol Host.bitNot]
  | .neg => []

mutual
/-- The constants that the code of a form loads, in the order of the code. -/
def Form.loads : Form → List Constant
  | .array elems => .symbol Host.vector :: listLoads elems
  | .sparseArray ctor stores => ctor.loads ++ storeLoads stores
  | .block body => listLoads body
  | .branch cond body els => cond.loads ++ (listLoads body ++ optionLoads els)
  | .loop cond body post => listLoads body ++ (optionLoads post ++ cond.loads)
  | .ret [] => [.symbol Host.nil]
  | .ret results => listLoads results
  | .bind _ init => init.loads
  | .rebind _ value => value.loads
  | .op kind family args => OpPlan.loads (kind.plan? family) ++ listLoads args
  | .unary kind _ arg => kind.loads ++ arg.loads
  | .not arg => arg.loads
  | .and left right => left.loads ++ right.loads
  | .or left right => left.loads ++ right.loads
  | .call name args => .symbol name :: listLoads args
  | .dynCall callee args => .symbol Host.funcall :: (callee.loads ++ listLoads args)
  | .copy source => .symbol Host.copySequence :: source.loads
  | .get source index => source.loads ++ index.loads
  | .set target index value => target.loads ++ (index.loads ++ value.loads)
  | f => f.constant?.toList

def listLoads : List Form → List Constant
  | [] => []
  | f :: fs => f.loads ++ listLoads fs

/-- The constants that the code of stores loads: every index stands before its value. -/
def storeLoads : List (Int64 × Form) → List Constant
  | [] => []
  | (index, f) :: rest => .int index :: (f.loads ++ storeLoads rest)

def optionLoads : Option Form → List Constant
  | none => []
  | some f => f.loads
end

def Piece.loads : Piece → List Constant
  | .value f | .form f => f.loads
  | .values fs | .chain _ fs | .results _ fs | .forms fs => listLoads fs
  | .stores elems => storeLoads elems
  | .post after => optionLoads after

section

variable {f arg left right : Form}

theorem loads_of_constant? {c : Constant} (h : f.constant? = some c) : f.loads = [c] := by
  cases f with
  | bool _ | char _ | int _ | float _ | str _ | symbol _ =>
      cases h
      rfl
  | _ => cases h

theorem loads_of_application? {name : String} {args : List Form}
    (h : f.application? = some (name, args)) : f.loads = .symbol name :: listLoads args := by
  cases f with
  | op kind family args' =>
      simp only [Form.application?] at h
      split at h
      · rename_i hplan
        cases h
        simp [Form.loads, OpPlan.loads, hplan]
      · cases h
  | unary kind family arg =>
      cases kind <;> cases family <;> cases h
      simp [Form.loads, UnaryKind.loads, listLoads]
  | array _ | copy _ | call _ _ | dynCall _ _ =>
      cases h
      simp [Form.loads, listLoads]
  | _ => cases h

theorem loads_of_unary? {i : UnaryInstr} (h : f.unary? = some (i, arg)) :
    f.loads = arg.loads := by
  cases f with
  | unary kind family arg' =>
      cases kind <;> cases family <;> cases h <;> simp [Form.loads, UnaryKind.loads]
  | not _ =>
      cases h
      simp [Form.loads]
  | _ => cases h

theorem loads_of_shortcut? {kind : JumpKind} (h : f.shortcut? = some (kind, left, right)) :
    f.loads = left.loads ++ right.loads := by
  cases f with
  | and _ _ | or _ _ =>
      cases h
      simp [Form.loads]
  | _ => cases h

theorem loads_of_loopJump? {j : LoopJump} (h : f.loopJump? = some j) : f.loads = [] := by
  cases f with
  | breakLoop | continueLoop => rfl
  | _ => cases h

end

/-! ### Floating point literals -/

def Constant.float? : Constant → Option Binary64
  | .float x => some x
  | _ => none

def Form.float? : Form → Option Binary64
  | .float x => some x
  | _ => none

theorem OpPlan.floats_loads (plan : Option OpPlan) :
    (OpPlan.loads plan).filterMap Constant.float? = [] := by
  unfold OpPlan.loads
  split <;> rfl

theorem UnaryKind.floats_loads (kind : UnaryKind) : kind.loads.filterMap Constant.float? = [] := by
  cases kind <;> rfl

mutual
/-- The floating point numbers that code loads are the literals in its forms, in another order. -/
theorem floats_perm (f : Form) :
    (f.loads.filterMap Constant.float?).Perm (f.parts.filterMap Form.float?) := by
  cases f with
  | bool _ | char _ | int _ | float _ | str _ | symbol _ | var _ | breakLoop | continueLoop
  | resultRef _ => exact .refl _
  | array elems | block elems | call _ elems =>
      simpa [List.filterMap_cons, Form.loads, Form.parts, Form.float?, Constant.float?] using
        floats_perm_list elems
  | sparseArray ctor stores =>
      simpa [List.filterMap_cons, Form.loads, Form.parts, Form.float?] using
        (floats_perm ctor).append (floats_perm_stores stores)
  | branch cond body els =>
      simpa [List.filterMap_cons, Form.loads, Form.parts, Form.float?] using
        (floats_perm cond).append ((floats_perm_list body).append (floats_perm_option els))
  | loop cond body post =>
      -- the test stands behind the body in the code
      have hinside := (floats_perm_list body).append (floats_perm_option post)
      simpa [List.filterMap_cons, Form.loads, Form.parts, Form.float?] using
        (hinside.append (floats_perm cond)).trans List.perm_append_comm
  | ret results =>
      cases results with
      | nil => exact .refl _
      | cons first rest =>
          simpa [List.filterMap_cons, Form.loads, Form.parts, Form.float?, Constant.float?] using
            floats_perm_list (first :: rest)
  | op kind family args =>
      simpa [List.filterMap_cons, Form.loads, Form.parts, Form.float?, OpPlan.floats_loads] using
        floats_perm_list args
  | unary kind family arg =>
      simpa [List.filterMap_cons, Form.loads, Form.parts, Form.float?, UnaryKind.floats_loads] using
        floats_perm arg
  | bind _ arg | rebind _ arg | not arg | copy arg =>
      simpa [List.filterMap_cons, Form.loads, Form.parts, Form.float?, Constant.float?] using
        floats_perm arg
  | and left right | or left right | get left right =>
      simpa [List.filterMap_cons, Form.loads, Form.parts, Form.float?] using
        (floats_perm left).append (floats_perm right)
  | dynCall callee args =>
      simpa [List.filterMap_cons, Form.loads, Form.parts, Form.float?, Constant.float?] using
        (floats_perm callee).append (floats_perm_list args)
  | set target index value =>
      simpa [List.filterMap_cons, Form.loads, Form.parts, Form.float?] using
        (floats_perm target).append ((floats_perm index).append (floats_perm value))
termination_by structural f

theorem floats_perm_list (fs : List Form) :
    ((listLoads fs).filterMap Constant.float?).Perm ((listParts fs).filterMap Form.float?) := by
  cases fs with
  | nil => exact .refl _
  | cons f fs =>
      simpa [List.filterMap_cons, listLoads, listParts] using
        (floats_perm f).append (floats_perm_list fs)
termination_by structural fs

theorem floats_perm_stores (stores : List (Int64 × Form)) :
    ((storeLoads stores).filterMap Constant.float?).Perm
      ((storeParts stores).filterMap Form.float?) := by
  match stores with
  | [] => exact .refl _
  | (index, f) :: rest =>
      simpa [List.filterMap_cons, storeLoads, storeParts, Constant.float?] using
        (floats_perm f).append (floats_perm_stores rest)
termination_by structural stores

theorem floats_perm_option (f : Option Form) :
    ((optionLoads f).filterMap Constant.float?).Perm ((optionParts f).filterMap Form.float?) := by
  cases f with
  | none => exact .refl _
  | some f => exact floats_perm f
termination_by structural f
end

/-! ### Relations with a log -/

/-- A relation between assemblies that holds along every step, with a log of the references to
constants in between. -/
structure Logs (ρ : List Reference → Assembly → Assembly → Prop) : Prop where
  refl : ∀ s, ρ [] s s
  trans : ∀ {us vs s t u}, ρ us s t → ρ vs t u → ρ (us ++ vs) s u
  appends : ∀ {i s s'}, i.poolIndex? = none → Appends i s s' → ρ [] s s'
  discard : ∀ s n, ρ [] s { s with code := s.code.push (.discard n) }
  indexed : ∀ u {s s'}, AppendsIndexed u.instr u.constant s s' → ρ [u] s s'
  forgets : ∀ {n s s'}, Forgets n s s' → ρ [] s s'
  relabels : ∀ {name s s'}, Relabels name s s' → ρ [] s s'
  creates : ∀ {l s s'}, Creates l s s' → ρ [] s s'
  places : ∀ {l s s'}, Places l s s' → ρ [] s s'
  finds : ∀ {j c rest l s s'}, s.loops.loops = c :: rest → Finds j c rest l s s' → ρ [] s s'
  loop : ∀ {us depth l s t s'}, ρ us { s with loops := s.loops.enter depth l } t → Closes t s' →
    ρ us s s'

def Loads (ρ : List Reference → Assembly → Assembly → Prop) (cs : List Constant)
    (s s' : Assembly) : Prop :=
  ∃ us : List Reference, ρ us s s' ∧ us.filterMap Reference.load? = cs

namespace Logs

variable {ρ : List Reference → Assembly → Assembly → Prop} (hρ : Logs ρ)
include hρ

theorem loads_trans {cs ds : List Constant} {s t u : Assembly} (h₁ : Loads ρ cs s t)
    (h₂ : Loads ρ ds t u) : Loads ρ (cs ++ ds) s u := by
  obtain ⟨us, hus, rfl⟩ := h₁
  obtain ⟨vs, hvs, rfl⟩ := h₂
  exact ⟨us ++ vs, hρ.trans hus hvs, List.filterMap_append⟩

/-- A step that refers to no constant before other code. -/
theorem loads_after {cs : List Constant} {s t u : Assembly} (h₁ : ρ [] s t)
    (h₂ : Loads ρ cs t u) : Loads ρ cs s u :=
  hρ.loads_trans ⟨[], h₁, rfl⟩ h₂

/-- A step that refers to no constant after other code. -/
theorem loads_before {cs : List Constant} {s t u : Assembly} (h₁ : Loads ρ cs s t)
    (h₂ : ρ [] t u) : Loads ρ cs s u := by
  have h := hρ.loads_trans h₁ ⟨[], h₂, rfl⟩
  rwa [List.filterMap_nil, List.append_nil] at h

theorem load {c : Constant} {s s' : Assembly} (h : AppendsIndexed .constRef c s s') :
    Loads ρ [c] s s' :=
  ⟨[.load c], hρ.indexed (.load c) h, rfl⟩

theorem read {name : String} {s s' : Assembly} (h : AppendsIndexed .varRef (.symbol name) s s') :
    Loads ρ [] s s' :=
  ⟨[.read name], hρ.indexed (.read name) h, rfl⟩

theorem write {name : String} {s s' : Assembly} (h : AppendsIndexed .varSet (.symbol name) s s') :
    Loads ρ [] s s' :=
  ⟨[.write name], hρ.indexed (.write name) h, rfl⟩

theorem drops {n : Nat} {s s' : Assembly} (h : Drops n s s') : ρ [] s s' := by
  obtain ⟨-, rfl⟩ | ⟨m, -, happ⟩ := h
  · exact hρ.refl _
  · exact hρ.appends rfl happ

theorem leaves {depth : Nat} {l : Label} {s s' : Assembly} (h : Leaves depth l s s') :
    ρ [] s s' := by
  obtain ⟨-, happ⟩ | ⟨n, -, -, happ⟩ := h
  · exact hρ.appends rfl happ
  · exact hρ.trans (hρ.discard s n) (hρ.appends rfl happ)

/-- Code keeps a log of its references, and it loads the constants of its forms in order. -/
theorem code {functions : SignatureTable} {p : Piece} {s s' : Assembly}
    (h : Code functions p s s') : Loads ρ p.loads s s' := by
  induction h with
  | constant hf hload =>
      rw [Piece.loads, loads_of_constant? hf]
      exact hρ.load hload
  | slot _ hread hname =>
      exact ⟨[], hρ.trans (hρ.appends rfl hread) (hρ.relabels hname), rfl⟩
  | dynamic _ hread hname => exact hρ.loads_before (hρ.read hread) (hρ.relabels hname)
  | resultRef _ hread => exact hρ.read hread
  | application hf hload _ _ hcall ih =>
      rw [Piece.loads, loads_of_application? hf]
      exact hρ.loads_before (hρ.loads_trans (hρ.load hload) ih) (hρ.appends rfl hcall)
  | sparseArray _ _ ihctor ihstores => exact hρ.loads_trans ihctor ihstores
  | get _ _ hget ihsource ihindex =>
      exact hρ.loads_before (hρ.loads_trans ihsource ihindex) (hρ.appends rfl hget)
  | concat hplan _ _ hconcat ih =>
      rw [Piece.loads, Form.loads, hplan]
      exact hρ.loads_before ih (hρ.appends rfl hconcat)
  | fold hplan _ _ _ ihfirst ihrest =>
      have hargs := hρ.loads_trans ihfirst ihrest
      rw [Piece.loads, Form.loads, hplan]
      exact hargs
  | foldNot hplan _ _ _ hnot ihfirst ihrest =>
      have hargs := hρ.loads_trans ihfirst ihrest
      rw [Piece.loads, Form.loads, hplan]
      exact hρ.loads_before hargs (hρ.appends rfl hnot)
  | unary hf _ hinstr ih =>
      rw [Piece.loads, loads_of_unary? hf]
      exact hρ.loads_before ih (hρ.appends rfl hinstr)
  | shortcut hf hlabel _ hjump _ hplace hname ihleft ihright =>
      rw [Piece.loads, loads_of_shortcut? hf]
      have hleft := hρ.loads_before (hρ.loads_after (hρ.creates hlabel) ihleft)
        (hρ.appends rfl hjump)
      have hright := hρ.loads_before ihright (hρ.trans (hρ.places hplace) (hρ.relabels hname))
      exact hρ.loads_trans hleft hright
  | noValues | noChain | noStores | noResults | noForms | noPost => exact ⟨[], hρ.refl _, rfl⟩
  | valuesCons _ _ ihf ihfs | formsCons _ _ ihf ihfs => exact hρ.loads_trans ihf ihfs
  | chainCons _ hinstr _ ihf ihfs =>
      exact hρ.loads_trans (hρ.loads_before ihf (hρ.appends rfl hinstr)) ihfs
  | storesCons hcopy hindex _ hset _ ihf ihrest =>
      have hstore := hρ.loads_before ihf (hρ.appends rfl hset)
      exact hρ.loads_after (hρ.appends rfl hcopy)
        (hρ.loads_trans (hρ.load hindex) (hρ.loads_trans hstore ihrest))
  | resultsCons _ hset _ ihf ihfs =>
      exact hρ.loads_trans ihf (hρ.loads_trans (hρ.write hset) ihfs)
  | block _ hdrop ih => exact hρ.loads_before ih (hρ.drops hdrop)
  | branch hlabel _ hjump _ hdrop hplace ihcond ihbody =>
      have hcond := hρ.loads_before (hρ.loads_after (hρ.creates hlabel) ihcond)
        (hρ.appends rfl hjump)
      have hbody := hρ.loads_before ihbody (hρ.trans (hρ.drops hdrop) (hρ.places hplace))
      rw [Piece.loads, Form.loads, optionLoads, List.append_nil]
      exact hρ.loads_trans hcond hbody
  | branchElse _ hlabel _ hjump _ hdrop hplace _ ihcond ihbody ihother =>
      have hcond := hρ.loads_before (hρ.loads_after (hρ.creates hlabel) ihcond)
        (hρ.appends rfl hjump)
      have hbody := hρ.loads_before ihbody (hρ.trans (hρ.drops hdrop) (hρ.places hplace))
      exact hρ.loads_trans hcond (hρ.loads_trans hbody ihother)
  | branchJoin hlabel _ hjump _ hdrop hdone hskip hplace _ hjoin ihcond ihbody ihother =>
      have hcond := hρ.loads_before (hρ.loads_after (hρ.creates hlabel) ihcond)
        (hρ.appends rfl hjump)
      have hskip := hρ.trans (hρ.creates hdone) (hρ.trans (hρ.appends rfl hskip)
        (hρ.places hplace))
      have hbody := hρ.loads_before ihbody (hρ.trans (hρ.drops hdrop) hskip)
      have hother := hρ.loads_before ihother (hρ.places hjoin)
      exact hρ.loads_trans hcond (hρ.loads_trans hbody hother)
  | loop htest hstart hjump hplace _ hdrop _ hplaceTest _ hagain hclose ihbody ihpost ihcond =>
      have hbody := hρ.loads_before ihbody (hρ.drops hdrop)
      have hcond := hρ.loads_before (hρ.loads_after (hρ.places hplaceTest) ihcond)
        (hρ.appends rfl hagain)
      obtain ⟨us, hus, hloads⟩ := hρ.loads_trans hbody (hρ.loads_trans ihpost hcond)
      have hstart := hρ.trans (hρ.creates htest) (hρ.trans (hρ.creates hstart)
        (hρ.trans (hρ.appends rfl hjump) (hρ.places hplace)))
      exact hρ.loads_after hstart ⟨us, hρ.loop hus hclose, hloads⟩
  | post _ _ ih => exact ih
  | postAt _ hplace _ ih => exact hρ.loads_after (hρ.places hplace) ih
  | retNil hload hret => exact hρ.loads_before (hρ.load hload) (hρ.appends rfl hret)
  | ret _ _ hret ihfirst ihrest =>
      exact hρ.loads_before (hρ.loads_trans ihfirst ihrest) (hρ.appends rfl hret)
  | jump hf hloops hfind hleave =>
      rw [Piece.loads, loads_of_loopJump? hf]
      exact ⟨[], hρ.trans (hρ.finds hloops hfind) (hρ.leaves hleave), rfl⟩
  | bind _ hname ih => exact hρ.loads_before ih (hρ.relabels hname)
  | rebindSlot _ _ hset ih => exact hρ.loads_before ih (hρ.appends rfl hset)
  | rebindDynamic _ _ hset ih =>
      have h := hρ.loads_trans ih (hρ.write hset)
      rwa [List.append_nil] at h
  | set _ _ _ hset ihtarget ihindex ihvalue =>
      exact hρ.loads_trans ihtarget
        (hρ.loads_trans ihindex (hρ.loads_before ihvalue (hρ.appends rfl hset)))
  | never _ _ hload _ _ hcall hforget ih =>
      exact hρ.loads_before (hρ.loads_trans (hρ.load hload) ih)
        (hρ.trans (hρ.appends rfl hcall) (hρ.forgets hforget))
  | effect _ hdrop ih => exact hρ.loads_before ih (hρ.drops hdrop)

end Logs

end StackCompiler
