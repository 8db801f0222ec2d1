import StackCompiler.Proofs.NewArrays

/-!
Who owns an array. An array that has just been made is owned by nobody; a variable of an array kind
owns the array that it holds. In between, an array may wait in a temporary or where a call has left
its results. `Owned` says that typed forms give every array variable an array that nobody owns, and
`owned_ofStmts` that the forms of statements that respect kinds do so.
-/

namespace StackCompiler

open Source

/-! ### Arrays that wait for an owner -/

/-- Where an array may wait that no variable owns yet. -/
inductive Holder where
  | named (name : String)
  | result (index : Nat)
  deriving DecidableEq

namespace Holder

def ofForm? : Form → Option Holder
  | .var name => some (.named name)
  | .resultRef index => some (.result index)
  | _ => none

def isNamed : Holder → Bool
  | named _ => true
  | result _ => false

def results (index : Nat) : List Kind → List Holder
  | [] => []
  | kind :: rest => if kind.isArray then .result index :: results (index + 1) rest
    else results (index + 1) rest

end Holder

section

variable (P : Package)

/-- What still waits after a form has been evaluated: a function of the package may overwrite
results. -/
def Form.keeps (waiting : List Holder) (f : Form) : List Holder :=
  if f.parts.all (Form.isQuiet P) then waiting else waiting.filter Holder.isNamed

/-- The kinds of the results that a call leaves where a function of the package may have been
called: its own, or those that are asked of a function value. -/
def Form.results? (asked : List Kind) : Form → Option (List Kind)
  | .call name _ =>
    match P.find? name with
    | some f => some f.results
    | none => if name = Host.funcall then some asked else none
  | .dynCall _ _ => some asked
  | _ => none

/-- What waits after a form has been evaluated, with the results that a call leaves. -/
def Form.waits (asked : List Kind) (waiting : List Holder) (f : Form) : List Holder :=
  match f.results? P asked with
  | some kinds => waiting.filter Holder.isNamed ++ Holder.results 1 kinds.tail
  | none => f.keeps P waiting

def Form.makes (asked : List Kind) (f : Form) : Bool :=
  startsWithArray asked && f.isNew P

/-- What still waits after a variable has taken the value of a form. -/
def takenBy (name : String) (kind : Kind) (f : Form) (waiting : List Holder) : List Holder :=
  waiting.filter fun h => h ≠ .named name && !(kind.isArray && Holder.ofForm? f = some h)

/-- What waits after a variable has been bound, which may be a temporary. -/
def boundTo (asked : List Kind) (name : String) (kind : Kind) (f : Form) (waiting : List Holder) :
    List Holder :=
  if !kind.isArray && f.makes P asked then
    .named name :: takenBy name kind f (f.waits P asked waiting)
  else takenBy name kind f (f.waits P asked waiting)

/-- Whether the value of a form is an array that nobody owns, or no array. -/
def Form.IsSupplied (asked : List Kind) (waiting : List Holder) (f : Form) : Prop :=
  f.makes P asked = true ∨ ∃ h ∈ waiting, Holder.ofForm? f = some h

end

/-- Typed forms of a function with these results give array variables only arrays that nobody owns,
if that holds of the arrays which wait before them. -/
inductive Owned (P : Package) (results : List Kind) : List Holder → List TypedForm → Prop where
  | nil {waiting : List Holder} : Owned P results waiting []
  | weaken {waiting waiting' : List Holder} {ts : List TypedForm} (h : waiting'.Sublist waiting)
      (hts : Owned P results waiting' ts) : Owned P results waiting ts
  | block {waiting : List Holder} {body ts : List TypedForm} (hbody : Owned P results [] body)
      (hts : Owned P results [] ts) : Owned P results waiting (.block body :: ts)
  | branch {waiting : List Holder} {cond : Form} {body : List TypedForm}
      {els : Option TypedForm} {ts : List TypedForm} (hcond : cond.Every (Form.isTactful P))
      (hbody : Owned P results [] body) (hels : ∀ t, els = some t → Owned P results [] [t])
      (hts : Owned P results [] ts) : Owned P results waiting (.branch cond body els :: ts)
  | loop {waiting : List Holder} {cond : Form} {body : List TypedForm}
      {post : Option TypedForm} {ts : List TypedForm} (hcond : cond.Every (Form.isTactful P))
      (hbody : Owned P results [] body) (hpost : ∀ t, post = some t → Owned P results [] [t])
      (hts : Owned P results [] ts) : Owned P results waiting (.loop cond body post :: ts)
  | bind {waiting : List Holder} {asked : List Kind} {name : String} {kind : Kind} {init : Form}
      {ts : List TypedForm} (hinit : init.Every (Form.isTactful P))
      (hkind : kind.isArray = true → init.IsSupplied P asked (init.waits P asked waiting))
      (hts : Owned P results (boundTo P asked name kind init waiting) ts) :
      Owned P results waiting (.bind asked name kind init :: ts)
  | rebind {waiting : List Holder} {asked : List Kind} {name : String} {kind : Kind}
      {value : Form} {ts : List TypedForm} (hname : isReserved name = false)
      (hvalue : value.Every (Form.isTactful P))
      (hkind : kind.isArray = true → value.IsSupplied P asked (value.waits P asked waiting))
      (hts : Owned P results (takenBy name kind value (value.waits P asked waiting)) ts) :
      Owned P results waiting (.rebind asked name kind value :: ts)
  | set {waiting : List Holder} {asked : List Kind} {target index value : Form}
      {ts : List TypedForm} (htarget : target.Every (Form.isTactful P))
      (hindex : index.Every (Form.isTactful P)) (hvalue : value.Every (Form.isTactful P))
      (hts : Owned P results (value.waits P asked (index.keeps P (target.keeps P waiting))) ts) :
      Owned P results waiting (.set asked target index value :: ts)
  | ret {waiting : List Holder} {fs : List Form} {ts : List TypedForm}
      (hfs : EveryIn (Form.isTactful P) fs) (hlength : fs.length = results.length)
      (hnew : givesNew P results fs = true) : Owned P results waiting (.ret results fs :: ts)
  | breakLoop {waiting : List Holder} {ts : List TypedForm} :
      Owned P results waiting (.breakLoop :: ts)
  | continueLoop {waiting : List Holder} {ts : List TypedForm} :
      Owned P results waiting (.continueLoop :: ts)
  | value {waiting : List Holder} {asked : List Kind} {f : Form} {h : f.isStatement = false}
      {ts : List TypedForm} (hf : f.Every (Form.isTactful P))
      (hts : Owned P results (f.waits P asked waiting) ts) :
      Owned P results waiting (.value asked f h :: ts)

/-! ### Stores -/

namespace Target

def name? : Target → Option String
  | define name | assign name => some name
  | blank | element _ _ => none

def isArray (kinds : String → Kind) (t : Target) : Bool :=
  t.name?.any fun name => (kinds name).isArray

def Respects (P : Package) (env : Environment) : Target → Prop
  | blank => True
  | define name | assign name => isReserved name = false
  | element base at' => base.Respects P env ∧ at'.Respects P env

def keeps (waiting : List Holder) (t : Target) : List Holder :=
  if t.callSpan?.isNone then waiting else waiting.filter Holder.isNamed

end Target

section

variable {P : Package} {env : Environment} {results asked : List Kind} {u : Usage}
  {waiting : List Holder} {tail : List TypedForm}

theorem typedList_append (fs gs : List Form) :
    typedList u (fs ++ gs) = typedList u fs ++ typedList u gs := by
  induction fs with
  | nil => rfl
  | cons f fs ih => simp [typedList, ih]

theorem waits_of_isPure {f : Form} (h : f.isPure = true) : f.waits P asked waiting = waiting := by
  cases f with
  | bool _ | char _ | int _ | float _ | str _ | symbol _ | var _ | resultRef _ => rfl
  | _ => cases h

theorem mem_keeps_of_isNamed {f : Form} {holder : Holder} (h : holder ∈ waiting)
    (hnamed : holder.isNamed = true) : holder ∈ f.keeps P waiting := by
  unfold Form.keeps
  split
  · exact h
  · exact List.mem_filter.2 ⟨h, hnamed⟩

theorem keeps_of_containsCall (hspares : P.sparesHelpers = true) {e : Expr} {f : Form}
    (hf : Form.ofExpr env e = .ok f) (h : e.containsCall = false) :
    f.keeps P waiting = waiting := by
  have hquiet : CallsMeet env _ (fun f => f.isQuiet P = true) := callsMeet_isQuiet hspares
  exact if_pos (List.all_eq_true.2 (hquiet.every_ofExpr e hf (e.isCall_of_mem_parts h)))

theorem keeps_subset {f : Form} {waiting' : List Holder} (hsub : waiting ⊆ waiting') :
    f.keeps P waiting ⊆ f.keeps P waiting' := by
  unfold Form.keeps
  split
  · exact hsub
  · exact List.filter_subset _ hsub

theorem waits_subset {f : Form} {waiting' : List Holder} (hsub : waiting ⊆ waiting') :
    f.waits P asked waiting ⊆ f.waits P asked waiting' := by
  unfold Form.waits
  split
  · intro holder
    simp only [List.mem_append]
    exact Or.imp_left fun h => List.filter_subset _ hsub h
  · exact keeps_subset hsub

theorem isCall_of_results? {f : Form} {given : List Kind} (h : f.results? P asked = some given) :
    f.isCall = true := by
  cases f with
  | call _ _ | dynCall _ _ => rfl
  | _ => cases h

theorem isQuiet_of_results? {f : Form} {given : List Kind} (h : f.results? P asked = some given) :
    f.isQuiet P = false := by
  cases f with
  | call name args =>
      cases hfind : P.find? name with
      | some g => simp [Form.isQuiet, hfind]
      | none =>
          simp only [Form.results?, hfind, Option.ite_none_right_eq_some] at h
          simp [Form.isQuiet, h.1]
  | dynCall _ _ => rfl
  | _ => cases h

/-- A call that leaves an array first makes it. -/
theorem isNew_of_results? {f : Form} {given : List Kind} (h : f.results? P asked = some given)
    (harray : startsWithArray given = true) : f.isNew P = true := by
  cases f with
  | call name args =>
      cases hfind : P.find? name with
      | some g =>
          simp only [Form.results?, hfind, Option.some.injEq] at h
          simpa [Form.isNew, hfind, h] using harray
      | none => simp [Form.isNew, hfind]
  | dynCall _ _ => rfl
  | _ => cases h

/-- A call that makes an array leaves it first. -/
theorem startsWithArray_of_makes {f : Form} {given : List Kind}
    (h : f.results? P asked = some given) (hmakes : f.makes P asked = true) :
    startsWithArray given = true := by
  simp only [Form.makes, Bool.and_eq_true] at hmakes
  cases f with
  | call name args =>
      cases hfind : P.find? name with
      | some g =>
          simp only [Form.results?, hfind, Option.some.injEq] at h
          simpa [Form.isNew, hfind, h] using hmakes.2
      | none =>
          simp only [Form.results?, hfind, Option.ite_none_right_eq_some, Option.some.injEq] at h
          rw [← h.2]
          exact hmakes.1
  | dynCall _ _ =>
      cases h
      exact hmakes.1
  | _ => cases h

theorem Target.keeps_element (hspares : P.sparesHelpers = true) {base at' : Expr} {b i : Form}
    (hb : Form.ofExpr env base = .ok b) (hi : Form.ofExpr env at' = .ok i) :
    (Target.element base at').keeps waiting ⊆ i.keeps P (b.keeps P waiting) := by
  intro holder h
  simp only [Target.keeps, Target.callSpan?] at h
  cases hcall : base.containsCall || at'.containsCall with
  | false =>
      rw [Bool.or_eq_false_iff] at hcall
      rw [keeps_of_containsCall hspares hb hcall.1, keeps_of_containsCall hspares hi hcall.2]
      simpa [hcall] using h
  | true =>
      simp only [hcall, if_true, Option.isNone_some, Bool.false_eq_true, if_false,
        List.mem_filter] at h
      exact mem_keeps_of_isNamed (mem_keeps_of_isNamed h.1 h.2) h.2

/-- A value that is stored by a statement is a value form. -/
theorem typed_of_isStatement {f : Form} (h : f.isStatement = false) :
    f.typed u = .value (u.asked none) f h := by
  cases f with
  | block _ | branch _ _ _ | loop _ _ _ | ret _ | breakLoop | continueLoop | bind _ _ | rebind _ _
  | set _ _ _ => cases h
  | _ => rfl

theorem Target.mem_keeps_of_isNamed {t : Target} {holder : Holder} (h : holder ∈ waiting)
    (hnamed : holder.isNamed = true) : holder ∈ t.keeps waiting := by
  unfold Target.keeps
  split
  · exact h
  · exact List.mem_filter.2 ⟨h, hnamed⟩

theorem Target.Respects.isReserved {t : Target} {name : String} (h : t.Respects P env)
    (hname : t.name? = some name) : isReserved name = false := by
  cases t with
  | define _ | assign _ =>
      cases hname
      exact h
  | blank | element _ _ => cases hname

/-- A store is owned if its value is supplied, and so is what follows on what then waits. -/
theorem owned_store (hspares : P.sparesHelpers = true) {t : Target} {value : Form} {fs : List Form}
    (h : t.store env value = .ok fs) (ht : t.Respects P env)
    (hstatement : value.isStatement = false) (hvalue : value.Every (Form.isTactful P))
    (hkind : t.isArray u.kind = true →
      value.IsSupplied P (u.asked t.name?) (value.waits P (u.asked t.name?) waiting))
    (htail : ∀ waiting', (∀ holder ∈ value.waits P (u.asked t.name?) (t.keeps waiting),
      (∀ name, t.name? = some name → holder ≠ .named name) →
      Holder.ofForm? value ≠ some holder → holder ∈ waiting') → Owned P results waiting' tail) :
    Owned P results waiting (typedList u fs ++ tail) := by
  cases t with
  | blank =>
      cases h
      split
      · rename_i hpure
        refine htail waiting fun holder hholder _ _ => ?_
        rw [waits_of_isPure hpure] at hholder
        exact hholder
      · rw [typedList, typedList, typed_of_isStatement hstatement]
        exact .value hvalue (htail _ fun holder hholder _ _ => hholder)
  | define name =>
      cases h
      refine .bind hvalue hkind (htail _ fun holder hholder hname hread => ?_)
      have hmem : holder ∈ takenBy name (u.kind name) value
          (value.waits P (u.asked name) waiting) := by
        refine List.mem_filter.2 ⟨hholder, ?_⟩
        simp [hname name rfl, hread]
      unfold boundTo
      split
      · exact List.mem_cons_of_mem _ hmem
      · exact hmem
  | assign name =>
      cases h
      refine .rebind ht hvalue hkind (htail _ fun holder hholder hname hread => ?_)
      refine List.mem_filter.2 ⟨hholder, ?_⟩
      simp [hname name rfl, hread]
  | element base at' =>
      obtain ⟨b, hb, h⟩ := lower_bind_ok h
      obtain ⟨i, hi, h⟩ := lower_bind_ok h
      cases h
      have htactful : CallsMeet env _ (Form.isTactful P) := callsMeet_isTactful hspares
      exact .set (htactful.every_ofExpr base hb ht.1) (htactful.every_ofExpr at' hi ht.2) hvalue
        (htail _ fun _ hholder _ _ => waits_subset (Target.keeps_element hspares hb hi) hholder)

/-- A statement that stores one value where each of these kinds is asked for. It asks for an array
wherever an array variable or the temporary before it takes the value. -/
structure Usage.IsPairwise (u : Usage) (asked : List Kind) : Prop where
  named : ∀ name, (u.kind name).isArray = true → startsWithArray (u.asked name) = true
  temporary : ∀ position, (u.kind (temporary position)).isArray = false
  waiting : ∀ position kind, asked[position]? = some kind → kind.isArray = true →
    startsWithArray (u.asked (StackCompiler.temporary position)) = true

theorem Usage.IsPairwise.of_isArray (h : u.IsPairwise asked) {t : Target}
    (ht : t.isArray u.kind = true) : startsWithArray (u.asked t.name?) = true := by
  cases t with
  | define name | assign name => exact h.named name ht
  | blank | element _ _ => cases ht

/-- What is asked of a target and of a value that is stored into it by itself. -/
structure StoreRespects (P : Package) (env : Environment) (kinds : String → Kind) (t : Target)
    (value : Form) : Prop where
  target : t.Respects P env
  isStatement : value.isStatement = false
  tactful : value.Every (Form.isTactful P)
  isNew : t.isArray kinds = true → value.isNew P = true

/-- New values may be stored one after the other. -/
theorem owned_storeEach (hspares : P.sparesHelpers = true) (hu : u.IsPairwise asked)
    {pairs : List (Target × Form)} {fs : List Form} (h : storeEach env pairs = .ok fs)
    (hpairs : ∀ pair ∈ pairs, StoreRespects P env u.kind pair.1 pair.2)
    (htail : Owned P results [] tail) :
    Owned P results waiting (typedList u fs ++ tail) := by
  induction pairs generalizing fs waiting with
  | nil =>
      cases h
      exact .weaken (List.nil_sublist _) htail
  | cons pair rest ih =>
      obtain ⟨t, value⟩ := pair
      rw [List.forall_mem_cons] at hpairs
      obtain ⟨first, hfirst, h⟩ := lower_bind_ok h
      obtain ⟨others, hothers, h⟩ := lower_bind_ok h
      cases h
      rw [typedList_append, List.append_assoc]
      refine owned_store hspares hfirst hpairs.1.target hpairs.1.isStatement hpairs.1.tactful
        (fun harray => .inl ?_) fun waiting' _ => ih hothers hpairs.2
      simp [Form.makes, hu.of_isArray harray, hpairs.1.isNew harray]

theorem Holder.mem_results {given : List Kind} {index : Nat} {holder : Holder}
    (h : holder ∈ Holder.results index given) :
    ∃ later, index ≤ later ∧ holder = .result later := by
  induction given generalizing index with
  | nil => cases h
  | cons kind given ih =>
      rw [Holder.results] at h
      split at h
      · obtain rfl | h := List.mem_cons.1 h
        · exact ⟨index, le_refl _, rfl⟩
        · obtain ⟨later, hlater, rfl⟩ := ih h
          exact ⟨later, by omega, rfl⟩
      · obtain ⟨later, hlater, rfl⟩ := ih h
        exact ⟨later, by omega, rfl⟩

theorem Holder.results_subset (kind : Kind) (given : List Kind) (index : Nat) :
    Holder.results (index + 1) given ⊆ Holder.results index (kind :: given) := by
  rw [Holder.results]
  split
  · exact List.subset_cons_self _ _
  · exact List.Subset.refl _

/-- The results of a call may be stored one after the other, each where its kind is asked for. -/
theorem owned_resultRefs (hspares : P.sparesHelpers = true) {targets : List Target}
    {index : Nat} {given : List Kind} {fs : List Form}
    (h : storeEach env (resultRefs index targets) = .ok fs)
    (htargets : ∀ t ∈ targets, t.Respects P env) (hcalls : ∀ t ∈ targets, t.callSpan? = none)
    (hgiven : ∀ pair ∈ targets.zip given, pair.1.isArray u.kind = true → pair.2.isArray = true)
    (hlength : targets.length = given.length)
    (hwaiting : Holder.results index given ⊆ waiting) (htail : Owned P results [] tail) :
    Owned P results waiting (typedList u fs ++ tail) := by
  induction targets generalizing fs waiting index given with
  | nil =>
      cases h
      exact .weaken (List.nil_sublist _) htail
  | cons t ts ih =>
      cases given with
      | nil => cases hlength
      | cons kind given =>
          rw [List.forall_mem_cons] at htargets hcalls
          rw [List.zip_cons_cons, List.forall_mem_cons] at hgiven
          obtain ⟨first, hfirst, h⟩ := lower_bind_ok h
          obtain ⟨others, hothers, h⟩ := lower_bind_ok h
          cases h
          rw [typedList_append, List.append_assoc]
          refine owned_store hspares hfirst htargets.1 rfl ((Form.every_resultRef index).2 trivial)
            (fun harray => .inr ⟨.result index, ?_, rfl⟩)
            fun waiting' hwaiting' => ih hothers htargets.2 hcalls.2 hgiven.2
              (Nat.succ.inj hlength) fun holder hholder => ?_
          · rw [waits_of_isPure rfl]
            exact hwaiting (by simp [Holder.results, hgiven.1 harray])
          · obtain ⟨later, hlater, rfl⟩ := Holder.mem_results hholder
            refine hwaiting' _ ?_ (fun _ _ h => by cases h) fun h => ?_
            · rw [waits_of_isPure rfl, Target.keeps, hcalls.1]
              exact hwaiting (Holder.results_subset kind given index hholder)
            · have : index = later := by simpa [Holder.ofForm?] using h
              omega

/-! ### Temporaries -/

theorem toList_temporary (position : Nat) :
    (temporary position).toList = ['#', 't', 'm', 'p'] ++ Nat.toDigits 10 position := by
  simp [temporary, toString]

theorem temporary_inj {m n : Nat} (h : temporary m = temporary n) : m = n := by
  have hlist := congrArg String.toList h
  rw [toList_temporary, toList_temporary] at hlist
  have hdigits := congrArg (Nat.ofDigitChars 10 · 0) (List.append_cancel_left hlist)
  simpa using hdigits

theorem ne_temporary {name : String} (h : isReserved name = false) (position : Nat) :
    name ≠ temporary position := by
  rintro rfl
  simp [isReserved, toList_temporary] at h

def Holder.temporaries (kinds : String → Kind) (position : Nat) :
    List (Target × Form) → List Holder
  | [] => []
  | (t, _) :: rest =>
    if t.isArray kinds then .named (temporary position) :: temporaries kinds (position + 1) rest
    else temporaries kinds (position + 1) rest

theorem Holder.mem_temporaries {kinds : String → Kind} {pairs : List (Target × Form)}
    {position : Nat} {holder : Holder}
    (h : holder ∈ Holder.temporaries kinds position pairs) :
    ∃ later, position ≤ later ∧ holder = .named (temporary later) := by
  induction pairs generalizing position with
  | nil => cases h
  | cons pair rest ih =>
      rw [Holder.temporaries] at h
      split at h
      · obtain rfl | h := List.mem_cons.1 h
        · exact ⟨position, le_refl _, rfl⟩
        · obtain ⟨later, hlater, rfl⟩ := ih h
          exact ⟨later, by omega, rfl⟩
      · obtain ⟨later, hlater, rfl⟩ := ih h
        exact ⟨later, by omega, rfl⟩

theorem mem_waits_of_isNamed {f : Form} {holder : Holder} (h : holder ∈ waiting)
    (hnamed : holder.isNamed = true) : holder ∈ f.waits P asked waiting := by
  unfold Form.waits
  split
  · exact List.mem_append_left _ (List.mem_filter.2 ⟨h, hnamed⟩)
  · exact mem_keeps_of_isNamed h hnamed

/-- New values wait in their temporaries until all of them have been evaluated. -/
theorem owned_binds {pairs : List (Target × Form)} {position : Nat} {binds stores : List Form}
    (h : storeThroughTemporaries env position pairs = .ok (binds, stores))
    (hpairs : ∀ pair ∈ pairs, StoreRespects P env u.kind pair.1 pair.2)
    (hkinds : ∀ position, (u.kind (temporary position)).isArray = false)
    (hasked : ∀ i pair, pairs[i]? = some pair → pair.1.isArray u.kind = true →
      startsWithArray (u.asked (temporary (position + i))) = true) {bound : List Holder}
    (hbound : ∀ holder ∈ bound, ∃ earlier < position, holder = .named (temporary earlier))
    (hwaiting : bound ⊆ waiting)
    (htail : ∀ waiting', bound ⊆ waiting' → Holder.temporaries u.kind position pairs ⊆ waiting' →
      Owned P results waiting' tail) :
    Owned P results waiting (typedList u binds ++ tail) := by
  induction pairs generalizing position binds stores bound waiting with
  | nil =>
      cases h
      exact htail waiting hwaiting (List.nil_subset _)
  | cons pair rest ih =>
      obtain ⟨t, value⟩ := pair
      rw [List.forall_mem_cons] at hpairs
      obtain ⟨⟨binds₁, stores₁⟩, hfirst, h⟩ := lower_bind_ok h
      obtain ⟨⟨binds₂, stores₂⟩, hrest, h⟩ := lower_bind_ok h
      cases h
      have hearlier : ∀ holder ∈ bound,
          ∃ earlier < position + 1, holder = .named (temporary earlier) := by
        intro holder hholder
        obtain ⟨earlier, hlt, rfl⟩ := hbound holder hholder
        exact ⟨earlier, by omega, rfl⟩
      have hlater : ∀ i pair, rest[i]? = some pair → pair.1.isArray u.kind = true →
          startsWithArray (u.asked (temporary (position + 1 + i))) = true := by
        intro i pair hpair harray
        rw [Nat.add_assoc, Nat.add_comm 1]
        exact hasked (i + 1) pair hpair harray
      unfold storeThroughTemporary at hfirst
      split at hfirst
      · rename_i hskip
        cases hfirst
        refine ih hrest hpairs.2 hlater hearlier hwaiting fun waiting' hkept htemporaries =>
          htail waiting' hkept ?_
        cases t with
        | blank => simpa [Holder.temporaries, Target.isArray, Target.name?] using htemporaries
        | _ => cases hskip
      · obtain ⟨stored, -, hfirst⟩ := lower_bind_ok hfirst
        cases hfirst
        rw [typedList_append, List.append_assoc]
        refine .bind hpairs.1.tactful (fun h => by rw [hkinds] at h; cases h) ?_
        -- a temporary of another position is bound, so those that are waiting stay where they are
        have hkept : bound ⊆ takenBy (temporary position) (u.kind (temporary position)) value
            (value.waits P (u.asked (temporary position)) waiting) := by
          intro holder hholder
          obtain ⟨earlier, hlt, rfl⟩ := hbound holder hholder
          refine List.mem_filter.2 ⟨mem_waits_of_isNamed (hwaiting hholder) rfl, ?_⟩
          have hne : temporary earlier ≠ temporary position := fun h => by
            have := temporary_inj h
            omega
          simp [hkinds, hne]
        cases harray : t.isArray u.kind with
        | false =>
            refine ih hrest hpairs.2 hlater hearlier ?_ fun waiting' hbound' htemporaries =>
              htail waiting' hbound' ?_
            · unfold boundTo
              split
              · exact List.subset_cons_of_subset _ hkept
              · exact hkept
            · simpa [Holder.temporaries, harray] using htemporaries
        | true =>
            have hbound' : ∀ holder ∈ Holder.named (temporary position) :: bound,
                ∃ earlier < position + 1, holder = .named (temporary earlier) :=
              List.forall_mem_cons.2 ⟨⟨position, by omega, rfl⟩, hearlier⟩
            refine ih hrest hpairs.2 hlater hbound' ?_ fun waiting' hbound htemporaries =>
              htail waiting' (List.subset_of_cons_subset hbound) ?_
            · have hstarts := hasked 0 (t, value) rfl harray
              rw [Nat.add_zero] at hstarts
              rw [boundTo, if_pos (by simp [hkinds, Form.makes, hstarts, hpairs.1.isNew harray])]
              exact List.cons_subset_cons _ hkept
            · rw [Holder.temporaries, if_pos harray]
              exact List.cons_subset.2 ⟨(List.cons_subset.1 hbound).1, htemporaries⟩

/-- Array variables take what waits for them in temporaries. -/
theorem owned_stores (hspares : P.sparesHelpers = true) {pairs : List (Target × Form)}
    {position : Nat} {binds stores : List Form}
    (h : storeThroughTemporaries env position pairs = .ok (binds, stores))
    (hpairs : ∀ pair ∈ pairs, pair.1.Respects P env)
    (hwaiting : Holder.temporaries u.kind position pairs ⊆ waiting)
    (htail : Owned P results [] tail) :
    Owned P results waiting (typedList u stores ++ tail) := by
  induction pairs generalizing position binds stores waiting with
  | nil =>
      cases h
      exact .weaken (List.nil_sublist _) htail
  | cons pair rest ih =>
      obtain ⟨t, value⟩ := pair
      rw [List.forall_mem_cons] at hpairs
      obtain ⟨⟨binds₁, stores₁⟩, hfirst, h⟩ := lower_bind_ok h
      obtain ⟨⟨binds₂, stores₂⟩, hrest, h⟩ := lower_bind_ok h
      cases h
      have hlater : Holder.temporaries u.kind (position + 1) rest ⊆ waiting := by
        refine List.Subset.trans ?_ hwaiting
        rw [Holder.temporaries]
        split
        · exact List.subset_cons_self _ _
        · exact List.Subset.refl _
      unfold storeThroughTemporary at hfirst
      split at hfirst
      · cases hfirst
        exact ih hrest hpairs.2 hlater
      · obtain ⟨stored, hstored, hfirst⟩ := lower_bind_ok hfirst
        cases hfirst
        rw [typedList_append, List.append_assoc]
        refine owned_store hspares hstored hpairs.1 rfl ((Form.every_var _).2 trivial)
          (fun harray => .inr ⟨.named (temporary position), ?_, rfl⟩)
          fun waiting' hwaiting' => ih hrest hpairs.2 fun holder hholder => ?_
        · rw [waits_of_isPure rfl]
          exact hwaiting (by simp [Holder.temporaries, harray])
        · obtain ⟨later, hle, rfl⟩ := Holder.mem_temporaries hholder
          refine hwaiting' _ ?_ (fun name hname h => ?_) fun h => ?_
          · rw [waits_of_isPure rfl]
            exact Target.mem_keeps_of_isNamed (hlater hholder) rfl
          · exact ne_temporary (hpairs.1.isReserved hname) later (Holder.named.inj h).symm
          · have : temporary position = temporary later := by simpa [Holder.ofForm?] using h
            have := temporary_inj this
            omega

/-! ### Assignments -/

theorem isStatement_of_isOperand {visible : Scope} {f : Form} (h : f.isOperand visible = true) :
    f.isStatement = false := by
  have hsound := Form.isSound_of_isOperand h
  cases f with
  | block _ | branch _ _ _ | loop _ _ _ | ret _ | breakLoop | continueLoop | bind _ _ | rebind _ _
  | set _ _ _ => cases hsound
  | _ => rfl

theorem isOperand_everything {e : Expr} {f : Form} (h : Form.ofExpr env e = .ok f) :
    f.isOperand .everything = true :=
  isOperand_ofExpr e h (Expr.isScoped_everything e)

theorem isStatement_asStored {e : Expr} {f : Form} (h : f.isStatement = false) :
    (asStored e f).isStatement = false := by
  unfold asStored
  split
  · rfl
  · exact h

theorem storeRespects_zip (hspares : P.sparesHelpers = true) {kinds : String → Kind}
    {values : List Expr} {forms : List Form} (h : Form.ofStoredList env values = .ok forms)
    (hvalues : RespectsAll P env values) {targets : List Target}
    (htargets : ∀ t ∈ targets, t.Respects P env)
    (hkinds : ∀ pair ∈ targets.zip (values.map Expr.kind), pair.1.isArray kinds = true →
      pair.2.isArray = true) :
    ∀ pair ∈ targets.zip forms, StoreRespects P env kinds pair.1 pair.2 := by
  induction values generalizing forms targets with
  | nil =>
      cases h
      simp
  | cons e es ih =>
      rw [RespectsAll, List.forall_mem_cons] at hvalues
      obtain ⟨f, hf, h⟩ := lower_bind_ok h
      obtain ⟨fs, hfs, h⟩ := lower_bind_ok h
      cases h
      cases targets with
      | nil => simp
      | cons t ts =>
          rw [List.forall_mem_cons] at htargets
          rw [List.map_cons, List.zip_cons_cons, List.forall_mem_cons] at hkinds
          rw [List.zip_cons_cons, List.forall_mem_cons]
          have htactful : CallsMeet env _ (Form.isTactful P) := callsMeet_isTactful hspares
          have hoperand := isStatement_of_isOperand (isOperand_everything hf)
          exact ⟨⟨htargets.1, isStatement_asStored hoperand,
            htactful.every_asStored (htactful.every_ofExpr e hf hvalues.1),
            fun harray => isNew_asStored hspares hvalues.1 hf (hkinds.1 harray)⟩,
            ih hfs hvalues.2 htargets.2 hkinds.2⟩

theorem givesArrays_self (kinds : List Kind) : givesArrays kinds kinds = true := by
  induction kinds with
  | nil => rfl
  | cons kind kinds ih =>
      simp only [givesArrays, List.zip_cons_cons, List.all_cons, Bool.and_eq_true]
      exact ⟨Bool.not_or_self _, ih⟩

theorem zip_isArray {kinds : String → Kind} {targets : List Target} {given : List Kind}
    (hasked : ∀ pair ∈ targets.zip asked, pair.1.isArray kinds = true → pair.2.isArray = true)
    (hlength : targets.length = asked.length) (h : givesArrays asked given = true) :
    ∀ pair ∈ targets.zip given, pair.1.isArray kinds = true → pair.2.isArray = true := by
  induction targets generalizing asked given with
  | nil => simp
  | cons t ts ih =>
      cases asked with
      | nil => cases hlength
      | cons kind asked =>
          cases given with
          | nil => simp
          | cons other given =>
              rw [List.zip_cons_cons, List.forall_mem_cons] at hasked ⊢
              simp only [givesArrays, List.zip_cons_cons, List.all_cons, Bool.and_eq_true,
                Bool.or_eq_true, Bool.not_eq_true'] at h
              refine ⟨fun harray => h.1.resolve_left ?_,
                ih hasked.2 (Nat.succ.inj hlength) (by simpa [givesArrays] using h.2)⟩
              simp [hasked.1 harray]

theorem owned_assignPairwise (hspares : P.sparesHelpers = true) (hu : u.IsPairwise asked)
    {targets : List Target} {values : List Expr} {fs : List Form}
    (h : assignPairwise env targets values = .ok fs)
    (htargets : ∀ t ∈ targets, t.Respects P env) (hvalues : RespectsAll P env values)
    (hasked : ∀ pair ∈ targets.zip asked, pair.1.isArray u.kind = true → pair.2.isArray = true)
    (hlength : targets.length = asked.length)
    (hgives : givesArrays asked (values.map Expr.kind) = true) (htail : Owned P results [] tail) :
    Owned P results waiting (typedList u fs ++ tail) := by
  obtain ⟨forms, hforms, h⟩ := lower_bind_ok h
  have hpairs := storeRespects_zip hspares hforms hvalues htargets
    (zip_isArray hasked hlength hgives)
  split at h
  · obtain ⟨⟨binds, stores⟩, hstores, h⟩ := lower_bind_ok h
    cases h
    have hwaiting : ∀ i pair, (targets.zip forms)[i]? = some pair → pair.1.isArray u.kind = true →
        startsWithArray (u.asked (temporary (0 + i))) = true := by
      intro i pair hpair harray
      obtain ⟨ht, -⟩ := List.getElem?_zip_eq_some.1 hpair
      obtain ⟨hlt, ht⟩ := List.getElem?_eq_some_iff.1 ht
      have hkind : asked[i]? = some asked[i] := List.getElem?_eq_getElem (hlength ▸ hlt)
      have hmem : (pair.1, asked[i]) ∈ targets.zip asked := by
        refine List.mem_of_getElem? (i := i) (List.getElem?_zip_eq_some.2 ⟨?_, hkind⟩)
        exact List.getElem?_eq_some_iff.2 ⟨hlt, ht⟩
      rw [Nat.zero_add]
      exact hu.waiting i _ hkind (hasked _ hmem harray)
    have hboth : ∀ tail, Owned P results [] tail →
        Owned P results [] (typedList u (binds ++ stores) ++ tail) := by
      intro tail htail
      rw [typedList_append, List.append_assoc]
      have hnone : ∀ holder ∈ ([] : List Holder),
          ∃ earlier < 0, holder = .named (temporary earlier) := by simp
      exact owned_binds hstores hpairs hu.temporary hwaiting hnone (List.nil_subset _)
        fun waiting' _ hwaiting' => owned_stores hspares hstores
          (fun pair hpair => (hpairs pair hpair).target) hwaiting' htail
    split
    · exact .weaken (List.nil_sublist _) (hboth tail htail)
    · have hblock := hboth [] .nil
      rw [List.append_nil] at hblock
      exact .block hblock htail
  · exact owned_storeEach hspares hu h hpairs htail

/-- A call whose results may be stored leaves results of the kinds that are asked for. -/
theorem results?_of_storable {call : Expr} {value : Form}
    (hvalue : Form.ofExpr env call = .ok value) (hcount : asked.length ≠ 1)
    (hstorable : storable P env asked [call] = true) :
    ∃ given, value.results? P asked = some given ∧ given.length = asked.length ∧
      givesArrays asked given = true := by
  simp only [storable, List.length_singleton, if_neg hcount] at hstorable
  cases call with
  | call callee args kind span =>
      cases kindedCall_ofExpr hvalue with
      | named _ hcall _ =>
          simp only [hcall] at hstorable
          split at hstorable
          · rename_i g hg
            simp only [Bool.and_eq_true, decide_eq_true_eq] at hstorable
            exact ⟨g.results, by simp only [Form.results?, hg], hstorable⟩
          · rename_i hnone
            have hname := of_decide_eq_true hstorable
            exact ⟨asked, by simp only [Form.results?, hnone, if_pos hname], rfl,
              givesArrays_self asked⟩
      | value _ _ _ _ _ => exact ⟨asked, rfl, rfl, givesArrays_self asked⟩
      | wrap _ _ hcall hnone _ | symbol _ hcall hnone | intern _ hcall hnone _ =>
          simp [hnone, hcall] at hstorable
  | _ => cases hstorable

theorem owned_destructure (hspares : P.sparesHelpers = true)
    (hu : ∀ name?, u.asked name? = asked) {targets : List Target} {call : Expr} {fs : List Form}
    (h : destructure env targets call = .ok fs) (htargets : ∀ t ∈ targets, t.Respects P env)
    (hcall : call.Respects P env)
    (hasked : ∀ pair ∈ targets.zip asked, pair.1.isArray u.kind = true → pair.2.isArray = true)
    (hlength : targets.length = asked.length) (hcount : asked.length ≠ 1)
    (hstorable : storable P env asked [call] = true) (htail : Owned P results [] tail) :
    Owned P results waiting (typedList u fs ++ tail) := by
  unfold destructure at h
  split at h
  · cases h
    exact .weaken (List.nil_sublist _) htail
  · rename_i first rest
    split at h
    · cases h
    · rename_i hspan
      obtain ⟨value, hvalue, h⟩ := lower_bind_ok h
      obtain ⟨stores, hstores, h⟩ := lower_bind_ok h
      obtain ⟨others, hothers, h⟩ := lower_bind_ok h
      cases h
      obtain ⟨given, hresults, hsame, hgives⟩ := results?_of_storable hvalue hcount hstorable
      have hgiven := zip_isArray hasked hlength hgives
      rw [List.forall_mem_cons] at htargets
      obtain ⟨kind, given, rfl⟩ := List.exists_cons_of_length_eq_add_one
        (hsame.trans hlength.symm)
      obtain ⟨askedFirst, askedRest, rfl⟩ := List.exists_cons_of_length_eq_add_one hlength.symm
      rw [List.zip_cons_cons, List.forall_mem_cons] at hgiven hasked
      have hform : value.isStatement = false ∧ Holder.ofForm? value = none := by
        have hcall := isCall_of_results? hresults
        cases value with
        | call _ _ | dynCall _ _ => exact ⟨rfl, rfl⟩
        | _ => cases hcall
      have htactful : CallsMeet env _ (Form.isTactful P) := callsMeet_isTactful hspares
      rw [typedList_append, List.append_assoc]
      refine owned_store hspares hstores htargets.1 hform.1
        (htactful.every_ofExpr call hvalue hcall) (fun harray => .inl ?_)
        fun waiting' hwaiting' => ?_
      · have hnew : value.isNew P = true :=
          isNew_of_results? hresults (by simp [startsWithArray, hgiven.1 harray])
        simp [Form.makes, hu, hnew, startsWithArray, hasked.1 harray]
      · refine owned_resultRefs hspares hothers htargets.2 ?_ hgiven.2
          (Nat.succ.inj (hsame.trans hlength.symm)).symm (fun holder hholder => ?_) htail
        · exact List.findSome?_eq_none_iff.1 hspan
        · refine hwaiting' holder ?_ (fun _ _ => ?_) (by simp [hform.2])
          · rw [hu, Form.waits, hresults]
            exact List.mem_append_right _ hholder
          · obtain ⟨later, -, rfl⟩ := Holder.mem_results hholder
            simp

/-! ### Declarations, assignments and returns -/

theorem respectsAll_of_areKinded {es : List Expr} (h : Expr.areKinded P env es = true) :
    RespectsAll P env es :=
  fun _ he part hpart => List.all_eq_true.1 h part (Expr.mem_listParts he hpart)

section

variable {table : List (String × Kind)}

theorem kindAmong_of_mem (h : areNamed table = true) {name : String} {kind : Kind}
    (hmem : (name, kind) ∈ table) : kindAmong table name = kind ∧ isReserved name = false := by
  have := List.all_eq_true.1 h _ hmem
  simpa using this

theorem lookup_temporary (h : areNamed table = true) (position : Nat) :
    table.lookup (temporary position) = none := by
  cases hlookup : table.lookup (temporary position) with
  | none => rfl
  | some kind =>
      obtain ⟨before, after, rfl, -⟩ := List.lookup_eq_some_iff.1 hlookup
      have hmem : (temporary position, kind) ∈ before ++ (temporary position, kind) :: after := by
        simp
      exact absurd rfl (ne_temporary (kindAmong_of_mem h hmem).2 position)

theorem Usage.lookup_temporaries (asked : List Kind) (first position : Nat) :
    (Usage.temporaries asked first).lookup (temporary (first + position)) = asked[position]? := by
  induction asked generalizing first position with
  | nil => rfl
  | cons kind asked ih =>
      cases position with
      | zero => simp [Usage.temporaries]
      | succ position =>
          have hne : (temporary (first + (position + 1)) == temporary first) = false := by
            rw [beq_eq_false_iff_ne]
            intro h
            have := temporary_inj h
            omega
          rw [Usage.temporaries, List.lookup_cons, hne, List.getElem?_cons_succ, ← ih (first + 1),
            Nat.add_assoc, Nat.add_comm 1]

theorem Usage.isPairwise_store (h : areNamed table = true) {count : Nat}
    (hcount : asked.length = count) : (Usage.store table asked count).IsPairwise asked where
  named name harray := by
    cases hlookup : table.lookup name with
    | none => simp [Usage.store, kindAmong, hlookup, Kind.isArray] at harray
    | some kind =>
        simpa [Usage.store, hcount, kindAmong, List.lookup_append, hlookup,
          startsWithArray] using harray
  temporary position := by
    simp [Usage.store, kindAmong, lookup_temporary h, Kind.isArray]
  waiting position kind hkind harray := by
    have hlookup := Usage.lookup_temporaries asked 0 position
    rw [Nat.zero_add, hkind] at hlookup
    simp [Usage.store, hcount, kindAmong, List.lookup_append, lookup_temporary h, hlookup,
      startsWithArray, harray]

theorem owned_assignValues (hspares : P.sparesHelpers = true) (hnamed : areNamed table = true)
    {targets : List Target} {values : List Expr} {span : Span} {fs : List Form}
    (h : assignValues env targets values span = .ok fs)
    (htargets : ∀ t ∈ targets, t.Respects P env) (hvalues : RespectsAll P env values)
    (hasked : ∀ pair ∈ targets.zip asked, pair.1.isArray (kindAmong table) = true →
      pair.2.isArray = true)
    (hlength : targets.length = asked.length) (hstorable : storable P env asked values = true)
    (htail : Owned P results [] tail) :
    Owned P results waiting (typedList (.store table asked values.length) fs ++ tail) := by
  unfold assignValues at h
  rw [hlength] at h
  split at h
  · rename_i hcount
    have hgives : givesArrays asked (values.map Expr.kind) = true := by
      simpa only [storable, if_pos hcount] using hstorable
    exact owned_assignPairwise hspares (Usage.isPairwise_store hnamed hcount) h htargets hvalues
      hasked hlength hgives htail
  · rename_i hcount
    split at h
    · rename_i call
      split at h
      · split at h
        · exact owned_destructure hspares (fun _ => if_neg hcount) h htargets
            (hvalues call (List.mem_singleton_self _)) hasked hlength hcount hstorable htail
        · cases h
      · cases h
    · cases h

theorem owned_bindZeros (hspares : P.sparesHelpers = true) (hu : u.IsPairwise asked) {kind : Kind}
    {span : Span} {names : List String} {fs : List Form} (h : bindZeros kind span names = .ok fs)
    (htail : Owned P results [] tail) :
    Owned P results waiting (typedList u fs ++ tail) := by
  induction names generalizing fs waiting with
  | nil =>
      cases h
      exact .weaken (List.nil_sublist _) htail
  | cons name rest ih =>
      unfold bindZeros at h
      split at h
      · exact ih h
      · obtain ⟨zero, hzero, h⟩ := lower_bind_ok h
        obtain ⟨others, hothers, h⟩ := lower_bind_ok h
        cases h
        obtain ⟨hnew, htactful⟩ : zero.isNew P = true ∧ zero.Every (Form.isTactful P) := by
          have hcalls : CallsMeet ⟨.empty, .empty⟩ _ (Form.isTactful P) :=
            callsMeet_isTactful hspares
          cases kind with
          | scalar scalar =>
              cases hzero
              cases scalar <;> exact ⟨rfl, .of_isAtom rfl trivial⟩
          | slice _ =>
              cases hzero
              exact ⟨rfl, .of_isAtom rfl trivial⟩
          | array elem length =>
              cases hzero
              exact ⟨isNew_zeroArray hspares elem length, hcalls.every_zeroArray elem length⟩
          | void | tuple _ => cases hzero
        refine .bind htactful (fun harray => .inl ?_) (ih hothers)
        simp [Form.makes, hu.named name harray, hnew]

/-- A declared name is a target of the kind that is declared. -/
theorem Target.ofName_spec (h : areNamed table = true) {name : String} {kind : Kind}
    (hname : name ≠ Source.blank → (name, kind) ∈ table) :
    (Target.ofName name).Respects P env ∧
      ((Target.ofName name).isArray (kindAmong table) = true → kind.isArray = true) := by
  unfold Target.ofName
  split
  · exact ⟨trivial, fun h => by cases h⟩
  · rename_i hblank
    obtain ⟨hkind, hreserved⟩ := kindAmong_of_mem h (hname hblank)
    exact ⟨hreserved, fun harray => by simpa [Target.isArray, Target.name?, hkind] using harray⟩

theorem owned_specForms (hspares : P.sparesHelpers = true) {spec : ValueSpec} {fs : List Form}
    (h : specForms env spec = .ok fs) (hkinded : spec.isKinded P env = true)
    (htail : Owned P results [] tail) :
    Owned P results waiting (typedList spec.usage fs ++ tail) := by
  simp only [ValueSpec.isKinded, Bool.and_eq_true, Bool.or_eq_true] at hkinded
  obtain ⟨⟨hvalues, hnamed⟩, hstorable⟩ := hkinded
  have hnames : ∀ name ∈ spec.names, (Target.ofName name).Respects P env ∧
      ((Target.ofName name).isArray (kindAmong spec.targets) = true →
        spec.kind.isArray = true) := by
    refine fun name hname => Target.ofName_spec hnamed fun hblank => ?_
    exact List.mem_map.2 ⟨name, List.mem_filter.2 ⟨hname, by simpa using hblank⟩, rfl⟩
  unfold specForms at h
  unfold ValueSpec.usage
  split at h
  · rename_i hempty
    rw [if_pos hempty]
    exact owned_bindZeros hspares (Usage.isPairwise_store hnamed (by simp)) h htail
  · rename_i hempty
    rw [if_neg hempty]
    refine owned_assignValues hspares hnamed h ?_ (respectsAll_of_areKinded hvalues) ?_ (by simp)
      (hstorable.resolve_left hempty) htail
    · rintro t ht
      obtain ⟨name, hname, rfl⟩ := List.mem_map.1 ht
      exact (hnames name hname).1
    · rintro pair hpair harray
      rw [List.zip_map', List.mem_map] at hpair
      obtain ⟨name, hname, rfl⟩ := hpair
      exact (hnames name hname).2 harray

theorem owned_ofSpecs (hspares : P.sparesHelpers = true) {specs : List ValueSpec}
    {ts : List TypedForm} (h : TypedForm.ofSpecs env specs = .ok ts)
    (hspecs : ∀ spec ∈ specs, spec.isKinded P env = true) (htail : Owned P results [] tail) :
    Owned P results waiting (ts ++ tail) := by
  induction specs generalizing ts waiting with
  | nil =>
      cases h
      exact .weaken (List.nil_sublist _) htail
  | cons spec rest ih =>
      rw [List.forall_mem_cons] at hspecs
      obtain ⟨first, hfirst, h⟩ := lower_bind_ok h
      obtain ⟨others, hothers, h⟩ := lower_bind_ok h
      cases h
      rw [List.append_assoc]
      exact owned_specForms hspares hfirst hspecs.1 (ih hothers hspecs.2)

/-- A target on the left of an assignment is a variable of the kind that it has there. -/
theorem Target.ofExpr_respects (h : areNamed table = true) (e : Expr) {t : Target}
    (ht : Target.ofExpr e = .ok t) (htarget : ∀ target, e.target? = some target → target ∈ table)
    (hrespects : e.Respects P env) :
    t.Respects P env ∧ (t.isArray (kindAmong table) = true → e.kind.isArray = true) := by
  cases e with
  | ident name defines kind value span =>
      cases ht
      split
      · exact ⟨trivial, fun h => by cases h⟩
      · rename_i hblank
        have hmem := htarget (name, kind) (by simp [Expr.target?, hblank])
        obtain ⟨hkind, hreserved⟩ := kindAmong_of_mem h hmem
        split
        · exact ⟨hreserved, fun harray => by
            simpa [Target.isArray, Target.name?, hkind, Expr.kind] using harray⟩
        · exact ⟨hreserved, fun harray => by
            simpa [Target.isArray, Target.name?, hkind, Expr.kind] using harray⟩
  | index base at' kind span =>
      cases ht
      simp only [Expr.Respects, Expr.parts, List.forall_mem_cons, List.forall_mem_append]
        at hrespects
      exact ⟨hrespects.2, fun h => by cases h⟩
  | paren inner span =>
      exact Target.ofExpr_respects h inner ht htarget
        fun part hpart => hrespects part (List.mem_cons_of_mem _ hpart)
  | lit _ _ _ | binary _ _ _ _ _ | unary _ _ _ _ | call _ _ _ _ | method _ _ _ _ _
  | array _ _ _ => cases ht
termination_by structural e

theorem targetsOf_respects (h : areNamed table = true) {lhs : List Expr} {ts : List Target}
    (hts : targetsOf lhs = .ok ts)
    (htargets : ∀ e ∈ lhs, ∀ target, e.target? = some target → target ∈ table)
    (hlhs : RespectsAll P env lhs) :
    (∀ t ∈ ts, t.Respects P env) ∧ ts.length = lhs.length ∧
      ∀ pair ∈ ts.zip (lhs.map Expr.kind), pair.1.isArray (kindAmong table) = true →
        pair.2.isArray = true := by
  induction lhs generalizing ts with
  | nil =>
      cases hts
      simp
  | cons e es ih =>
      rw [RespectsAll, List.forall_mem_cons] at hlhs
      rw [List.forall_mem_cons] at htargets
      obtain ⟨t, ht, hts⟩ := lower_bind_ok hts
      obtain ⟨others, hothers, hts⟩ := lower_bind_ok hts
      cases hts
      obtain ⟨hrespects, harray⟩ := Target.ofExpr_respects h e ht htargets.1 hlhs.1
      obtain ⟨hall, hlength, hzip⟩ := ih hothers htargets.2 hlhs.2
      simp only [List.map_cons, List.zip_cons_cons, List.forall_mem_cons, List.length_cons, hlength]
      exact ⟨⟨hrespects, hall⟩, trivial, harray, hzip⟩

/-- A compound assignment has no form for arrays. -/
theorem isArray_of_ofBinary {op : AssignOp} {binary : BinaryOp} (hop : op.binary? = some binary)
    {kind : Kind} {left right f : Form} {span : Span}
    (h : Form.ofBinary binary kind.family? left right span = .ok f) : kind.isArray = false := by
  cases kind with
  | array elem length => cases op <;> cases hop <;> cases h
  | _ => rfl

theorem owned_assignForms (hspares : P.sparesHelpers = true) (hnamed : areNamed table = true)
    {lhs rhs : List Expr} {op : AssignOp} {span : Span} {fs : List Form}
    (h : assignForms env lhs op rhs span = .ok fs)
    (htargets : ∀ e ∈ lhs, ∀ target, e.target? = some target → target ∈ table)
    (hexprs : RespectsAll P env (lhs ++ rhs))
    (hstorable : op.binary?.isSome = true ∨ storable P env (lhs.map Expr.kind) rhs = true)
    (htail : Owned P results [] tail) :
    Owned P results waiting
      (typedList (.store table (lhs.map Expr.kind) rhs.length) fs ++ tail) := by
  rw [RespectsAll, List.forall_mem_append] at hexprs
  obtain ⟨ts, hts, h⟩ := lower_bind_ok h
  obtain ⟨hrespects, hlength, hzip⟩ := targetsOf_respects hnamed hts htargets hexprs.1
  cases hop : op.binary? with
  | none =>
      rw [hop] at h hstorable
      exact owned_assignValues hspares hnamed h hrespects hexprs.2 hzip (by simp [hlength])
        (hstorable.resolve_left (by simp)) htail
  | some binary =>
      rw [hop] at h
      dsimp only at h
      split at h
      · rename_i t left right h
        obtain ⟨current, hcurrent, h⟩ := lower_bind_ok h
        obtain ⟨operand, hoperand, h⟩ := lower_bind_ok h
        obtain ⟨value, hvalue, h⟩ := lower_bind_ok h
        have htactful : CallsMeet env _ (Form.isTactful P) := callsMeet_isTactful hspares
        have hoperand' := isOperand_ofBinary (isOperand_everything hcurrent)
          (isOperand_everything hoperand) hvalue
        refine owned_store hspares h (hrespects t (by simp)) (isStatement_of_isOperand hoperand')
          (htactful.every_ofBinary (htactful.every_ofExpr left hcurrent (hexprs.1 left (by simp)))
            (htactful.every_ofExpr right hoperand (hexprs.2 right (by simp))) hvalue)
          (fun harray => ?_) fun waiting' _ => .weaken (List.nil_sublist _) htail
        have hleft := hzip (t, left.kind) (by simp) harray
        rw [isArray_of_ofBinary hop hvalue] at hleft
        cases hleft
      · cases h

theorem owned_stepForms (hspares : P.sparesHelpers = true) (hnamed : areNamed table = true)
    {direction : Step} {target : Expr} {span : Span} {fs : List Form}
    (h : stepForms env direction target span = .ok fs)
    (htargets : ∀ pair, target.target? = some pair → pair ∈ table)
    (hrespects : target.Respects P env) (htail : Owned P results [] tail) :
    Owned P results waiting (typedList (.store table [] 0) fs ++ tail) := by
  unfold stepForms at h
  split at h
  · cases h
  · rename_i family one hunit
    obtain ⟨t, ht, h⟩ := lower_bind_ok h
    obtain ⟨current, hcurrent, h⟩ := lower_bind_ok h
    obtain ⟨htarget, hkind⟩ := Target.ofExpr_respects hnamed target ht htargets hrespects
    have htactful : CallsMeet env _ (Form.isTactful P) := callsMeet_isTactful hspares
    have hone : one.Every (Form.isTactful P) := by
      unfold unit? at hunit
      split at hunit <;> cases hunit <;> exact .of_isAtom rfl trivial
    refine owned_store hspares h htarget rfl ?_ (fun harray => ?_)
      fun waiting' _ => .weaken (List.nil_sublist _) htail
    · have hop : Form.isTactful P (.op direction.opKind family [current, one]) := trivial
      simp [hop, htactful.every_ofExpr target hcurrent hrespects, hone]
    · have harray := hkind harray
      cases hkinds : target.kind with
      | array _ _ =>
          rw [hkinds] at hunit
          cases hunit
      | _ =>
          rw [hkinds] at harray
          cases harray

theorem owned_returnForms (hspares : P.sparesHelpers = true) {values : List Expr} {span : Span}
    {fs : List Form} (h : returnForms env values span = .ok fs)
    (hvalues : RespectsAll P env values) (hlength : values.length = results.length)
    (hkinds : givesArrays results (values.map Expr.kind) = true) :
    Owned P results waiting (typedList (.ofResults results) fs ++ tail) := by
  unfold returnForms at h
  split at h
  · cases h
  · obtain ⟨forms, hforms, h⟩ := lower_bind_ok h
    cases h
    have htactful : CallsMeet env _ (Form.isTactful P) := callsMeet_isTactful hspares
    exact .ret (htactful.everyIn_ofStoredList hforms hvalues)
      ((length_ofStoredList hforms).trans hlength)
      (givesNew_ofStoredList hspares hforms hvalues hkinds)

end

/-! ### Statements -/

theorem every_tactful_of_areKinded (hspares : P.sparesHelpers = true) {e : Expr} {f : Form}
    (hf : Form.ofExpr env e = .ok f) (h : Expr.areKinded P env [e] = true) :
    f.Every (Form.isTactful P) := by
  have htactful : CallsMeet env _ (Form.isTactful P) := callsMeet_isTactful hspares
  exact htactful.every_ofExpr e hf (respectsAll_of_areKinded h e (by simp))

/-- Typed forms are owned before whatever is. -/
def OwnedFirst (P : Package) (results : List Kind) (ts : List TypedForm) : Prop :=
  ∀ tail, Owned P results [] tail → Owned P results [] (ts ++ tail)

theorem owned_asOneTyped {ts : List TypedForm} (h : OwnedFirst P results ts) :
    Owned P results [] [asOneTyped ts] := by
  have hts := h [] .nil
  rw [List.append_nil] at hts
  match ts with
  | [t] => exact hts
  | [] | _ :: _ :: _ => exact .block hts .nil

theorem owned_map_asOneTyped {ts : Option (List TypedForm)}
    (hts : ∀ us, ts = some us → OwnedFirst P results us) :
    ∀ t, ts.map asOneTyped = some t → Owned P results [] [t] := by
  intro t ht
  obtain ⟨us, hus, rfl⟩ := Option.map_eq_some_iff.1 ht
  exact owned_asOneTyped (hts us hus)

theorem ownedFirst_withInitTyped {ts : Option (List TypedForm)} {loop : TypedForm}
    (hts : ∀ us, ts = some us → OwnedFirst P results us) (hloop : OwnedFirst P results [loop]) :
    OwnedFirst P results [withInitTyped ts loop] := by
  cases ts with
  | none => exact hloop
  | some us =>
      intro tail htail
      exact .block (hts us rfl _ (hloop [] .nil)) htail

mutual
/-- The typed forms of a statement that respects kinds are owned. -/
theorem ownedFirst_ofStmt (hspares : P.sparesHelpers = true) (s : Stmt) {inLoop : Bool}
    {ts : List TypedForm} (h : TypedForm.ofStmt env results inLoop s = .ok ts)
    (hkinded : s.isKinded P env results = true) : OwnedFirst P results ts := by
  cases s with
  | expr e span =>
      obtain ⟨fs, hfs, h⟩ := lower_bind_ok h
      obtain ⟨f, hf, hfs⟩ := lower_bind_ok hfs
      cases hfs
      cases h
      intro tail htail
      have hvalue : f.isStatement = false := isStatement_of_isOperand (isOperand_everything hf)
      simp only [typedList, typed_of_isStatement hvalue]
      exact .value (every_tactful_of_areKinded hspares hf hkinded)
        (.weaken (List.nil_sublist _) htail)
  | decl keyword specs span =>
      cases keyword with
      | const =>
          cases h
          exact fun tail htail => htail
      | type => cases h
      | var =>
          exact fun tail htail => owned_ofSpecs hspares h (List.all_eq_true.1 hkinded) htail
  | assign lhs op rhs span =>
      obtain ⟨fs, hfs, h⟩ := lower_bind_ok h
      cases h
      simp only [Stmt.isKinded, Bool.and_eq_true, Bool.or_eq_true] at hkinded
      exact fun tail htail => owned_assignForms hspares hkinded.1.2 hfs
        (fun e he target htarget => List.mem_filterMap.2 ⟨e, he, htarget⟩)
        (respectsAll_of_areKinded hkinded.1.1) hkinded.2 htail
  | step direction target span =>
      obtain ⟨fs, hfs, h⟩ := lower_bind_ok h
      cases h
      simp only [Stmt.isKinded, Bool.and_eq_true] at hkinded
      exact fun tail htail => owned_stepForms hspares hkinded.2 hfs
        (fun pair hpair => Option.mem_toList.2 hpair)
        (respectsAll_of_areKinded hkinded.1 target (by simp)) htail
  | ret values span =>
      obtain ⟨fs, hfs, h⟩ := lower_bind_ok h
      cases h
      simp only [Stmt.isKinded, Bool.and_eq_true, decide_eq_true_eq] at hkinded
      exact fun tail _ => owned_returnForms hspares hfs (respectsAll_of_areKinded hkinded.1.1)
        hkinded.1.2 hkinded.2
  | block body span =>
      obtain ⟨ts, hts, h⟩ := lower_bind_ok h
      cases h
      have hbody := ownedFirst_ofStmts hspares body hts hkinded [] .nil
      rw [List.append_nil] at hbody
      exact fun tail htail => .block hbody htail
  | branch init cond body els span =>
      cases init with
      | some _ => cases h
      | none =>
          simp only [Stmt.isKinded, Bool.and_eq_true] at hkinded
          obtain ⟨c, hc, h⟩ := lower_bind_ok h
          obtain ⟨ts, hts, h⟩ := lower_bind_ok h
          obtain ⟨other, hother, h⟩ := lower_bind_ok h
          cases h
          have hcond := every_tactful_of_areKinded hspares hc hkinded.1.1
          have hbody := ownedFirst_ofStmts hspares body hts hkinded.1.2 [] .nil
          have hels := ownedFirst_ofOption hspares els hother hkinded.2
          rw [List.append_nil] at hbody
          exact fun tail htail => .branch hcond hbody (owned_map_asOneTyped hels) htail
  | loop init cond post body span =>
      simp only [Stmt.isKinded, Bool.and_eq_true] at hkinded
      obtain ⟨prepared, hprepared, h⟩ := lower_bind_ok h
      obtain ⟨c, hc, h⟩ := lower_bind_ok h
      obtain ⟨ts, hts, h⟩ := lower_bind_ok h
      obtain ⟨after, hafter, h⟩ := lower_bind_ok h
      cases h
      have hbody := ownedFirst_ofStmts hspares body hts hkinded.1.2 [] .nil
      have hpost := ownedFirst_ofOption hspares post hafter hkinded.2
      rw [List.append_nil] at hbody
      refine ownedFirst_withInitTyped (ownedFirst_ofOption hspares init hprepared hkinded.1.1.1)
        fun tail htail => .loop ?_ hbody (owned_map_asOneTyped hpost) htail
      cases cond with
      | none =>
          cases hc
          exact .of_isAtom rfl trivial
      | some e => exact every_tactful_of_areKinded hspares hc hkinded.1.1.2
  | breakLoop span =>
      obtain ⟨fs, hfs, h⟩ := lower_bind_ok h
      cases h
      cases inLoop with
      | true =>
          cases hfs
          exact fun tail _ => .breakLoop
      | false => cases hfs
  | continueLoop span =>
      obtain ⟨fs, hfs, h⟩ := lower_bind_ok h
      cases h
      cases inLoop with
      | true =>
          cases hfs
          exact fun tail _ => .continueLoop
      | false => cases hfs
termination_by structural s

theorem ownedFirst_ofStmts (hspares : P.sparesHelpers = true) (ss : List Stmt) {inLoop : Bool}
    {ts : List TypedForm} (h : TypedForm.ofStmts env results inLoop ss = .ok ts)
    (hkinded : Stmt.areKinded P env results ss = true) : OwnedFirst P results ts := by
  cases ss with
  | nil =>
      cases h
      exact fun tail htail => htail
  | cons s rest =>
      simp only [Stmt.areKinded, Bool.and_eq_true] at hkinded
      obtain ⟨first, hfirst, h⟩ := lower_bind_ok h
      obtain ⟨others, hothers, h⟩ := lower_bind_ok h
      cases h
      intro tail htail
      rw [List.append_assoc]
      exact ownedFirst_ofStmt hspares s hfirst hkinded.1 _
        (ownedFirst_ofStmts hspares rest hothers hkinded.2 tail htail)
termination_by structural ss

theorem ownedFirst_ofOption (hspares : P.sparesHelpers = true) (s? : Option Stmt) {inLoop : Bool}
    {ts? : Option (List TypedForm)} (h : TypedForm.ofOption env results inLoop s? = .ok ts?)
    (hkinded : Stmt.isKinded? P env results s? = true) :
    ∀ ts, ts? = some ts → OwnedFirst P results ts := by
  cases s? with
  | none =>
      cases h
      simp
  | some s =>
      obtain ⟨ts, hts, h⟩ := lower_bind_ok h
      cases h
      rintro _ ⟨⟩
      exact ownedFirst_ofStmt hspares s hts hkinded
termination_by structural s?
end

end

end StackCompiler
