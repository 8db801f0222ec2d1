import StackCompiler.Proofs.OperandShape

/-!
The shape of the forms that statements yield. They hold operands wherever values are asked for,
refer only to variables in scope, and jump only where a loop is around them. `ofStmt_spec` shows it
of every statement that is scoped.
-/

namespace StackCompiler

open Source

/-! ### Forms in their setting -/

/-- What surrounds a form: the variables in scope, whether a loop is around it, and whether loops
are held not to jump after their bodies. -/
structure Setting where
  visible : Scope
  inLoop : Bool
  strict : Bool

namespace Setting

def bind (names : List String) (c : Setting) : Setting :=
  { c with visible := c.visible.bind names }

def body (c : Setting) : Setting :=
  { c with inLoop := true }

/-- After the body of a loop, where the source still counts as what is around the loop. -/
def post (c : Setting) : Setting :=
  { c with inLoop := c.inLoop && !c.strict }

@[simp] theorem bind_nil (c : Setting) : c.bind [] = c := by
  simp [bind]

theorem bind_append (names names' : List String) (c : Setting) :
    c.bind (names' ++ names) = (c.bind names).bind names' := by
  simp [bind, Scope.bind_append]

end Setting

mutual
/-- Whether a form holds operands wherever it asks for values, refers to variables in scope, and
jumps only inside of loops. -/
def Form.fits (c : Setting) : Form → Bool
  | .block body => areFit c body
  | .branch cond body els => cond.isOperand c.visible && areFit c body && fits? c els
  | .loop cond body post => cond.isOperand c.visible && areFit c.body body && fits? c.post post
  | .ret results => areOperands c.visible results
  | .breakLoop | .continueLoop => c.inLoop
  | .bind _ value => value.isOperand c.visible
  | .rebind name value => c.visible name && value.isOperand c.visible
  | .set target index value =>
    target.isOperand c.visible && index.isOperand c.visible && value.isOperand c.visible
  | f => f.isOperand c.visible

/-- Whether forms in a row fit, each in the scope of the bindings before it. -/
def areFit (c : Setting) : List Form → Bool
  | [] => true
  | f :: fs => f.fits c && areFit (c.bind f.bound) fs

def fits? (c : Setting) : Option Form → Bool
  | none => true
  | some f => f.fits c
end

section

variable {env : Environment} {c : Setting} {visible : Scope} {f : Form} {fs gs : List Form}

theorem boundNames_append (fs gs : List Form) :
    boundNames (fs ++ gs) = boundNames gs ++ boundNames fs := by
  induction fs with
  | nil => simp [boundNames]
  | cons f fs ih => simp [boundNames, ih]

theorem areFit_append :
    areFit c (fs ++ gs) = true ↔
      areFit c fs = true ∧ areFit (c.bind (boundNames fs)) gs = true := by
  induction fs generalizing c with
  | nil => simp [areFit, boundNames]
  | cons f fs ih =>
      simp [areFit, boundNames, ih, Setting.bind_append, and_assoc]

theorem areFit_singleton : areFit c [f] = f.fits c := by
  simp [areFit]

/-- A form that is run for its value fits where it is an operand. -/
theorem fits_of_isOperand (h : f.isOperand c.visible = true) : f.fits c = true := by
  have hself := Form.isSound_of_isOperand h
  cases f with
  | block _ | branch _ _ _ | loop _ _ _ | ret _ | breakLoop | continueLoop | bind _ _ | rebind _ _
  | set _ _ _ => cases hself
  | _ => exact h

theorem isOperand_of_fits (hvalue : f.isStatement = false) (h : f.fits c = true) :
    f.isOperand c.visible = true := by
  cases f with
  | block _ | branch _ _ _ | loop _ _ _ | ret _ | breakLoop | continueLoop | bind _ _ | rebind _ _
  | set _ _ _ => cases hvalue
  | _ => exact h

theorem fits_asOne (h : areFit c fs = true) : (asOne fs).fits c = true := by
  match fs with
  | [] => rfl
  | [f] =>
      rw [areFit_singleton] at h
      exact h
  | f :: g :: rest => exact h

theorem fits?_asOne {fs? : Option (List Form)} (h : ∀ gs, fs? = some gs → areFit c gs = true) :
    fits? c (fs?.map asOne) = true := by
  cases fs? with
  | none => rfl
  | some gs => exact fits_asOne (h gs rfl)

/-! ### Assignments -/

namespace Target

def defined : Target → List String
  | define name => [name]
  | _ => []

def isScoped (visible : Scope) : Target → Bool
  | blank | define _ => true
  | assign name => visible name
  | element base at' => base.isScoped visible && at'.isScoped visible

theorem isScoped_mono {visible' : Scope} {t : Target}
    (hvisible : ∀ name, visible name = true → visible' name = true)
    (h : t.isScoped visible = true) : t.isScoped visible' = true := by
  cases t with
  | blank | define _ => rfl
  | assign name => exact hvisible name h
  | element base at' =>
      simp only [isScoped, Expr.isScoped, Bool.and_eq_true, List.all_eq_true] at h ⊢
      exact ⟨fun x hx => hvisible x (h.1 x hx), fun x hx => hvisible x (h.2 x hx)⟩

theorem ofExpr_spec {e : Expr} {t : Target} (h : ofExpr e = .ok t)
    (hscope : e.isScopedTarget visible = true) :
    t.isScoped visible = true ∧ e.defined = t.defined := by
  match e with
  | .ident name defines kind value span =>
      cases h
      by_cases hname : name = Source.blank
      · cases defines <;> simp [hname, isScoped, Expr.defined, defined]
      · cases defines with
        | true => simp [hname, isScoped, Expr.defined, defined]
        | false => simpa [hname, isScoped, Expr.defined, defined, Expr.isScopedTarget] using hscope
  | .index base at' kind span =>
      cases h
      exact ⟨hscope, rfl⟩
  | .paren inner span => exact ofExpr_spec (e := inner) h hscope
  | .lit _ _ _ | .binary _ _ _ _ _ | .unary _ _ _ _ | .call _ _ _ _ | .method _ _ _ _ _
  | .array _ _ _ => cases h

/-- A store fits, and a new variable is bound by it. -/
theorem store_spec {t : Target} {value : Form} (h : t.store env value = .ok fs)
    (hscope : t.isScoped c.visible = true) (hvalue : value.isOperand c.visible = true) :
    areFit c fs = true ∧ boundNames fs = t.defined := by
  cases t with
  | blank =>
      cases h
      split
      · exact ⟨rfl, rfl⟩
      · rw [areFit_singleton]
        have hbind : value.isBind = false := by
          have hself := Form.isSound_of_isOperand hvalue
          cases value with
          | bind _ _ => cases hself
          | _ => rfl
        exact ⟨fits_of_isOperand hvalue, by simp [boundNames, Form.bound_of_isBind hbind, defined]⟩
  | define name =>
      cases h
      exact ⟨by simpa [areFit, Form.fits] using hvalue, rfl⟩
  | assign name =>
      cases h
      refine ⟨?_, rfl⟩
      have hname : c.visible name = true := hscope
      simp [areFit, Form.fits, hname, hvalue]
  | element base at' =>
      simp only [isScoped, Bool.and_eq_true] at hscope
      obtain ⟨f, hf, h⟩ := lower_bind_ok h
      obtain ⟨i, hi, h⟩ := lower_bind_ok h
      cases h
      refine ⟨?_, rfl⟩
      simp [areFit, Form.fits, isOperand_ofExpr base hf hscope.1, isOperand_ofExpr at' hi hscope.2,
        hvalue]

end Target

/-- Whatever is in scope stays in scope. -/
theorem Setting.visible_bind {names : List String} (hvisible : ∀ name, visible name = true →
    c.visible name = true) (name : String) (h : visible name = true) :
    (c.bind names).visible name = true :=
  Scope.bind_eq_true.2 (.inr (hvisible name h))

theorem storeEach_spec {pairs : List (Target × Form)} (h : storeEach env pairs = .ok fs)
    (hvisible : ∀ name, visible name = true → c.visible name = true)
    (hpairs : ∀ pair ∈ pairs, pair.1.isScoped visible = true ∧ pair.2.isOperand visible = true) :
    areFit c fs = true ∧ ∀ pair ∈ pairs, ∀ name ∈ pair.1.defined, name ∈ boundNames fs := by
  induction pairs generalizing fs c with
  | nil =>
      cases h
      simp [areFit]
  | cons pair rest ih =>
      obtain ⟨t, value⟩ := pair
      rw [List.forall_mem_cons] at hpairs ⊢
      obtain ⟨first, hfirst, h⟩ := lower_bind_ok h
      obtain ⟨others, hothers, h⟩ := lower_bind_ok h
      cases h
      obtain ⟨hfit, hbound⟩ := Target.store_spec (c := c) hfirst
        (Target.isScoped_mono hvisible hpairs.1.1) (Form.isOperand_mono hvisible hpairs.1.2)
      obtain ⟨hfits, hbounds⟩ := ih hothers (c := c.bind (boundNames first))
        (Setting.visible_bind hvisible) hpairs.2
      refine ⟨areFit_append.2 ⟨hfit, hfits⟩, ?_, ?_⟩
      · intro name hname
        rw [boundNames_append, hbound]
        exact List.mem_append_right _ hname
      · intro pair hpair name hname
        rw [boundNames_append]
        exact List.mem_append_left _ (hbounds pair hpair name hname)

/-- Values are bound to temporaries, from which the stores then read them. -/
theorem storeThroughTemporaries_spec {pairs : List (Target × Form)} {position : Nat}
    (h : storeThroughTemporaries env position pairs = .ok (fs, gs))
    (hpairs : ∀ pair ∈ pairs, pair.1.isScoped visible = true ∧ pair.2.isOperand visible = true) :
    (∀ c : Setting, (∀ name, visible name = true → c.visible name = true) → areFit c fs = true) ∧
    (∀ c : Setting, (∀ name, visible name = true → c.visible name = true) →
      (∀ name ∈ boundNames fs, c.visible name = true) → areFit c gs = true) ∧
    ∀ pair ∈ pairs, ∀ name ∈ pair.1.defined, name ∈ boundNames gs := by
  induction pairs generalizing position fs gs with
  | nil =>
      cases h
      simp [areFit]
  | cons pair rest ih =>
      obtain ⟨t, value⟩ := pair
      rw [List.forall_mem_cons] at hpairs ⊢
      obtain ⟨⟨binds, stores⟩, hfirst, h⟩ := lower_bind_ok h
      obtain ⟨⟨moreBinds, moreStores⟩, hrest, h⟩ := lower_bind_ok h
      cases h
      obtain ⟨hmoreBinds, hmoreStores, hmoreBound⟩ := ih hrest hpairs.2
      unfold storeThroughTemporary at hfirst
      split at hfirst
      · rename_i hskip
        cases hfirst
        refine ⟨hmoreBinds, hmoreStores, ?_, hmoreBound⟩
        cases t with
        | blank => simp [Target.defined]
        | _ => cases hskip
      · obtain ⟨stored, hstored, hfirst⟩ := lower_bind_ok hfirst
        cases hfirst
        have hstores : ∀ c : Setting, (∀ name, visible name = true → c.visible name = true) →
            c.visible (temporary position) = true →
            areFit c stores = true ∧ boundNames stores = t.defined :=
          fun c hvisible htemporary => Target.store_spec hstored
            (Target.isScoped_mono hvisible hpairs.1.1) (by simpa using htemporary)
        have hbound := (hstores ⟨.everything, false, false⟩ (fun _ _ => rfl) rfl).2
        refine ⟨fun c hvisible => ?_, fun c hvisible hbinds => ?_, fun name hname => ?_,
          fun pair hpair name hname => ?_⟩
        · refine areFit_append.2 ⟨?_, hmoreBinds _ (Setting.visible_bind hvisible)⟩
          simpa [areFit, Form.fits] using Form.isOperand_mono hvisible hpairs.1.2
        · have htemporary := hbinds (temporary position) (by simp [boundNames, Form.bound])
          refine areFit_append.2 ⟨(hstores c hvisible htemporary).1,
            hmoreStores _ (Setting.visible_bind hvisible) fun name hname => ?_⟩
          refine Setting.visible_bind (fun _ hname => hname) name (hbinds name ?_)
          rw [List.singleton_append, boundNames]
          exact List.mem_append_left _ hname
        · rw [boundNames_append, hbound]
          exact List.mem_append_right _ hname
        · rw [boundNames_append]
          exact List.mem_append_left _ (hmoreBound pair hpair name hname)

theorem assignPairwise_spec {targets : List Target} {values : List Expr}
    (h : assignPairwise env targets values = .ok fs) (hlength : targets.length = values.length)
    (hvisible : ∀ name, visible name = true → c.visible name = true)
    (htargets : ∀ t ∈ targets, t.isScoped visible = true)
    (hvalues : Expr.areScoped visible values = true) :
    areFit c fs = true ∧ ∀ t ∈ targets, ∀ name ∈ t.defined, name ∈ boundNames fs := by
  obtain ⟨forms, hforms, h⟩ := lower_bind_ok h
  have hoperands := areOperands_ofStoredList values hforms hvalues
  have hpairs : ∀ pair ∈ targets.zip forms,
      pair.1.isScoped visible = true ∧ pair.2.isOperand visible = true := fun pair hpair =>
    ⟨htargets _ (List.of_mem_zip hpair).1, isOperand_of_mem hoperands (List.of_mem_zip hpair).2⟩
  have hzip : ∀ t ∈ targets, ∃ pair ∈ targets.zip forms, pair.1 = t := by
    intro t ht
    have hfst : (targets.zip forms).map Prod.fst = targets :=
      List.map_fst_zip (by rw [length_ofStoredList hforms, hlength])
    rw [← hfst] at ht
    exact List.mem_map.1 ht
  split at h
  · obtain ⟨⟨binds, stores⟩, hstores, h⟩ := lower_bind_ok h
    cases h
    obtain ⟨hbinds, hstored, hbound⟩ := storeThroughTemporaries_spec hstores hpairs
    have hboth : areFit c (binds ++ stores) = true := areFit_append.2 ⟨hbinds c hvisible,
      hstored _ (Setting.visible_bind hvisible) fun name hname => Scope.bind_eq_true.2 (.inl hname)⟩
    split
    · refine ⟨hboth, fun t ht name hname => ?_⟩
      obtain ⟨pair, hpair, rfl⟩ := hzip t ht
      rw [boundNames_append]
      exact List.mem_append_left _ (hbound pair hpair name hname)
    · rename_i hnone
      rw [areFit_singleton]
      refine ⟨hboth, fun t ht name hname => absurd ?_ hnone⟩
      -- a target that defines a variable would leave it to the statements that follow
      cases t with
      | define x => exact List.any_eq_true.2 ⟨_, ht, rfl⟩
      | _ => cases hname
  · obtain ⟨hfit, hbound⟩ := storeEach_spec h hvisible hpairs
    refine ⟨hfit, fun t ht name hname => ?_⟩
    obtain ⟨pair, hpair, rfl⟩ := hzip t ht
    exact hbound pair hpair name hname

/-- The results after the first are read in order, and none of them is the first. -/
theorem resultRefs_spec (visible : Scope) (targets : List Target) {index : Nat}
    (hindex : index ≠ 0) :
    (resultRefs index targets).map (·.1) = targets ∧
      ∀ pair ∈ resultRefs index targets, pair.2.isOperand visible = true := by
  induction targets generalizing index with
  | nil => simp [resultRefs]
  | cons t ts ih =>
      obtain ⟨hfst, hoperands⟩ := ih (Nat.succ_ne_zero index)
      simp only [resultRefs, List.map_cons, hfst, List.forall_mem_cons, true_and]
      exact ⟨by simpa using hindex, hoperands⟩

theorem destructure_spec {targets : List Target} {call : Expr}
    (h : destructure env targets call = .ok fs)
    (hvisible : ∀ name, visible name = true → c.visible name = true)
    (htargets : ∀ t ∈ targets, t.isScoped visible = true)
    (hcall : call.isScoped visible = true) :
    areFit c fs = true ∧ ∀ t ∈ targets, ∀ name ∈ t.defined, name ∈ boundNames fs := by
  unfold destructure at h
  split at h
  · cases h
    simp [areFit]
  · rename_i first rest
    split at h
    · cases h
    · obtain ⟨value, hvalue, h⟩ := lower_bind_ok h
      obtain ⟨hfst, hoperands⟩ := resultRefs_spec visible rest (Nat.one_ne_zero)
      rw [List.forall_mem_cons] at htargets
      obtain ⟨hfit, hbound⟩ := storeEach_spec h hvisible (List.forall_mem_cons.2
        ⟨⟨htargets.1, isOperand_ofExpr call hvalue hcall⟩, fun pair hpair =>
          ⟨htargets.2 _ (hfst ▸ List.mem_map_of_mem hpair), hoperands pair hpair⟩⟩)
      rw [List.forall_mem_cons] at hbound ⊢
      refine ⟨hfit, hbound.1, fun t ht name hname => ?_⟩
      rw [← hfst] at ht
      obtain ⟨pair, hpair, rfl⟩ := List.mem_map.1 ht
      exact hbound.2 pair hpair name hname

theorem assignValues_spec {targets : List Target} {values : List Expr} {span : Span}
    (h : assignValues env targets values span = .ok fs)
    (hvisible : ∀ name, visible name = true → c.visible name = true)
    (htargets : ∀ t ∈ targets, t.isScoped visible = true)
    (hvalues : Expr.areScoped visible values = true) :
    areFit c fs = true ∧ ∀ t ∈ targets, ∀ name ∈ t.defined, name ∈ boundNames fs := by
  unfold assignValues at h
  split at h
  · exact assignPairwise_spec h ‹_› hvisible htargets hvalues
  · split at h
    · split at h
      · split at h
        · refine destructure_spec h hvisible htargets ?_
          simpa [Expr.areScoped, Expr.isScoped, Expr.readsAll] using hvalues
        · cases h
      · cases h
    · cases h

/-! ### Statements -/

theorem isOperand_zeroValue {kind : Kind} {span : Span} (h : zeroValue kind span = .ok f) :
    f.isOperand visible = true := by
  cases kind with
  | scalar s =>
      cases h
      exact isOperand_zero s
  | slice _ =>
      cases h
      rfl
  | array elem length =>
      cases h
      exact isOperand_zeroArray elem length
  | void | tuple _ => cases h

theorem bindZeros_spec {kind : Kind} {span : Span} {names : List String}
    (h : bindZeros kind span names = .ok fs) :
    areFit c fs = true ∧ ∀ name ∈ names.filter (· ≠ Source.blank), name ∈ boundNames fs := by
  induction names generalizing fs c with
  | nil =>
      cases h
      simp [areFit]
  | cons name names ih =>
      unfold bindZeros at h
      split at h
      · rename_i hblank
        simpa [hblank] using ih h
      · rename_i hname
        obtain ⟨zero, hzero, h⟩ := lower_bind_ok h
        obtain ⟨others, hothers, h⟩ := lower_bind_ok h
        cases h
        obtain ⟨hfit, hbound⟩ := ih (c := c.bind [name]) hothers
        rw [List.filter_cons_of_pos (by simpa using hname), List.forall_mem_cons]
        refine ⟨?_, ?_, fun x hx => ?_⟩
        · simp only [areFit, Form.fits, Form.bound, isOperand_zeroValue hzero, Bool.true_and]
          exact hfit
        · simp [boundNames, Form.bound]
        · rw [boundNames]
          exact List.mem_append_left _ (hbound x hx)

theorem specForms_spec {spec : ValueSpec} (h : specForms env spec = .ok fs)
    (hvisible : ∀ name, visible name = true → c.visible name = true)
    (hscope : Expr.areScoped visible spec.values = true) :
    areFit c fs = true ∧ ∀ name ∈ spec.defined, name ∈ boundNames fs := by
  unfold specForms at h
  split at h
  · exact bindZeros_spec h
  · have htargets : ∀ t ∈ spec.names.map Target.ofName, t.isScoped visible = true := by
      intro t ht
      obtain ⟨name, -, rfl⟩ := List.mem_map.1 ht
      unfold Target.ofName
      split <;> rfl
    obtain ⟨hfit, hbound⟩ := assignValues_spec h hvisible htargets hscope
    refine ⟨hfit, fun name hname => ?_⟩
    obtain ⟨hname, hblank⟩ := List.mem_filter.1 hname
    refine hbound _ (List.mem_map_of_mem hname) name ?_
    simp [Target.ofName, show name ≠ Source.blank by simpa using hblank, Target.defined]

theorem specsForms_spec {specs : List ValueSpec} (h : specsForms env specs = .ok fs)
    (hvisible : ∀ name, visible name = true → c.visible name = true)
    (hscope : ValueSpec.areScoped visible specs = true) :
    areFit c fs = true ∧ ∀ name ∈ ValueSpec.definedAll specs, name ∈ boundNames fs := by
  induction specs generalizing fs c visible with
  | nil =>
      cases h
      simp [areFit, ValueSpec.definedAll]
  | cons spec rest ih =>
      simp only [ValueSpec.areScoped, Bool.and_eq_true] at hscope
      obtain ⟨first, hfirst, h⟩ := lower_bind_ok h
      obtain ⟨others, hothers, h⟩ := lower_bind_ok h
      cases h
      obtain ⟨hfit, hbound⟩ := specForms_spec hfirst hvisible hscope.1
      have hvisible' : ∀ name, visible.bind spec.defined name = true →
          (c.bind (boundNames first)).visible name = true := fun name hname =>
        Scope.bind_eq_true.2 ((Scope.bind_eq_true.1 hname).imp (hbound name) (hvisible name))
      obtain ⟨hfits, hbounds⟩ := ih hothers hvisible' hscope.2
      refine ⟨areFit_append.2 ⟨hfit, hfits⟩, fun name hname => ?_⟩
      rw [ValueSpec.definedAll, List.flatMap_cons, List.mem_append] at hname
      rw [boundNames_append, List.mem_append]
      exact hname.symm.imp (hbounds name) (hbound name)

theorem targetsOf_spec {lhs : List Expr} {targets : List Target} (h : targetsOf lhs = .ok targets)
    (hscope : ∀ e ∈ lhs, e.isScopedTarget visible = true) :
    (∀ t ∈ targets, t.isScoped visible = true) ∧
      lhs.flatMap Expr.defined = targets.flatMap Target.defined := by
  induction lhs generalizing targets with
  | nil =>
      cases h
      simp
  | cons e es ih =>
      rw [List.forall_mem_cons] at hscope
      obtain ⟨t, ht, h⟩ := lower_bind_ok h
      obtain ⟨ts, hts, h⟩ := lower_bind_ok h
      cases h
      obtain ⟨hscoped, hdefined⟩ := Target.ofExpr_spec ht hscope.1
      obtain ⟨hscopes, hdefineds⟩ := ih hts hscope.2
      rw [List.forall_mem_cons, List.flatMap_cons, List.flatMap_cons, hdefined, hdefineds]
      exact ⟨⟨hscoped, hscopes⟩, rfl⟩

theorem assignForms_spec {lhs rhs : List Expr} {op : AssignOp} {span : Span}
    (h : assignForms env lhs op rhs span = .ok fs)
    (hvisible : ∀ name, visible name = true → c.visible name = true)
    (hscope : (Stmt.assign lhs op rhs span).isScoped visible = true) :
    areFit c fs = true ∧ ∀ name ∈ lhs.flatMap Expr.defined, name ∈ boundNames fs := by
  simp only [Stmt.isScoped, Bool.and_eq_true, List.all_eq_true, Bool.or_eq_true] at hscope
  obtain ⟨⟨hlhs, hrhs⟩, hreads⟩ := hscope
  obtain ⟨targets, htargets, h⟩ := lower_bind_ok h
  obtain ⟨hscoped, hdefined⟩ := targetsOf_spec htargets hlhs
  rw [hdefined]
  simp only [List.mem_flatMap, forall_exists_index, and_imp]
  split at h
  · obtain ⟨hfit, hbound⟩ := assignValues_spec h hvisible hscoped hrhs
    exact ⟨hfit, fun name t ht hname => hbound t ht name hname⟩
  · rename_i binary hbinary
    split at h
    · rename_i target left right _
      obtain ⟨current, hcurrent, h⟩ := lower_bind_ok h
      obtain ⟨operand, hoperand, h⟩ := lower_bind_ok h
      obtain ⟨value, hvalue, h⟩ := lower_bind_ok h
      simp only [hbinary, Option.isNone_some, Bool.false_eq_true, false_or, Expr.areScoped,
        Expr.readsAll, List.append_nil] at hreads hrhs
      have hleft : current.isOperand visible = true := isOperand_ofExpr left hcurrent hreads
      have hright : operand.isOperand visible = true := isOperand_ofExpr right hoperand hrhs
      obtain ⟨hfit, hbound⟩ := Target.store_spec (c := c) h
        (Target.isScoped_mono hvisible (hscoped target (by simp)))
        (Form.isOperand_mono hvisible (isOperand_ofBinary hleft hright hvalue))
      refine ⟨hfit, fun name t ht hname => ?_⟩
      rw [List.mem_singleton] at ht
      rw [hbound, ← ht]
      exact hname
    · cases h

theorem stepForms_spec {direction : Step} {target : Expr} {span : Span}
    (h : stepForms env direction target span = .ok fs)
    (hvisible : ∀ name, visible name = true → c.visible name = true)
    (hscope : (Stmt.step direction target span).isScoped visible = true) :
    areFit c fs = true ∧ ∀ name ∈ target.defined, name ∈ boundNames fs := by
  simp only [Stmt.isScoped, Bool.and_eq_true] at hscope
  unfold stepForms at h
  split at h
  · cases h
  · rename_i family one hunit
    obtain ⟨t, ht, h⟩ := lower_bind_ok h
    obtain ⟨current, hcurrent, h⟩ := lower_bind_ok h
    obtain ⟨hscoped, hdefined⟩ := Target.ofExpr_spec ht hscope.1
    have hone : one.isOperand c.visible = true := by
      unfold unit? at hunit
      split at hunit <;> cases hunit <;> rfl
    have hcount : direction.opKind.admits 2 = true := by cases direction <;> rfl
    have hcurrent := Form.isOperand_mono hvisible (isOperand_ofExpr target hcurrent hscope.2)
    obtain ⟨hfit, hbound⟩ := Target.store_spec h (Target.isScoped_mono hvisible hscoped)
      (by simp [hcount, hcurrent, hone])
    exact ⟨hfit, by simp [hdefined, hbound]⟩

mutual
/-- Where nothing jumps, it makes no difference whether a loop is around. -/
theorem ofStmt_of_not_jumps (b b' : Bool) (s : Stmt) (h : s.jumps = false) :
    Block.ofStmt env b s = Block.ofStmt env b' s := by
  cases s with
  | expr _ _ | decl _ _ _ | assign _ _ _ _ | step _ _ _ | ret _ _ => rfl
  | block body span => simp only [Block.ofStmt, ofStmts_of_not_jumps b b' body h]
  | branch init cond body els span =>
      simp only [Stmt.jumps, Bool.or_eq_false_iff] at h
      cases init with
      | some s => rfl
      | none =>
          rw [ofStmt_branch, ofStmt_branch, ofStmts_of_not_jumps b b' body h.1.2,
            ofOption_of_not_jumps b b' els h.2]
  | loop init cond post body span =>
      simp only [Stmt.jumps, Bool.or_eq_false_iff] at h
      rw [ofStmt_loop, ofStmt_loop, ofOption_of_not_jumps b b' init h.1.1,
        ofOption_of_not_jumps b b' post h.1.2]
  | breakLoop _ | continueLoop _ => cases h

theorem ofStmts_of_not_jumps (b b' : Bool) (ss : List Stmt) (h : Stmt.jumpsAny ss = false) :
    Block.ofStmts env b ss = Block.ofStmts env b' ss := by
  match ss with
  | [] => rfl
  | s :: rest =>
      simp only [Stmt.jumpsAny, Bool.or_eq_false_iff] at h
      simp only [Block.ofStmts, ofStmt_of_not_jumps b b' s h.1, ofStmts_of_not_jumps b b' rest h.2]

theorem ofOption_of_not_jumps (b b' : Bool) (s? : Option Stmt)
    (h : Stmt.jumpsOption s? = false) : Block.ofOption env b s? = Block.ofOption env b' s? := by
  match s? with
  | none => rfl
  | some s => simp only [Block.ofOption, ofStmt_of_not_jumps b b' s h]
end

theorem isOperand_ofCondition {cond : Option Expr} (h : Form.ofCondition env cond = .ok f)
    (hscope : cond.all (·.isScoped visible) = true) : f.isOperand visible = true := by
  cases cond with
  | none =>
      cases h
      rfl
  | some e => exact isOperand_ofExpr e h hscope

def preparedNames : Option (List Form) → List String
  | none => []
  | some gs => boundNames gs

theorem fits_withInit {prepared : Option (List Form)} {loop : Form}
    (hprepared : ∀ gs, prepared = some gs → areFit c gs = true)
    (hloop : loop.fits (c.bind (preparedNames prepared)) = true) :
    (withInit prepared loop).fits c = true := by
  cases prepared with
  | none =>
      rw [preparedNames, Setting.bind_nil] at hloop
      exact hloop
  | some gs =>
      refine areFit_append.2 ⟨hprepared gs rfl, ?_⟩
      rw [areFit_singleton]
      exact hloop

mutual
/-- The forms of a scoped statement fit, and its variables are bound by them. -/
theorem ofStmt_spec (s : Stmt) {fs : List Form} {c : Setting} {visible : Scope}
    (h : Block.ofStmt env c.inLoop s = .ok fs) (hscope : s.isScoped visible = true)
    (hvisible : ∀ name, visible name = true → c.visible name = true)
    (hposts : c.strict = true → s.postsStay = true) :
    areFit c fs = true ∧ ∀ name ∈ s.defined, name ∈ boundNames fs := by
  cases s with
  | expr e span =>
      obtain ⟨f, hf, h⟩ := lower_bind_ok h
      cases h
      rw [areFit_singleton]
      exact ⟨fits_of_isOperand (Form.isOperand_mono hvisible (isOperand_ofExpr e hf hscope)),
        by simp [Stmt.defined]⟩
  | decl keyword specs span =>
      cases keyword with
      | var => exact specsForms_spec h hvisible hscope
      | const =>
          cases h
          exact ⟨rfl, by simp [Stmt.defined]⟩
      | type => cases h
  | assign targets op values span => exact assignForms_spec h hvisible hscope
  | step direction target span => exact stepForms_spec h hvisible hscope
  | ret results span =>
      simp only [Block.ofStmt, returnForms] at h
      split at h
      · cases h
      · obtain ⟨fs, hfs, h⟩ := lower_bind_ok h
        cases h
        rw [areFit_singleton]
        refine ⟨?_, by simp [Stmt.defined]⟩
        have hoperands := areOperands_ofStoredList results hfs hscope
        exact List.all_eq_true.2 fun g hg =>
          Form.isSound_mono hvisible (List.all_eq_true.1 hoperands g hg)
  | block body span =>
      obtain ⟨fs, hfs, h⟩ := lower_bind_ok h
      cases h
      rw [areFit_singleton]
      exact ⟨areFit_ofStmts body hfs hscope hvisible hposts, by simp [Stmt.defined]⟩
  | branch init cond body els span =>
      cases init with
      | some s =>
          simp only [Block.ofStmt] at h
          cases h
      | none =>
          rw [ofStmt_branch] at h
          obtain ⟨f, hf, h⟩ := lower_bind_ok h
          obtain ⟨fs, hfs, h⟩ := lower_bind_ok h
          obtain ⟨other, hother, h⟩ := lower_bind_ok h
          cases h
          simp only [Stmt.isScoped, Stmt.isScopedOption, Stmt.definedOption, Scope.bind_nil,
            Bool.true_and, Bool.and_eq_true] at hscope
          simp only [Stmt.postsStay, Stmt.postsStayOption, Bool.true_and, Bool.and_eq_true]
            at hposts
          have hcond := Form.isOperand_mono hvisible (isOperand_ofExpr cond hf hscope.1.1)
          have hbody := areFit_ofStmts body hfs hscope.1.2 hvisible fun hs => (hposts hs).1
          obtain ⟨hels, -⟩ := ofOption_spec els hother hscope.2 hvisible fun hs => (hposts hs).2
          refine ⟨?_, by simp [Stmt.defined]⟩
          rw [areFit_singleton]
          simp [Form.fits, hcond, hbody, fits?_asOne hels]
  | loop init cond post body span =>
      rw [ofStmt_loop] at h
      obtain ⟨prepared, hprepared, h⟩ := lower_bind_ok h
      obtain ⟨f, hf, h⟩ := lower_bind_ok h
      obtain ⟨fs, hfs, h⟩ := lower_bind_ok h
      obtain ⟨after, hafter, h⟩ := lower_bind_ok h
      cases h
      simp only [Stmt.isScoped, Bool.and_eq_true] at hscope
      simp only [Stmt.postsStay, Bool.and_eq_true, Bool.not_eq_true'] at hposts
      obtain ⟨hfit, hbound⟩ := ofOption_spec init hprepared hscope.1.1.1 hvisible
        fun hs => (hposts hs).1.1.1
      have hvisible' : ∀ name, visible.bind (Stmt.definedOption init) name = true →
          (c.bind (preparedNames prepared)).visible name = true := fun name hname =>
        Scope.bind_eq_true.2 ((Scope.bind_eq_true.1 hname).imp (hbound name) (hvisible name))
      -- a strict setting takes the loop away from around what follows the body
      have hafter' : Block.ofOption env (c.inLoop && !c.strict) post = .ok after := by
        cases hstrict : c.strict with
        | false => simpa using hafter
        | true =>
            rw [← hafter]
            exact ofOption_of_not_jumps _ _ post (hposts hstrict).1.2
      have hcond := Form.isOperand_mono hvisible' (isOperand_ofCondition hf hscope.1.1.2)
      have hbody := areFit_ofStmts body (c := (c.bind (preparedNames prepared)).body) hfs
        hscope.1.2 hvisible' fun hs => (hposts hs).1.1.2
      obtain ⟨hpost, -⟩ := ofOption_spec post (c := (c.bind (preparedNames prepared)).post) hafter'
        hscope.2 hvisible' fun hs => (hposts hs).2
      refine ⟨?_, by simp [Stmt.defined]⟩
      rw [areFit_singleton]
      exact fits_withInit hfit (by simp [Form.fits, hcond, hbody, fits?_asOne hpost])
  | breakLoop span | continueLoop span =>
      simp only [Block.ofStmt] at h
      split at h
      · cases h
        rw [areFit_singleton]
        exact ⟨‹_›, by simp [Stmt.defined]⟩
      · cases h

theorem areFit_ofStmts (ss : List Stmt) {fs : List Form} {c : Setting} {visible : Scope}
    (h : Block.ofStmts env c.inLoop ss = .ok fs) (hscope : Stmt.areScoped visible ss = true)
    (hvisible : ∀ name, visible name = true → c.visible name = true)
    (hposts : c.strict = true → Stmt.postsStayAll ss = true) : areFit c fs = true := by
  match ss with
  | [] =>
      cases h
      rfl
  | s :: rest =>
      simp only [Stmt.areScoped, Bool.and_eq_true] at hscope
      simp only [Stmt.postsStayAll, Bool.and_eq_true] at hposts
      obtain ⟨first, hfirst, h⟩ := lower_bind_ok h
      obtain ⟨others, hothers, h⟩ := lower_bind_ok h
      cases h
      obtain ⟨hfit, hbound⟩ := ofStmt_spec s hfirst hscope.1 hvisible fun hs => (hposts hs).1
      refine areFit_append.2 ⟨hfit, areFit_ofStmts rest (c := c.bind (boundNames first)) hothers
        hscope.2 (fun name hname => ?_) fun hs => (hposts hs).2⟩
      exact Scope.bind_eq_true.2 ((Scope.bind_eq_true.1 hname).imp (hbound name) (hvisible name))

theorem ofOption_spec (s? : Option Stmt) {fs? : Option (List Form)} {c : Setting}
    {visible : Scope} (h : Block.ofOption env c.inLoop s? = .ok fs?)
    (hscope : Stmt.isScopedOption visible s? = true)
    (hvisible : ∀ name, visible name = true → c.visible name = true)
    (hposts : c.strict = true → Stmt.postsStayOption s? = true) :
    (∀ gs, fs? = some gs → areFit c gs = true) ∧
      ∀ name ∈ Stmt.definedOption s?, name ∈ preparedNames fs? := by
  match s? with
  | none =>
      cases h
      simp [Stmt.definedOption]
  | some s =>
      obtain ⟨fs, hfs, h⟩ := lower_bind_ok h
      cases h
      obtain ⟨hfit, hbound⟩ := ofStmt_spec s hfs hscope hvisible hposts
      exact ⟨fun gs hgs => by cases hgs; exact hfit, hbound⟩
end

end

end StackCompiler
