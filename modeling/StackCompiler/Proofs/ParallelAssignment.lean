import Mathlib.Data.List.Nodup
import Mathlib.Data.List.Perm.Subperm
import StackCompiler.Proofs.Assignment

/-!
Assignments to several variables at once. All values are found before the first variable changes, so
that each variable ends with its own value even if a value reads what the statement stores into.
`parallel_assignment` says this of every statement that names only variables on the left, whether
its values go through temporaries or not.
-/

namespace StackCompiler

open Source

/-! ### Names of temporaries -/

/-- Whether a name starts as those of temporaries do, which no name of source does. -/
def isMarked (name : String) : Bool :=
  name.toList.head? == some '#'

def unmarked : Scope := fun name => !isMarked name

theorem isMarked_temporary (position : Nat) : isMarked (temporary position) = true := by
  simp [isMarked, toList_temporary]

section

variable {R : Runtime} {top ρ ρ' : Env R} {name : String} {f : Form}

theorem notMem_names_of_isMarked (htop : ∀ x ∈ top.names, isMarked x = true)
    (hname : isMarked name = false) : name ∉ top.names := by
  intro hmem
  rw [htop name hmem] at hname
  cases hname

theorem Env.lookup_append_of_notMem (h : name ∉ top.names) (ρ : Env R) :
    (top ++ ρ).lookup name = ρ.lookup name := by
  have hnone : top.lookup name = none := by
    refine List.lookup_eq_none_iff.2 fun entry hentry => ?_
    have hne : name ≠ entry.1 := fun heq => h (heq ▸ List.mem_map_of_mem hentry)
    simpa using hne
  rw [List.lookup_append, hnone, Option.none_or]

theorem Env.update?_append_of_notMem (h : name ∉ top.names) (v : R.Value) (ρ : Env R) :
    Env.update? name v (top ++ ρ) = (ρ.update? name v).map (top ++ ·) := by
  induction top with
  | nil => simp
  | cons entry top ih =>
      obtain ⟨x, old⟩ := entry
      simp only [names, List.map_cons, List.mem_cons, not_or] at h
      rw [List.cons_append, update?, if_neg (Ne.symm h.1), ih h.2, Option.map_map]
      rfl

/-- What reads no marked names does not see temporaries. -/
theorem evalValue_append_of_isOperand (hf : f.isOperand unmarked = true)
    (htop : ∀ x ∈ top.names, isMarked x = true) :
    evalValue R (top ++ ρ) f = evalValue R ρ f := by
  refine evalValue_congr f fun g hg name hname => ?_
  have hsound := List.all_eq_true.1 hf g hg
  have hmarked : isMarked name = false := by simpa [hname, Form.isSound, unmarked] using hsound
  exact Env.lookup_append_of_notMem (notMem_names_of_isMarked htop hmarked) ρ

end

/-! ### Values of expressions -/

section

variable {env : Environment} {f g : Form}

def Form.isResultRef : Form → Bool
  | .resultRef _ => true
  | _ => false

theorem isResultRef_of_isAtom (h : f.isAtom = true) : f.isResultRef = false := by
  cases f with
  | resultRef _ => cases h
  | _ => rfl

theorem isResultRef_applyOp (kind : OpKind) (family : Family) :
    (Form.applyOp kind family f g).isResultRef = false := by
  unfold Form.applyOp
  split
  · split <;> rfl
  · rfl

theorem isResultRef_ofBinary {op : BinaryOp} {family? : Option Family} {left right : Form}
    {span : Span} (h : Form.ofBinary op family? left right span = .ok f) :
    f.isResultRef = false := by
  unfold Form.ofBinary at h
  split at h
  · cases h
    rfl
  · cases h
    rfl
  · split at h
    · cases h
    · split at h
      · cases h
        exact isResultRef_applyOp _ _
      · unfold Form.ofIdentityTest at h
        split at h <;> cases h <;> rfl

theorem isResultRef_asStored {e : Expr} (h : f.isResultRef = false) :
    (asStored e f).isResultRef = false := by
  unfold asStored
  split
  · rfl
  · exact h

mutual
/-- No expression stands for a result that a call has left. -/
theorem isResultRef_ofExpr (e : Expr) {f : Form} (h : Form.ofExpr env e = .ok f) :
    f.isResultRef = false := by
  cases e with
  | lit v kind span =>
      cases h
      exact isResultRef_of_isAtom (isAtom_ofLiteral v kind)
  | ident name defines kind value span =>
      cases value with
      | some v =>
          cases h
          exact isResultRef_of_isAtom (isAtom_ofLiteral v kind)
      | none =>
          simp only [Form.ofExpr] at h
          split at h <;> cases h
          rfl
  | binary op left right kind span =>
      obtain ⟨l, -, h⟩ := lower_bind_ok h
      obtain ⟨r, -, h⟩ := lower_bind_ok h
      exact isResultRef_ofBinary h
  | unary op operand kind span =>
      by_cases hplus : op = .plus
      · subst hplus
        exact isResultRef_ofExpr operand h
      · by_cases hnot : op = .not
        · subst hnot
          obtain ⟨f, -, h⟩ := lower_bind_ok h
          cases h
          rfl
        · obtain ⟨v, -, -, -, rfl⟩ | ⟨x, -, -, rfl⟩ | ⟨sign, family, f, -, -, rfl⟩ :=
            ExprAgrees.ofExpr_unary_cases h hplus hnot <;> rfl
  | call callee args kind span =>
      cases ofExpr_call h with
      | wrap _ _ heq harg =>
          -- only this call is nothing but its argument
          exact isResultRef_of_mem args _ (heq ▸ List.mem_singleton_self _) harg
      | _ => rfl
  | method receiver name args kind span =>
      obtain ⟨host, g, -, -, -, rfl⟩ := ofExpr_method h
      rfl
  | index base at' kind span =>
      obtain ⟨b, -, h⟩ := lower_bind_ok h
      obtain ⟨i, -, h⟩ := lower_bind_ok h
      cases h
      rfl
  | array elems kind span =>
      obtain ⟨elem, declared, stores, -, rfl⟩ := ofExpr_array h
      simp only [Form.ofStores]
      split <;> rfl
  | paren inner span => exact isResultRef_ofExpr inner h
termination_by structural e

theorem isResultRef_of_mem (es : List Expr) : ∀ e ∈ es, ∀ {f}, Form.ofExpr env e = .ok f →
    f.isResultRef = false := by
  cases es with
  | nil => simp
  | cons e es =>
      rw [List.forall_mem_cons]
      exact ⟨fun h => isResultRef_ofExpr e h, isResultRef_of_mem es⟩
termination_by structural es
end

theorem isResultRef_ofStoredList {es : List Expr} {fs : List Form}
    (h : Form.ofStoredList env es = .ok fs) : ∀ f ∈ fs, f.isResultRef = false := by
  induction es generalizing fs with
  | nil =>
      cases h
      simp
  | cons e es ih =>
      obtain ⟨f, hf, h⟩ := lower_bind_ok h
      obtain ⟨others, hothers, h⟩ := lower_bind_ok h
      cases h
      exact List.forall_mem_cons.2 ⟨isResultRef_asStored (isResultRef_ofExpr e hf), ih hothers⟩

end

/-! ### What stores leave behind -/

section

variable {R : Runtime} {ρ ρ' : Env R} {w w' : World R} {name : String} {v : R.Value}

/-- What is left of an environment and a world after each of the changes was made: a variable of
the environment changes in its latest binding, and the host has all other variables. -/
structure Assigned (changes : List (String × R.Value)) (ρ : Env R) (w : World R) (ρ' : Env R)
    (w' : World R) : Prop where
  names : ρ'.names = ρ.names
  stored : ∀ change ∈ changes, evalValue R ρ' (.var change.1) w' = .ok change.2 w'
  others : ∀ x, x ∉ changes.map (·.1) → ρ'.lookup x = ρ.lookup x
  bindings : ∀ i x u, ρ[i]? = some (x, u) → x ∉ changes.map (·.1) ∨ x ∈ Env.names (ρ.take i) →
    ρ'[i]? = some (x, u)
  dynamic : ∀ x, x ∉ changes.map (·.1) ∨ x ∈ ρ.names → w'.store.vars x = w.store.vars x
  heap : w'.store.heap = w.store.heap
  calls : w'.calls = w.calls

theorem Env.lookup_self_of_update? (h : ρ.update? name v = some ρ') :
    ρ'.lookup name = some v := by
  induction ρ generalizing ρ' with
  | nil => cases h
  | cons entry ρ ih =>
      obtain ⟨x, old⟩ := entry
      simp only [update?] at h
      split at h
      · rename_i hx
        cases h
        simp [hx]
      · rename_i hx
        obtain ⟨tail, htail, rfl⟩ := Option.map_eq_some_iff.1 h
        rw [List.lookup_cons, beq_false_of_ne (Ne.symm hx), ih htail]

theorem Env.notMem_names_of_update?_eq_none (h : ρ.update? name v = none) :
    name ∉ ρ.names := by
  intro hmem
  obtain ⟨u, hu⟩ := Env.lookup_of_mem hmem
  rw [Env.lookup_of_update?_eq_none h] at hu
  cases hu

/-- Only the latest binding of a variable changes. -/
theorem Env.getElem?_of_update? (h : ρ.update? name v = some ρ') {i : Nat} {x : String}
    {u : R.Value} (hi : ρ[i]? = some (x, u)) (hx : x ≠ name ∨ x ∈ Env.names (ρ.take i)) :
    ρ'[i]? = some (x, u) := by
  induction ρ generalizing ρ' i with
  | nil => cases h
  | cons entry ρ ih =>
      obtain ⟨y, old⟩ := entry
      simp only [update?] at h
      split at h
      · cases h
        cases i with
        | zero =>
            cases hi
            simp_all [names]
        | succ i => exact hi
      · rename_i hy
        obtain ⟨tail, htail, rfl⟩ := Option.map_eq_some_iff.1 h
        cases i with
        | zero => exact hi
        | succ i =>
            refine ih htail hi ?_
            rcases hx with hx | hx
            · exact .inl hx
            · rw [List.take_succ_cons, names, List.map_cons, List.mem_cons] at hx
              rcases hx with rfl | hx
              · exact .inl hy
              · exact .inr hx

namespace Assigned

theorem nil (ρ : Env R) (w : World R) : Assigned [] ρ w ρ w where
  names := rfl
  stored := by simp
  others _ _ := rfl
  bindings _ _ _ h _ := h
  dynamic _ _ := rfl
  heap := rfl
  calls := rfl

variable {changes : List (String × R.Value)} {σ : Env R} {w₁ : World R}

/-- A variable keeps its value while others change. -/
theorem evalValue_of_notMem (h : Assigned changes ρ w ρ' w') (hname : name ∉ changes.map (·.1))
    (hvalue : evalValue R ρ (.var name) w = .ok v w) :
    evalValue R ρ' (.var name) w' = .ok v w' := by
  have hlookup := h.others name hname
  simp only [evalValue] at hvalue ⊢
  rw [hlookup]
  cases hρ : ρ.lookup name with
  | some u =>
      rw [hρ] at hvalue
      obtain ⟨rfl, -⟩ := pure_eq_ok.1 hvalue
      rfl
  | none =>
      rw [hρ] at hvalue
      cases hvalue
      show EStateM.Result.ok (w'.store.vars name) w' = _
      rw [h.dynamic name (.inl hname)]

/-- A change in the environment, then others. -/
theorem update (hupdate : ρ.update? name v = some σ) (h : Assigned changes σ w ρ' w')
    (hname : name ∉ changes.map (·.1)) : Assigned ((name, v) :: changes) ρ w ρ' w' where
  names := h.names.trans (Env.names_of_update? hupdate)
  stored := by
    refine List.forall_mem_cons.2 ⟨h.evalValue_of_notMem hname ?_, h.stored⟩
    simp only [evalValue, Env.lookup_self_of_update? hupdate]
    rfl
  others x hx := by
    rw [List.map_cons, List.mem_cons, not_or] at hx
    rw [h.others x hx.2, (Env.lookup_of_update? hupdate).1 x hx.1]
  bindings i x u hi hx := by
    have htake : Env.names (σ.take i) = Env.names (ρ.take i) := by
      simpa [Env.names, List.map_take] using
        congrArg (List.take i) (Env.names_of_update? hupdate)
    rw [List.map_cons, List.mem_cons, not_or] at hx
    refine h.bindings i x u (Env.getElem?_of_update? hupdate hi (hx.imp And.left id)) ?_
    rw [htake]
    exact hx.imp And.right id
  dynamic x hx := by
    rw [List.map_cons, List.mem_cons, not_or] at hx
    refine h.dynamic x ?_
    rw [Env.names_of_update? hupdate]
    exact hx.imp And.right id
  heap := h.heap
  calls := h.calls

/-- A change of a variable of the host, then others. -/
theorem write (hupdate : ρ.update? name v = none)
    (h : Assigned changes ρ { w with store := w.store.setVar name v } ρ' w')
    (hname : name ∉ changes.map (·.1)) : Assigned ((name, v) :: changes) ρ w ρ' w' where
  names := h.names
  stored := by
    refine List.forall_mem_cons.2 ⟨h.evalValue_of_notMem hname ?_, h.stored⟩
    simp only [evalValue, Env.lookup_of_update?_eq_none hupdate]
    simp [Run.readVar, Store.setVar]
  others x hx := by
    rw [List.map_cons, List.mem_cons, not_or] at hx
    exact h.others x hx.2
  bindings i x u hi hx := by
    rw [List.map_cons, List.mem_cons, not_or] at hx
    exact h.bindings i x u hi (hx.imp And.right id)
  dynamic x hx := by
    rw [List.map_cons, List.mem_cons, not_or] at hx
    have hne : x ≠ name := by
      rcases hx with hx | hx
      · exact hx.1
      · rintro rfl
        exact Env.notMem_names_of_update?_eq_none hupdate hx
    rw [h.dynamic x (hx.imp And.right id)]
    exact if_neg hne
  heap := h.heap
  calls := h.calls

end Assigned

end

/-! ### Stores into variables -/

def Target.isVariable : Target → Bool
  | blank => true
  | define name | assign name => !isMarked name
  | element _ _ => false

def namesOf (targets : List Target) : List String :=
  targets.filterMap Target.name?

def definitions {α : Type} : List (Target × α) → List (String × α)
  | [] => []
  | (.define name, v) :: rest => (name, v) :: definitions rest
  | _ :: rest => definitions rest

def changes {α : Type} : List (Target × α) → List (String × α)
  | [] => []
  | (.assign name, v) :: rest => (name, v) :: changes rest
  | _ :: rest => changes rest

section

variable {α : Type} {targets : List Target} {name : String}

theorem isMarked_of_mem_namesOf (h : ∀ t ∈ targets, t.isVariable = true)
    (hname : name ∈ namesOf targets) : isMarked name = false := by
  obtain ⟨t, ht, hname⟩ := List.mem_filterMap.1 hname
  have hvariable := h t ht
  cases t <;> cases hname <;> simpa [Target.isVariable] using hvariable

/-- Every variable is either new or known. -/
theorem subperm_namesOf (targets : List Target) (vs : List α) :
    ((definitions (targets.zip vs)).map (·.1) ++ (changes (targets.zip vs)).map (·.1)).Subperm
      (namesOf targets) := by
  induction targets generalizing vs with
  | nil => exact .refl _
  | cons t ts ih =>
      cases vs with
      | nil => exact List.nil_subperm
      | cons v vs =>
          cases t with
          | blank | element _ _ => exact ih vs
          | define name => exact (List.subperm_cons name).2 (ih vs)
          | assign name =>
              exact List.perm_middle.subperm.trans ((List.subperm_cons name).2 (ih vs))

theorem mem_namesOf_of_mem_changes {vs : List α}
    (h : name ∈ (changes (targets.zip vs)).map (·.1)) : name ∈ namesOf targets :=
  (subperm_namesOf targets vs).subset (List.mem_append_right _ h)

theorem mem_namesOf_of_mem_definitions {vs : List α}
    (h : name ∈ (definitions (targets.zip vs)).map (·.1)) : name ∈ namesOf targets :=
  (subperm_namesOf targets vs).subset (List.mem_append_left _ h)

end

section

variable {R : Runtime} {fuel : Nat} {env : Environment} {temporaries : Env R}

/-- Whether a form has a value that depends neither on variables of source that are defined after
temporaries nor on what there was before them. -/
def Form.HoldsIn (temporaries : Env R) (f : Form) (v : R.Value) : Prop :=
  ∀ above below : Env R, (∀ x ∈ above.names, isMarked x = false) →
    evalValue R (above ++ (temporaries ++ below)) f = pure v

/-- Whether a form without effect is at hand for a target, with the value to store. -/
def Supplies (temporaries : Env R) (pair : Target × Form) (v : R.Value) : Prop :=
  pair.2.isPure = true ∧ (pair.1.isBlank = false → pair.2.HoldsIn temporaries v)

/-- The forms of stores define the new variables above all others and change the known ones below
the temporaries. -/
theorem execForms_storeEach (fuel : Nat) (hmarked : ∀ x ∈ temporaries.names, isMarked x = true)
    {pairs : List (Target × Form)} {vs : List R.Value}
    (hsupply : List.Forall₂ (Supplies temporaries) pairs vs) {forms : List Form}
    (h : storeEach env pairs = .ok forms)
    (hvariables : ∀ t ∈ pairs.map (·.1), t.isVariable = true)
    (hdistinct : (namesOf (pairs.map (·.1))).Nodup) (above below : Env R) (w : World R)
    (habove : ∀ x ∈ above.names, isMarked x = false ∧ x ∉ namesOf (pairs.map (·.1))) :
    ∃ below' w', execForms R fuel forms (above ++ (temporaries ++ below)) w =
        .ok (.next, (definitions ((pairs.map (·.1)).zip vs)).reverse ++ above ++
          (temporaries ++ below')) w' ∧
      Assigned (changes ((pairs.map (·.1)).zip vs)) below w below' w' := by
  induction hsupply generalizing forms above below w with
  | nil =>
      cases h
      exact ⟨below, w, rfl, .nil below w⟩
  | @cons pair v rest vs hpair _ ih =>
      obtain ⟨t, f⟩ := pair
      obtain ⟨first, hfirst, h⟩ := lower_bind_ok h
      obtain ⟨others, hothers, h⟩ := lower_bind_ok h
      cases h
      rw [List.map_cons, List.forall_mem_cons] at hvariables
      have hunmarked : ∀ x ∈ above.names, isMarked x = false := fun x hx => (habove x hx).1
      cases t with
      | blank =>
          cases hfirst
          obtain ⟨below', w', hrun, hassigned⟩ :=
            ih hothers hvariables.2 hdistinct above below w habove
          refine ⟨below', w', ?_, hassigned⟩
          rw [if_pos hpair.1]
          exact hrun
      | define name =>
          cases hfirst
          obtain ⟨hname, hdistinct⟩ := List.nodup_cons.1 hdistinct
          have hvalue := hpair.2 rfl above below hunmarked
          obtain ⟨below', w', hrun, hassigned⟩ := ih hothers hvariables.2 hdistinct
            ((name, v) :: above) below w (List.forall_mem_cons.2
              ⟨⟨by simpa [Target.isVariable] using hvariables.1, hname⟩,
                fun x hx => ⟨(habove x hx).1, fun hmem =>
                  (habove x hx).2 (List.mem_cons_of_mem name hmem)⟩⟩)
          refine ⟨below', w', ?_, hassigned⟩
          simp only [List.singleton_append, execForms, execForm, hvalue, pure_bind]
          simpa [definitions] using hrun
      | assign name =>
          cases hfirst
          obtain ⟨hname, hdistinct⟩ := List.nodup_cons.1 hdistinct
          have hvalue := hpair.2 rfl above below hunmarked
          have habove' : ∀ x ∈ above.names,
              isMarked x = false ∧ x ∉ namesOf (rest.map (·.1)) := fun x hx =>
            ⟨(habove x hx).1, fun hmem => (habove x hx).2 (List.mem_cons_of_mem name hmem)⟩
          have hnew : name ∉ (changes ((rest.map (·.1)).zip vs)).map (·.1) :=
            fun hmem => hname (mem_namesOf_of_mem_changes hmem)
          -- neither the new variables nor the temporaries hide the known one
          have hhidden : name ∉ above.names := fun hmem =>
            (habove name hmem).2 (List.mem_cons_self)
          have hmark : name ∉ temporaries.names :=
            notMem_names_of_isMarked hmarked (by simpa [Target.isVariable] using hvariables.1)
          have hupdate : Env.update? name v (above ++ (temporaries ++ below)) =
              (below.update? name v).map fun ρ => above ++ (temporaries ++ ρ) := by
            rw [Env.update?_append_of_notMem hhidden, Env.update?_append_of_notMem hmark,
              Option.map_map]
            rfl
          simp only [List.singleton_append, execForms, execForm, hvalue, pure_bind, hupdate]
          cases hbelow : below.update? name v with
          | some σ =>
              obtain ⟨below', w', hrun, hassigned⟩ :=
                ih hothers hvariables.2 hdistinct above σ w habove'
              exact ⟨below', w', hrun, hassigned.update hbelow hnew⟩
          | none =>
              obtain ⟨below', w', hrun, hassigned⟩ := ih hothers hvariables.2 hdistinct above below
                { w with store := w.store.setVar name v } habove'
              refine ⟨below', w', ?_, hassigned.write hbelow hnew⟩
              simp only [Option.map_none, bind_assoc, pure_bind]
              exact (bind_of_ok rfl _).trans hrun
      | element base at' => cases hvariables.1

/-! ### Values in temporaries -/

def held (position : Nat) : List (Target × Form) → List R.Value → Env R
  | (t, f) :: rest, v :: vs =>
    held (position + 1) rest vs ++ if t.isBlank && f.isPure then [] else [(temporary position, v)]
  | _, _ => []

def withTemporaries (position : Nat) : List Target → List (Target × Form)
  | [] => []
  | t :: ts => (t, .var (temporary position)) :: withTemporaries (position + 1) ts

theorem map_fst_withTemporaries (position : Nat) (targets : List Target) :
    (withTemporaries position targets).map (·.1) = targets := by
  induction targets generalizing position with
  | nil => rfl
  | cons t ts ih => rw [withTemporaries, List.map_cons, ih]

/-- What is stored in the end does not depend on the values. -/
theorem storeEach_withTemporaries {position : Nat} {pairs : List (Target × Form)}
    {binds stores : List Form}
    (h : storeThroughTemporaries env position pairs = .ok (binds, stores)) :
    storeEach env (withTemporaries position (pairs.map (·.1))) = .ok stores := by
  induction pairs generalizing position binds stores with
  | nil =>
      cases h
      rfl
  | cons pair rest ih =>
      obtain ⟨t, f⟩ := pair
      obtain ⟨⟨first, firstStores⟩, hfirst, h⟩ := lower_bind_ok h
      obtain ⟨⟨others, otherStores⟩, hothers, h⟩ := lower_bind_ok h
      cases h
      have hstore : t.store env (.var (temporary position)) = .ok firstStores := by
        unfold storeThroughTemporary at hfirst
        split at hfirst
        · rename_i hskip
          cases hfirst
          cases t with
          | blank => rfl
          | _ => cases (Bool.and_eq_true _ _ ▸ hskip).1
        · obtain ⟨stored, hstored, hfirst⟩ := lower_bind_ok hfirst
          cases hfirst
          exact hstored
      rw [List.map_cons, withTemporaries, storeEach, hstore, ih hothers]
      rfl

/-- A value without effect can as well be left out. -/
theorem exists_evalValue_of_isPure {f : Form} (hf : f.isPure = true)
    (hresult : f.isResultRef = false) (ρ : Env R) (w : World R) :
    ∃ v, evalValue R ρ f w = .ok v w := by
  cases f with
  | bool _ | char _ | int _ | float _ | str _ | symbol _ => exact ⟨_, rfl⟩
  | var name =>
      simp only [evalValue]
      cases ρ.lookup name with
      | some v => exact ⟨v, rfl⟩
      | none => exact ⟨_, rfl⟩
  | resultRef _ => cases hresult
  | _ => cases hf

/-- Temporaries get the values that all forms have before anything is bound. -/
theorem execForms_binds (fuel : Nat) {position : Nat} {pairs : List (Target × Form)}
    {binds stores : List Form}
    (h : storeThroughTemporaries env position pairs = .ok (binds, stores))
    (hvalues : ∀ f ∈ pairs.map (·.2), f.isOperand unmarked = true ∧ f.isResultRef = false)
    {temporaries : Env R} (hmarked : ∀ x ∈ temporaries.names, isMarked x = true) (ρ : Env R) :
    execForms R fuel binds (temporaries ++ ρ) = (do
      let vs ← evalValues R ρ (pairs.map (·.2))
      return (.next, held position pairs vs ++ (temporaries ++ ρ))) := by
  induction pairs generalizing position binds stores temporaries with
  | nil =>
      cases h
      rfl
  | cons pair rest ih =>
      obtain ⟨t, f⟩ := pair
      obtain ⟨⟨first, firstStores⟩, hfirst, h⟩ := lower_bind_ok h
      obtain ⟨⟨others, otherStores⟩, hothers, h⟩ := lower_bind_ok h
      cases h
      rw [List.map_cons, List.forall_mem_cons] at hvalues
      funext w
      simp only [List.map_cons, evalValues, bind_assoc, pure_bind]
      unfold storeThroughTemporary at hfirst
      split at hfirst
      · rename_i hskip
        cases hfirst
        obtain ⟨v, hv⟩ := exists_evalValue_of_isPure (Bool.and_eq_true _ _ ▸ hskip).2
          hvalues.1.2 ρ w
        rw [bind_of_ok hv, List.nil_append, ih hothers hvalues.2 hmarked]
        simp [held, hskip]
      · rename_i hskip
        obtain ⟨stored, -, hfirst⟩ := lower_bind_ok hfirst
        cases hfirst
        simp only [List.singleton_append, execForms, execForm, bind_assoc, pure_bind,
          evalValue_append_of_isOperand hvalues.1.1 hmarked]
        refine bind_congr_of_ok fun v w₁ _ => ?_
        have hmarked' : ∀ x ∈ Env.names ((temporary position, v) :: temporaries),
            isMarked x = true :=
          List.forall_mem_cons.2 ⟨isMarked_temporary position, hmarked⟩
        rw [← List.cons_append, ih hothers hvalues.2 hmarked']
        simp [held, hskip]

theorem mem_names_held {position : Nat} {pairs : List (Target × Form)} {vs : List R.Value} :
    ∀ x ∈ (held position pairs vs).names, ∃ k, position ≤ k ∧ x = temporary k := by
  induction pairs generalizing position vs with
  | nil => simp [held, Env.names]
  | cons pair rest ih =>
      cases vs with
      | nil => simp [held, Env.names]
      | cons v vs =>
          intro x hx
          rw [held, Env.names, List.map_append, List.mem_append] at hx
          rcases hx with hx | hx
          · obtain ⟨k, hk, rfl⟩ := ih x hx
            exact ⟨k, Nat.le_of_succ_le hk, rfl⟩
          · split at hx
            · cases hx
            · exact ⟨position, le_rfl, List.mem_singleton.1 hx⟩

theorem isMarked_of_mem_held {position : Nat} {pairs : List (Target × Form)} {vs : List R.Value} :
    ∀ x ∈ (held position pairs vs).names, isMarked x = true := by
  intro x hx
  obtain ⟨k, -, rfl⟩ := mem_names_held x hx
  exact isMarked_temporary k

/-- Temporaries supply the values that they hold. -/
theorem supplies_held (position : Nat) {pairs : List (Target × Form)} {vs : List R.Value}
    (hlength : pairs.length = vs.length) :
    List.Forall₂ (Supplies (held position pairs vs))
      (withTemporaries position (pairs.map (·.1))) vs := by
  induction pairs generalizing position vs with
  | nil =>
      obtain rfl := List.length_eq_zero_iff.1 hlength.symm
      exact .nil
  | cons pair rest ih =>
      obtain ⟨t, f⟩ := pair
      cases vs with
      | nil => cases hlength
      | cons v vs =>
          refine .cons ⟨rfl, fun hblank above below habove => ?_⟩ ?_
          · have hblank : t.isBlank = false := hblank
            have habove : temporary position ∉ above.names := fun hmem => by
              have hmark := habove _ hmem
              rw [isMarked_temporary] at hmark
              cases hmark
            have hlater : temporary position ∉ (held (position + 1) rest vs).names := fun hmem => by
              obtain ⟨k, hk, heq⟩ := mem_names_held _ hmem
              have := temporary_inj heq
              omega
            have hlookup : (above ++ (held position ((t, f) :: rest) (v :: vs) ++ below)).lookup
                (temporary position) = some v := by
              rw [Env.lookup_append_of_notMem habove, held, hblank, List.append_assoc,
                Env.lookup_append_of_notMem hlater]
              simp
            simp only [evalValue, hlookup]
          · refine (ih (position + 1) (Nat.succ.inj hlength)).imp
              fun pair u hpair => ⟨hpair.1, fun hblank above below habove => ?_⟩
            rw [held, List.append_assoc]
            exact hpair.2 hblank above _ habove

/-- Where nothing is stored, values are evaluated for their effect. -/
theorem execForms_blanks (fuel : Nat) {pairs : List (Target × Form)} {forms : List Form}
    (h : storeEach env pairs = .ok forms) (hblank : ∀ pair ∈ pairs, pair.1.isBlank = true)
    (hvalues : ∀ f ∈ pairs.map (·.2), f.isOperand unmarked = true ∧ f.isResultRef = false)
    (ρ : Env R) :
    execForms R fuel forms ρ = (do
      let _ ← evalValues R ρ (pairs.map (·.2))
      return (.next, ρ)) := by
  induction pairs generalizing forms with
  | nil =>
      cases h
      rfl
  | cons pair rest ih =>
      obtain ⟨t, f⟩ := pair
      rw [List.forall_mem_cons] at hblank
      rw [List.map_cons, List.forall_mem_cons] at hvalues
      obtain ⟨first, hfirst, h⟩ := lower_bind_ok h
      obtain ⟨others, hothers, h⟩ := lower_bind_ok h
      cases h
      cases t with
      | blank =>
          cases hfirst
          funext w
          simp only [List.map_cons, evalValues, bind_assoc, pure_bind]
          split
          · rename_i hpure
            obtain ⟨v, hv⟩ := exists_evalValue_of_isPure hpure hvalues.1.2 ρ w
            rw [bind_of_ok hv]
            exact congrFun (ih hothers hblank.2 hvalues.2) w
          · simp only [List.singleton_append, execForms,
              execForm_of_isStatement (isStatement_of_isOperand hvalues.1.1), bind_assoc,
              pure_bind]
            exact bind_congr_of_ok fun v w₁ _ => congrFun (ih hothers hblank.2 hvalues.2) w₁
      | _ => cases hblank.1

end

/-! ### Assignments -/

section

variable {R : Runtime} {fuel : Nat} {env : Environment} {targets : List Target} {fs : List Form}

/-- What is left after values were stored into targets at once. New variables are the topmost ones,
the latest first. Below them there may be temporaries, but only where something is defined, and then
come the variables from before with the changes made to them. -/
structure StoredAtOnce (pairs : List (Target × R.Value)) (ρ : Env R) (w : World R) (ρ' : Env R)
    (w' : World R) : Prop where
  scope : ∃ temporaries kept, ρ' = (definitions pairs).reverse ++ (temporaries ++ kept) ∧
    (∀ x ∈ Env.names temporaries, isMarked x = true) ∧
    (definitions pairs = [] → temporaries = []) ∧ Assigned (changes pairs) ρ w kept w'
  stored : ∀ entry ∈ definitions pairs ++ changes pairs,
    evalValue R ρ' (.var entry.1) w' = .ok entry.2 w'
  others : ∀ x, isMarked x = false → x ∉ namesOf (pairs.map (·.1)) → ρ'.lookup x = ρ.lookup x

/-- Whether forms evaluate values from left to right, each once and before anything is stored, and
then store them into targets at once. If a value has no result, nothing is stored. -/
def AssignsAtOnce (R : Runtime) (fuel : Nat) (targets : List Target) (fs forms : List Form) :
    Prop :=
  ∀ (ρ : Env R) (w : World R),
    match evalValues R ρ fs w with
    | .ok vs w₁ => ∃ ρ' w', execForms R fuel forms ρ w = .ok (.next, ρ') w' ∧
        StoredAtOnce (targets.zip vs) ρ w₁ ρ' w'
    | .error e w₁ => execForms R fuel forms ρ w = .error e w₁

theorem Env.lookup_of_nodup {ρ : Env R} (hdistinct : ρ.names.Nodup) {entry : String × R.Value}
    (h : entry ∈ ρ) : ρ.lookup entry.1 = some entry.2 := by
  obtain ⟨above, below, rfl⟩ := List.append_of_mem h
  have hnotMem : entry.1 ∉ Env.names above := by
    intro hmem
    rw [Env.names, List.map_append, List.map_cons] at hdistinct
    exact List.disjoint_of_nodup_append hdistinct hmem List.mem_cons_self
  rw [Env.lookup_append_of_notMem hnotMem, List.lookup_cons_self]

theorem Assigned.storedAtOnce {vs : List R.Value} {ρ kept : Env R} {w w' : World R}
    (h : Assigned (changes (targets.zip vs)) ρ w kept w') (hlength : targets.length = vs.length)
    (hvariables : ∀ t ∈ targets, t.isVariable = true) (hdistinct : (namesOf targets).Nodup)
    (temporaries : Env R) (hmarked : ∀ x ∈ temporaries.names, isMarked x = true)
    (htemporaries : definitions (targets.zip vs) = [] → temporaries = []) :
    StoredAtOnce (targets.zip vs) ρ w
      ((definitions (targets.zip vs)).reverse ++ (temporaries ++ kept)) w' := by
  obtain ⟨names, hperm, hsublist⟩ := subperm_namesOf targets vs
  have hnodup := hperm.nodup_iff.1 (hdistinct.sublist hsublist)
  have hdefined : ∀ x, x ∉ (definitions (targets.zip vs)).map (·.1) →
      x ∉ Env.names (definitions (targets.zip vs)).reverse := by
    intro x hx hmem
    rw [Env.names, List.map_reverse, List.mem_reverse] at hmem
    exact hx hmem
  -- a name of source that is not new is looked for below the temporaries
  have hlookup : ∀ x, isMarked x = false → x ∉ (definitions (targets.zip vs)).map (·.1) →
      ((definitions (targets.zip vs)).reverse ++ (temporaries ++ kept)).lookup x =
        kept.lookup x := by
    intro x hx hnew
    rw [Env.lookup_append_of_notMem (hdefined x hnew),
      Env.lookup_append_of_notMem (notMem_names_of_isMarked hmarked hx)]
  refine ⟨⟨temporaries, kept, rfl, hmarked, htemporaries, h⟩, fun entry hentry => ?_,
    fun x hx hnew => ?_⟩
  · rcases List.mem_append.1 hentry with hentry | hentry
    · have hreverse : (Env.names (definitions (targets.zip vs)).reverse).Nodup := by
        rw [Env.names, List.map_reverse, List.nodup_reverse]
        exact hnodup.of_append_left
      have hfound := Env.lookup_of_nodup hreverse (List.mem_reverse.2 hentry)
      simp only [evalValue, List.lookup_append, hfound, Option.some_or]
      rfl
    · have hname : entry.1 ∈ (changes (targets.zip vs)).map (·.1) := List.mem_map_of_mem hentry
      have hnew : entry.1 ∉ (definitions (targets.zip vs)).map (·.1) :=
        fun hmem => List.disjoint_of_nodup_append hnodup hmem hname
      have hmark := isMarked_of_mem_namesOf hvariables (mem_namesOf_of_mem_changes hname)
      have hvalue := h.stored entry hentry
      simp only [evalValue] at hvalue ⊢
      rwa [hlookup entry.1 hmark hnew]
  · rw [List.map_fst_zip hlength.le] at hnew
    rw [hlookup x hx fun hmem => hnew (mem_namesOf_of_mem_definitions hmem)]
    exact h.others x fun hmem => hnew (mem_namesOf_of_mem_changes hmem)

/-- Values go through temporaries: all are evaluated, and then each is stored. -/
theorem execForms_through_temporaries (fuel : Nat) {binds stores : List Form}
    (h : storeThroughTemporaries env 0 (targets.zip fs) = .ok (binds, stores))
    (hlength : targets.length = fs.length)
    (hvalues : ∀ f ∈ fs, f.isOperand unmarked = true ∧ f.isResultRef = false)
    (hvariables : ∀ t ∈ targets, t.isVariable = true) (hdistinct : (namesOf targets).Nodup)
    (ρ : Env R) (w : World R) :
    match evalValues R ρ fs w with
    | .ok vs w₁ => ∃ kept w', execForms R fuel (binds ++ stores) ρ w =
          .ok (.next, (definitions (targets.zip vs)).reverse ++
            (held 0 (targets.zip fs) vs ++ kept)) w' ∧
        Assigned (changes (targets.zip vs)) ρ w₁ kept w'
    | .error e w₁ => execForms R fuel (binds ++ stores) ρ w = .error e w₁ := by
  have hfst : (targets.zip fs).map (·.1) = targets := List.map_fst_zip hlength.le
  have hsnd : (targets.zip fs).map (·.2) = fs := List.map_snd_zip hlength.ge
  have hnone : ∀ x ∈ Env.names ([] : Env R), isMarked x = true := by simp [Env.names]
  have hbinds := execForms_binds fuel h (by rwa [hsnd]) hnone ρ
  rw [hsnd, List.nil_append] at hbinds
  rw [execForms_append, hbinds, bind_assoc]
  cases hvs : evalValues R ρ fs w with
  | error e w₁ => exact bind_of_error hvs _
  | ok vs w₁ =>
      have hstores := storeEach_withTemporaries h
      have hsupply := supplies_held 0
        (List.length_zip.trans ((min_eq_right hlength.ge).trans (evalValues_length hvs).symm))
      rw [hfst] at hstores hsupply
      obtain ⟨kept, w', hrun, hassigned⟩ := execForms_storeEach fuel isMarked_of_mem_held hsupply
        hstores (by rwa [map_fst_withTemporaries]) (by rwa [map_fst_withTemporaries]) [] ρ w₁
        (by simp [Env.names])
      rw [map_fst_withTemporaries] at hrun hassigned
      refine ⟨kept, w', ?_, hassigned⟩
      rw [bind_of_ok hvs]
      simpa using hrun

/-- Literals have the same values everywhere. -/
theorem evalValues_atoms (hatoms : ∀ f ∈ fs, f.isAtom = true) (hlength : targets.length = fs.length)
    (ρ : Env R) :
    ∃ vs, evalValues R ρ fs = pure vs ∧ List.Forall₂ (Supplies []) (targets.zip fs) vs := by
  induction fs generalizing targets with
  | nil =>
      obtain rfl := List.length_eq_zero_iff.1 hlength
      exact ⟨[], rfl, .nil⟩
  | cons f fs ih =>
      cases targets with
      | nil => cases hlength
      | cons t ts =>
          rw [List.forall_mem_cons] at hatoms
          obtain ⟨vs, hvs, hsupply⟩ := ih hatoms.2 (Nat.succ.inj hlength)
          obtain ⟨v, hv⟩ := exists_evalValue_of_isAtom (R := R) (ρ := ρ) hatoms.1
          have hsame : ∀ σ : Env R, evalValue R σ f = pure v := by
            intro σ
            rw [← hv]
            exact evalValue_congr f (.of_isAtom hatoms.1 fun name hname => by
              rw [hname] at hatoms
              cases hatoms.1)
          refine ⟨v :: vs, by simp only [evalValues, hv, hvs, pure_bind], .cons ⟨?_, ?_⟩ hsupply⟩
          · cases f <;> first | rfl | cases hatoms.1
          · exact fun _ above below _ => hsame _

theorem definitions_eq_nil_iff {α : Type} {vs : List α} (hlength : targets.length = vs.length) :
    definitions (targets.zip vs) = [] ↔ targets.any Target.isDefine = false := by
  induction targets generalizing vs with
  | nil => simp [definitions]
  | cons t ts ih =>
      cases vs with
      | nil => cases hlength
      | cons v vs =>
          rw [List.any_cons, Bool.or_eq_false_iff, ← ih (Nat.succ.inj hlength)]
          cases t <;> simp [definitions, Target.isDefine]

/-- New variables stay, and with them the temporaries. -/
theorem assignsAtOnce_append {binds stores : List Form}
    (h : storeThroughTemporaries env 0 (targets.zip fs) = .ok (binds, stores))
    (hlength : targets.length = fs.length)
    (hvalues : ∀ f ∈ fs, f.isOperand unmarked = true ∧ f.isResultRef = false)
    (hvariables : ∀ t ∈ targets, t.isVariable = true) (hdistinct : (namesOf targets).Nodup)
    (hdefine : targets.any Target.isDefine = true) :
    AssignsAtOnce R fuel targets fs (binds ++ stores) := by
  intro ρ w
  have hrun := execForms_through_temporaries fuel h hlength hvalues hvariables hdistinct ρ w
  cases hvs : evalValues R ρ fs w with
  | error e w₁ => simpa only [hvs] using hrun
  | ok vs w₁ =>
      have hsame : targets.length = vs.length := hlength.trans (evalValues_length hvs).symm
      simp only [hvs] at hrun
      obtain ⟨kept, w', hrun, hassigned⟩ := hrun
      refine ⟨_, w', hrun, hassigned.storedAtOnce hsame hvariables hdistinct
        _ isMarked_of_mem_held fun hnone => ?_⟩
      rw [(definitions_eq_nil_iff hsame).1 hnone] at hdefine
      cases hdefine

/-- Without new variables the temporaries end with a block. -/
theorem assignsAtOnce_block {binds stores : List Form}
    (h : storeThroughTemporaries env 0 (targets.zip fs) = .ok (binds, stores))
    (hlength : targets.length = fs.length)
    (hvalues : ∀ f ∈ fs, f.isOperand unmarked = true ∧ f.isResultRef = false)
    (hvariables : ∀ t ∈ targets, t.isVariable = true) (hdistinct : (namesOf targets).Nodup)
    (hdefine : targets.any Target.isDefine = false) :
    AssignsAtOnce R fuel targets fs [.block (binds ++ stores)] := by
  intro ρ w
  have hrun := execForms_through_temporaries fuel h hlength hvalues hvariables hdistinct ρ w
  cases hvs : evalValues R ρ fs w with
  | error e w₁ =>
      simp only [hvs] at hrun
      simp only [execForms, execForm, endBlock, bind_assoc]
      exact bind_of_error hrun _
  | ok vs w₁ =>
      have hsame : targets.length = vs.length := hlength.trans (evalValues_length hvs).symm
      have hnone := (definitions_eq_nil_iff hsame).2 hdefine
      simp only [hvs] at hrun
      obtain ⟨kept, w', hrun, hassigned⟩ := hrun
      have hlowest : lowest ρ.length (held 0 (targets.zip fs) vs ++ kept) = kept := by
        have hkept : kept.length = ρ.length := by
          simpa using congrArg List.length hassigned.names
        rw [lowest, List.length_append, ← hkept, Nat.add_sub_cancel, List.drop_left]
      refine ⟨kept, w', ?_, ?_⟩
      · rw [hnone, List.reverse_nil, List.nil_append] at hrun
        simp only [execForms, execForm, endBlock, bind_assoc]
        rw [bind_of_ok hrun]
        simp only [pure_bind, hlowest]
        rfl
      · have hstored := hassigned.storedAtOnce hsame hvariables hdistinct []
          (by simp [Env.names]) fun _ => rfl
        rwa [hnone] at hstored

/-- Literals are stored as they are. -/
theorem assignsAtOnce_atoms {forms : List Form} (h : storeEach env (targets.zip fs) = .ok forms)
    (hlength : targets.length = fs.length) (hatoms : ∀ f ∈ fs, f.isAtom = true)
    (hvariables : ∀ t ∈ targets, t.isVariable = true) (hdistinct : (namesOf targets).Nodup) :
    AssignsAtOnce R fuel targets fs forms := by
  intro ρ w
  have hfst : (targets.zip fs).map (·.1) = targets := List.map_fst_zip hlength.le
  obtain ⟨vs, hvs, hsupply⟩ := evalValues_atoms (R := R) hatoms hlength ρ
  have hvs : evalValues R ρ fs w = .ok vs w := congrFun hvs w
  obtain ⟨kept, w', hrun, hassigned⟩ := execForms_storeEach fuel (by simp [Env.names]) hsupply h
    (by rwa [hfst]) (by rwa [hfst]) [] ρ w (by simp [Env.names])
  rw [hfst] at hrun hassigned
  simp only [hvs]
  refine ⟨_, w', hrun, ?_⟩
  rw [List.append_nil]
  exact hassigned.storedAtOnce (hlength.trans (evalValues_length hvs).symm) hvariables hdistinct
    [] (by simp [Env.names]) fun _ => rfl

/-- Where nothing is stored, nothing changes after the values. -/
theorem assignsAtOnce_blanks {forms : List Form} (h : storeEach env (targets.zip fs) = .ok forms)
    (hlength : targets.length = fs.length)
    (hvalues : ∀ f ∈ fs, f.isOperand unmarked = true ∧ f.isResultRef = false)
    (hblank : ∀ t ∈ targets, t.isBlank = true) : AssignsAtOnce R fuel targets fs forms := by
  intro ρ w
  have hsnd : (targets.zip fs).map (·.2) = fs := List.map_snd_zip hlength.ge
  have hnames : namesOf targets = [] := by
    refine List.filterMap_eq_nil_iff.2 fun t ht => ?_
    have ht := hblank t ht
    cases t with
    | blank => rfl
    | _ => cases ht
  have hvariables : ∀ t ∈ targets, t.isVariable = true := by
    intro t ht
    have ht := hblank t ht
    cases t with
    | blank => rfl
    | _ => cases ht
  have hrun := execForms_blanks fuel h
    (fun pair hpair => hblank _ (List.of_mem_zip hpair).1) (by rwa [hsnd]) ρ
  rw [hsnd] at hrun
  rw [hrun]
  cases hvs : evalValues R ρ fs w with
  | error e w₁ => exact bind_of_error hvs _
  | ok vs w₁ =>
      obtain ⟨names, hperm, hsublist⟩ := subperm_namesOf targets vs
      rw [hnames, List.sublist_nil] at hsublist
      subst hsublist
      have hempty := List.append_eq_nil_iff.1 hperm.nil_eq.symm
      have hassigned : Assigned (changes (targets.zip vs)) ρ w₁ ρ w₁ := by
        rw [List.map_eq_nil_iff.1 hempty.2]
        exact .nil ρ w₁
      refine ⟨ρ, w₁, bind_of_ok hvs _, ?_⟩
      have hstored := hassigned.storedAtOnce (hlength.trans (evalValues_length hvs).symm)
        hvariables (by simp [hnames]) [] (by simp [Env.names]) fun _ => rfl
      rwa [List.map_eq_nil_iff.1 hempty.1] at hstored

/-- The forms of a pairwise assignment to variables. -/
theorem assignsAtOnce_assignPairwise {values : List Expr} {forms : List Form}
    (h : assignPairwise env targets values = .ok forms) (hlength : targets.length = values.length)
    (hcount : 2 ≤ targets.length) (hvariables : ∀ t ∈ targets, t.isVariable = true)
    (hdistinct : (namesOf targets).Nodup) (hvalues : Expr.areScoped unmarked values = true) :
    ∃ fs, Form.ofStoredList env values = .ok fs ∧
      ∀ (R : Runtime) (fuel : Nat), AssignsAtOnce R fuel targets fs forms := by
  obtain ⟨fs, hfs, h⟩ := lower_bind_ok h
  refine ⟨fs, hfs, fun R fuel => ?_⟩
  have hzip : targets.length = fs.length := by rw [hlength, length_ofStoredList hfs]
  have hoperands := areOperands_ofStoredList values hfs hvalues
  have hforms : ∀ f ∈ fs, f.isOperand unmarked = true ∧ f.isResultRef = false :=
    fun f hf => ⟨isOperand_of_mem hoperands hf, isResultRef_ofStoredList hfs f hf⟩
  split at h
  · obtain ⟨⟨binds, stores⟩, hthrough, h⟩ := lower_bind_ok h
    cases h
    split
    · exact assignsAtOnce_append hthrough hzip hforms hvariables hdistinct ‹_›
    · rename_i hdefine
      exact assignsAtOnce_block hthrough hzip hforms hvariables hdistinct
        (Bool.eq_false_iff.2 hdefine)
  · rename_i htemporaries
    by_cases hatoms : ∀ f ∈ fs, f.isAtom = true
    · exact assignsAtOnce_atoms h hzip hatoms hvariables hdistinct
    · have hsome : fs.all Form.isAtom = false := by
        rw [← List.all_eq_true] at hatoms
        exact Bool.eq_false_iff.2 hatoms
      have hstores : targets.any (!·.isBlank) = false := by
        simpa [needsTemporaries, Nat.lt_of_succ_le hcount, hsome] using htemporaries
      refine assignsAtOnce_blanks h hzip hforms fun t ht => ?_
      simpa using List.any_eq_false.1 hstores t ht

/-- The forms of a statement with one value for each target: an assignment without an operator, a
definition, or names that are declared together. -/
inductive AssignsEach (env : Environment) : List Target → List Expr → List Form → Prop where
  | assign {lhs rhs : List Expr} {op : AssignOp} {span : Span} {targets : List Target}
      {forms : List Form} (hop : op.binary? = none) (htargets : targetsOf lhs = .ok targets)
      (hlength : targets.length = rhs.length)
      (hforms : assignForms env lhs op rhs span = .ok forms) : AssignsEach env targets rhs forms
  | declare {spec : ValueSpec} {forms : List Form}
      (hlength : spec.names.length = spec.values.length)
      (hforms : specForms env spec = .ok forms) :
      AssignsEach env (spec.names.map Target.ofName) spec.values forms

theorem AssignsEach.assignPairwise {values : List Expr} {forms : List Form}
    (h : AssignsEach env targets values forms) (hcount : 2 ≤ targets.length) :
    StackCompiler.assignPairwise env targets values = .ok forms ∧
      targets.length = values.length := by
  cases h with
  | assign hop htargets hlength hforms =>
      obtain ⟨ts, hts, hforms⟩ := lower_bind_ok hforms
      rw [htargets] at hts
      cases hts
      simp only [hop, assignValues, if_pos hlength] at hforms
      exact ⟨hforms, hlength⟩
  | declare hlength hforms =>
      rename_i spec
      rw [List.length_map] at hcount
      have hvalues : spec.values.isEmpty = false := by
        refine Bool.eq_false_iff.2 fun hempty => ?_
        rw [List.isEmpty_iff.1 hempty, List.length_nil] at hlength
        omega
      have hlength' : (spec.names.map Target.ofName).length = spec.values.length := by
        rwa [List.length_map]
      simp only [specForms, hvalues, assignValues, if_pos hlength'] at hforms
      exact ⟨hforms, hlength'⟩

/-- An assignment, a definition or a declaration of at least two distinct variables or blanks first
evaluates all values, once each and from left to right, in the state before the statement. Then
every variable holds its own value and no other variable of source has changed. New variables are
in scope after the statement, and if there are none then the statement leaves no binding behind. -/
theorem parallel_assignment {values : List Expr} {forms : List Form}
    (h : AssignsEach env targets values forms) (hcount : 2 ≤ targets.length)
    (hvariables : ∀ t ∈ targets, t.isVariable = true) (hdistinct : (namesOf targets).Nodup)
    (hvalues : Expr.areScoped unmarked values = true) :
    ∃ fs, Form.ofStoredList env values = .ok fs ∧
      ∀ (R : Runtime) (fuel : Nat), AssignsAtOnce R fuel targets fs forms := by
  obtain ⟨hforms, hlength⟩ := h.assignPairwise hcount
  exact assignsAtOnce_assignPairwise hforms hlength hcount hvariables hdistinct hvalues

end

/-- The targets of `a, g, c := g, f(), a`, of which the last is new. -/
def rotatedTargets : List Expr :=
  [.ofName "a" .int, .ofName "g" .int, .ofDefinition "c" .int]

def rotatedValues : List Expr :=
  [.ofName "g" .int, .call (.intrinsic "Call") [.ofLiteral (.str "f")] .int {}, .ofName "a" .int]

/-- The variable `a` of the function and the variable `g` of the host change places with the result
of one call. -/
theorem parallel_assignment_rotated :
    ∃ forms ρ' w', assignForms {} rotatedTargets .define rotatedValues {} = .ok forms ∧
      execForms Runtime.ledger 0 forms [("a", Constant.int 5)] World.ledger =
        .ok (.next, ρ') w' ∧
      evalValue Runtime.ledger ρ' (.var "c") w' = .ok (Constant.int 5) w' ∧
      evalValue Runtime.ledger ρ' (.var "a") w' = .ok (Constant.symbol Host.nil) w' ∧
      evalValue Runtime.ledger ρ' (.var "g") w' = .ok (Constant.int 10) w' ∧
      w'.calls = [(Constant.symbol "f", [])] := by
  have htargets : targetsOf rotatedTargets = .ok [.assign "a", .assign "g", .define "c"] := rfl
  have hvalues : Form.ofStoredList {} rotatedValues = .ok [.var "g", .call "f" [], .var "a"] := rfl
  have hforms : assignForms {} rotatedTargets .define rotatedValues {} = .ok _ := rfl
  obtain ⟨fs, hfs, hruns⟩ := parallel_assignment (.assign rfl htargets rfl hforms) (by decide)
    (by decide) (by decide) (by decide)
  rw [hvalues] at hfs
  cases hfs
  have hrun := hruns Runtime.ledger 0 [("a", Constant.int 5)] World.ledger
  have hvs : evalValues Runtime.ledger [("a", Constant.int 5)]
      [.var "g", .call "f" [], .var "a"] World.ledger =
      .ok [Constant.symbol Host.nil, Constant.int 10, Constant.int 5] World.ledgerCalled := rfl
  rw [hvs] at hrun
  obtain ⟨ρ', w', hexec, hstored⟩ := hrun
  obtain ⟨_, _, -, -, -, hassigned⟩ := hstored.scope
  exact ⟨_, ρ', w', hforms, hexec, hstored.stored ("c", Constant.int 5) (.head _),
    hstored.stored ("a", Constant.symbol Host.nil) (.tail _ (.head _)),
    hstored.stored ("g", Constant.int 10) (.tail _ (.tail _ (.head _))), hassigned.calls⟩

end StackCompiler
