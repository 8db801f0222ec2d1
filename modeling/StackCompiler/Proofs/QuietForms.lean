import StackCompiler.Proofs.CallLog

/-!
Forms that call nothing. What their evaluation does to the world is what the operations of the host
do, so that a relation between worlds which these keep is kept by the whole of it.
-/

namespace StackCompiler

/-- Whether a computation that has a result leaves a related world. -/
def Run.Keeps {R : Runtime} {α : Type} (K : World R → World R → Prop) (x : Run R α) : Prop :=
  ∀ w a w', x w = .ok a w' → K w w'

/-- A host whose own operations leave related worlds, stores into arrays only if these count. -/
structure Runtime.Keeps (R : Runtime) (stores : Prop) (K : World R → World R → Prop) : Prop where
  unary : ∀ i v, (Run.primitive (R.unary i v)).Keeps K
  binary : ∀ i u v, (Run.primitive (R.binary i u v)).Keeps K
  concat : ∀ vs, (Run.primitive (R.concat vs)).Keeps K
  arrayRef : ∀ a i, (Run.primitive (R.arrayRef a i)).Keeps K
  arraySet : stores → ∀ a i v, (Run.primitive (R.arraySet a i v)).Keeps K

def Form.isSparseArray : Form → Bool
  | .sparseArray _ _ => true
  | _ => false

/-- Whether a form, apart from its parts, calls nothing, and stores into an array only if this is
allowed. -/
def Form.IsQuiet (stores : Prop) (f : Form) : Prop :=
  f.application? = none ∧ (f.isSparseArray = true → stores)

section

variable {R : Runtime} {ρ : Env R} {K : World R → World R → Prop} {stores : Prop} {α β : Type}

namespace Run.Keeps

theorem pure (hK : IsTrail K) (a : α) : (Pure.pure a : Run R α).Keeps K := by
  intro w b w' h
  cases h
  exact hK.refl w

theorem readVar (hK : IsTrail K) (name : String) : (Run.readVar (R := R) name).Keeps K := by
  intro w v w' h
  cases h
  exact hK.refl w

theorem throw (e : Stop) : (MonadExcept.throw e : Run R α).Keeps K :=
  fun _ _ _ h => absurd h throw_ne_ok

theorem bind (hK : IsTrail K) {x : Run R α} {y : α → Run R β} (hx : x.Keeps K)
    (hy : ∀ a, (y a).Keeps K) : (x >>= y).Keeps K := by
  intro w b w' h
  obtain ⟨a, w₁, ha, h⟩ := bind_eq_ok.1 h
  exact hK.trans (hx w a w₁ ha) (hy a w₁ b w' h)

end Run.Keeps

mutual
/-- A form whose parts are all quiet keeps what the operations of the host keep. -/
theorem keeps_evalValue (hK : IsTrail K) (hR : R.Keeps stores K) (f : Form)
    (hf : f.Every (Form.IsQuiet stores)) : (evalValue R ρ f).Keeps K := by
  cases f with
  | var name =>
      simp only [evalValue]
      split
      · exact .pure hK _
      · exact .readVar hK _
  | resultRef index =>
      simp only [evalValue]
      split
      · exact .readVar hK _
      · exact .throw _
  | array _ | copy _ | call _ _ | dynCall _ _ => cases (hf _ (mem_parts_self _)).1
  | sparseArray ctor elems =>
      rw [Form.every_sparseArray] at hf
      exact (keeps_evalValue hK hR ctor hf.2.1).bind hK fun a =>
        (keeps_evalStores hK hR (hf.1.2 rfl) elems hf.2.2).bind hK fun _ => .pure hK a
  | get source index =>
      rw [Form.every_get] at hf
      exact (keeps_evalValue hK hR source hf.2.1).bind hK fun a =>
        (keeps_evalValue hK hR index hf.2.2).bind hK fun i => hR.arrayRef a i
  | op kind family args =>
      rw [Form.every_op] at hf
      have hcall := hf.1.1
      simp only [evalValue]
      split
      · exact .throw _
      · exact (keeps_evalValues hK hR args hf.2).bind hK fun vs => hR.concat vs
      · rename_i hplan
        rw [← OpKind.plan?_eq_operation?] at hplan
        simp [Form.application?, hplan] at hcall
      · exact keeps_evalChain hK hR args hf.2
      · exact (keeps_evalChain hK hR args hf.2).bind hK fun v => hR.unary _ v
  | unary kind family arg =>
      rw [Form.every_unary] at hf
      have hcall := hf.1.1
      have harg := keeps_evalValue hK hR arg hf.2
      cases kind <;> cases family <;>
        first
        | exact .throw _
        | exact harg.bind hK fun v => hR.unary _ v
        | cases hcall
  | not arg =>
      rw [Form.every_not] at hf
      exact (keeps_evalValue hK hR arg hf.2).bind hK fun v => hR.unary _ v
  | and left right =>
      rw [Form.every_and] at hf
      refine (keeps_evalValue hK hR left hf.2.1).bind hK fun v => ?_
      split
      · exact .pure hK v
      · exact keeps_evalValue hK hR right hf.2.2
  | or left right =>
      rw [Form.every_or] at hf
      refine (keeps_evalValue hK hR left hf.2.1).bind hK fun v => ?_
      split
      · exact keeps_evalValue hK hR right hf.2.2
      · exact .pure hK v
  | bool _ | char _ | int _ | float _ | str _ | symbol _ => exact .pure hK _
  | block _ | branch _ _ _ | loop _ _ _ | ret _ | breakLoop | continueLoop | bind _ _ | rebind _ _
  | set _ _ _ => exact .throw _
termination_by structural f

theorem keeps_evalValues (hK : IsTrail K) (hR : R.Keeps stores K) (fs : List Form)
    (hfs : EveryIn (Form.IsQuiet stores) fs) : (evalValues R ρ fs).Keeps K := by
  cases fs with
  | nil => exact .pure hK _
  | cons f fs =>
      rw [everyIn_cons] at hfs
      exact (keeps_evalValue hK hR f hfs.1).bind hK fun v =>
        (keeps_evalValues hK hR fs hfs.2).bind hK fun vs => .pure hK _
termination_by structural fs

theorem keeps_evalChain (hK : IsTrail K) (hR : R.Keeps stores K) (fs : List Form)
    (hfs : EveryIn (Form.IsQuiet stores) fs) {i : BinaryInstr} : (evalChain R ρ i fs).Keeps K := by
  cases fs with
  | nil => exact .throw _
  | cons f fs =>
      rw [everyIn_cons] at hfs
      exact (keeps_evalValue hK hR f hfs.1).bind hK fun v => keeps_evalChainRest hK hR fs hfs.2
termination_by structural fs

theorem keeps_evalChainRest (hK : IsTrail K) (hR : R.Keeps stores K) (fs : List Form)
    (hfs : EveryIn (Form.IsQuiet stores) fs) {i : BinaryInstr} {left : R.Value} :
    (evalChainRest R ρ i left fs).Keeps K := by
  cases fs with
  | nil => exact .pure hK _
  | cons f fs =>
      rw [everyIn_cons] at hfs
      exact (keeps_evalValue hK hR f hfs.1).bind hK fun right =>
        (hR.binary i left right).bind hK fun v => keeps_evalChainRest hK hR fs hfs.2
termination_by structural fs

theorem keeps_evalStores (hK : IsTrail K) (hR : R.Keeps stores K) (hstores : stores)
    (elems : List (Int64 × Form)) (helems : EveryIn (Form.IsQuiet stores) (elems.map (·.2)))
    {a : R.Value} : (evalStores R ρ a elems).Keeps K := by
  match elems with
  | [] => exact .pure hK _
  | (index, f) :: rest =>
      rw [List.map_cons, everyIn_cons] at helems
      exact (keeps_evalValue hK hR f helems.1).bind hK fun v =>
        (hR.arraySet hstores a _ v).bind hK fun _ => keeps_evalStores hK hR hstores rest helems.2
termination_by structural elems
end

end

end StackCompiler
