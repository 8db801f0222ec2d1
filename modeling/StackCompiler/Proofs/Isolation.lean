import StackCompiler.Proofs.ValueSemantics

/-!
Vectors that evaluation cannot get at. A value leads to a vector if reading elements gets from one
to the other, and what an operation of the host does to vectors depends on those to which its
operands or the host itself lead. `spares_evalValue` carries this over from single operations to
forms: as long as neither a variable nor the host leads to a vector, evaluation leaves it alone and
no value comes to lead to it.
-/

namespace StackCompiler

/-- How a host sees vectors: the elements of those that exist, to which vectors values lead, and to
which the host itself gets without being given anything. -/
structure VectorView (R : Runtime) where
  contents : R.Heap → R.Value → Option (List R.Value)
  leads : Store R.Value R.Heap → R.Value → R.Value → Prop
  exposed : Store R.Value R.Heap → R.Value → Prop

namespace VectorView

variable {R : Runtime} (V : VectorView R)

/-- The vector exists, and neither the host nor these values lead to it. -/
structure Hides (a : R.Value) (vs : List R.Value) (s : Store R.Value R.Heap) : Prop where
  made : (V.contents s.heap a).isSome = true
  exposed : ¬V.exposed s a
  leads : ∀ v ∈ vs, ¬V.leads s v a

/-- The vector has not been changed, nothing has come to lead to it, and the results do not. -/
structure Spared (a : R.Value) (s s' : Store R.Value R.Heap) (results : List R.Value) : Prop where
  contents : V.contents s'.heap a = V.contents s.heap a
  exposed : ¬V.exposed s' a
  leads : ∀ v, V.leads s' v a → V.leads s v a
  results : ∀ v ∈ results, ¬V.leads s' v a

/-- What a step can do that is given `vs`: it frees no vector and spares what is hidden from it. -/
structure Step (vs : List R.Value) (s s' : Store R.Value R.Heap) (results : List R.Value) :
    Prop where
  grows : ∀ a, (V.contents s.heap a).isSome = true → (V.contents s'.heap a).isSome = true
  spares : ∀ a, V.Hides a vs s → V.Spared a s s' results

/-- Only this vector changes, or is made, and nothing comes to lead to it. -/
structure Changes (a : R.Value) (elems : List R.Value) (s s' : Store R.Value R.Heap) : Prop where
  contents : V.contents s'.heap a = some elems
  others : ∀ b, b ≠ a → V.contents s'.heap b = V.contents s.heap b
  vars : s'.vars = s.vars
  leads : ∀ v, V.leads s' v a → V.leads s v a
  exposed : V.exposed s' a → V.exposed s a

structure Makes (a : R.Value) (elems : List R.Value) (s s' : Store R.Value R.Heap) : Prop
    extends V.Changes a elems s s' where
  fresh : V.contents s.heap a = none

end VectorView

/-- A host whose functions for vectors do what they are for, and which touches no vector that it
cannot get at. -/
structure VectorHost (R : Runtime) extends VectorView R where
  not_leads_constant : ∀ s c a, ¬leads s (R.constant c) a
  exposed_of_var : ∀ {s name a}, leads s (s.vars name) a → exposed s a
  step_unary : ∀ {i v s r s'}, R.unary i v s = .ok r s' → toVectorView.Step [v] s s' [r]
  step_binary : ∀ {i u v s r s'}, R.binary i u v s = .ok r s' →
    toVectorView.Step [u, v] s s' [r]
  step_concat : ∀ {vs s r s'}, R.concat vs s = .ok r s' → toVectorView.Step vs s s' [r]
  step_arrayRef : ∀ {a i s r s'}, R.arrayRef a i s = .ok r s' → toVectorView.Step [a, i] s s' [r]
  step_arraySet : ∀ {a i v s r s'}, R.arraySet a i v s = .ok r s' →
    toVectorView.Step [a, i, v] s s' []
  step_call : ∀ {f args s r s'}, R.call f args s = .ok r s' →
    toVectorView.Step (f :: args) s s' [r]
  vector : ∀ vs s, ∃ a s', R.call (R.constant (.symbol Host.vector)) vs s = .ok a s' ∧
    toVectorView.Makes a vs s s'
  makeVector : ∀ (n : Int64) v s, 0 ≤ n.toInt → ∃ a s',
    R.call (R.constant (.symbol Host.makeVector)) [R.constant (.int n), v] s = .ok a s' ∧
      toVectorView.Makes a (.replicate n.toInt.toNat v) s s'
  set : ∀ {a elems s} (i : Int64) v, contents s.heap a = some elems → 0 ≤ i.toInt →
    i.toInt < elems.length → ∃ s', R.arraySet a (R.constant (.int i)) v s = .ok () s' ∧
      toVectorView.Changes a (elems.set i.toInt.toNat v) s s'

namespace VectorView

variable {R : Runtime} {V : VectorView R} {vs rs rs' : List R.Value} {a : R.Value}
  {s t u : Store R.Value R.Heap}

/-- What is spared stays hidden, from the results too. -/
theorem Spared.hides (h : V.Spared a s t rs) (hides : V.Hides a vs s) :
    V.Hides a (rs ++ vs) t where
  made := by
    rw [h.contents]
    exact hides.made
  exposed := h.exposed
  leads v hv := by
    rcases List.mem_append.1 hv with hv | hv
    · exact h.results v hv
    · exact fun hleads => hides.leads v hv (h.leads v hleads)

theorem Changes.hides {elems : List R.Value} (h : V.Changes a elems s t)
    (hexposed : ¬V.exposed s a) (hleads : ∀ v ∈ vs, ¬V.leads s v a) : V.Hides a vs t where
  made := by
    rw [h.contents]
    rfl
  exposed := fun hexp => hexposed (h.exposed hexp)
  leads v hv := fun hled => hleads v hv (h.leads v hled)

namespace Step

/-- Nothing happens, and the results are known to be no way to a vector. -/
theorem same (h : ∀ a, V.Hides a vs s → ∀ v ∈ rs, ¬V.leads s v a) : V.Step vs s s rs where
  grows _ ha := ha
  spares a hides := ⟨rfl, hides.exposed, fun _ hv => hv, h a hides⟩

theorem trans (h₁ : V.Step vs s t rs) (h₂ : V.Step (rs ++ vs) t u rs') : V.Step vs s u rs' where
  grows a ha := h₂.grows a (h₁.grows a ha)
  spares a hides := by
    have hspared₁ := h₁.spares a hides
    have hspared₂ := h₂.spares a (hspared₁.hides hides)
    exact ⟨hspared₂.contents.trans hspared₁.contents, hspared₂.exposed,
      fun v hv => hspared₁.leads v (hspared₂.leads v hv), hspared₂.results⟩

end Step

end VectorView

def Run.Spares {R : Runtime} {α : Type} (V : VectorView R) (vs : List R.Value) (x : Run R α)
    (results : α → List R.Value) : Prop :=
  ∀ w a w', x w = .ok a w' → V.Step vs w.store w'.store (results a)

section

variable {R : Runtime} {V : VectorHost R} {ρ : Env R} {vs : List R.Value} {α β : Type}

namespace Run.Spares

variable {results : α → List R.Value}

theorem pure {a : α} (h : results a ⊆ vs) :
    (Pure.pure a : Run R α).Spares V.toVectorView vs results := by
  intro w b w' hb
  obtain ⟨rfl, rfl⟩ := pure_eq_ok.1 hb
  exact .same fun _ hides v hv => hides.leads v (h hv)

theorem constant (c : Constant) :
    (Pure.pure (R.constant c) : Run R R.Value).Spares V.toVectorView vs fun v => [v] := by
  intro w v w' hv
  obtain ⟨rfl, rfl⟩ := pure_eq_ok.1 hv
  refine .same fun a _ v hv => ?_
  rw [List.mem_singleton.1 hv]
  exact V.not_leads_constant _ c a

theorem readVar (name : String) :
    (Run.readVar name : Run R R.Value).Spares V.toVectorView vs fun v => [v] := by
  intro w v w' hv
  cases hv
  refine .same fun a hides v hv hleads => hides.exposed ?_
  rw [List.mem_singleton.1 hv] at hleads
  exact V.exposed_of_var hleads

theorem throw (e : Stop) : (MonadExcept.throw e : Run R α).Spares V.toVectorView vs results :=
  fun _ _ _ h => absurd h throw_ne_ok

theorem bind {x : Run R α} {y : α → Run R β} {results' : β → List R.Value}
    (hx : x.Spares V.toVectorView vs results)
    (hy : ∀ a, (y a).Spares V.toVectorView (results a ++ vs) results') :
    (x >>= y).Spares V.toVectorView vs results' := by
  intro w b w' h
  obtain ⟨a, w₁, ha, h⟩ := bind_eq_ok.1 h
  exact (hx w a w₁ ha).trans (hy a w₁ b w' h)

/-- Constants lead nowhere, so only the other operands of a step count as given. -/
theorem primitive {x : Action R.Value R.Heap α} {operands : List R.Value}
    (hx : ∀ s a s', x s = .ok a s' → V.Step operands s s' (results a))
    (h : ∀ v ∈ operands, v ∈ vs ∨ ∃ c, v = R.constant c) :
    (Run.primitive x).Spares V.toVectorView vs results := by
  intro w a w' ha
  obtain ⟨s, hs, rfl⟩ := Run.primitive_eq_ok.1 ha
  have hstep := hx _ _ _ hs
  refine ⟨hstep.grows, fun a hides => hstep.spares a ⟨hides.made, hides.exposed, ?_⟩⟩
  intro v hv
  rcases h v hv with hv | ⟨c, rfl⟩
  · exact hides.leads v hv
  · exact V.not_leads_constant _ c a

theorem callNamed {name : String} {args : List R.Value} (h : args ⊆ vs) :
    (Run.callNamed name args : Run R R.Value).Spares V.toVectorView vs fun v => [v] := by
  intro w v w' hv
  have hcall : (Run.primitive (R.call (R.constant (.symbol name)) args)).Spares V.toVectorView vs
      fun v => [v] :=
    primitive (fun _ _ _ => V.step_call)
      (List.forall_mem_cons.2 ⟨.inr ⟨_, rfl⟩, fun v hv => .inl (h hv)⟩)
  exact hcall ⟨w.store, w.calls ++ [(R.constant (.symbol name), args)]⟩ v w' hv

end Run.Spares

/-- What a variable holds is one of the values of the environment. -/
theorem mem_of_lookup {name : String} {v : R.Value} (h : ρ.lookup name = some v) :
    v ∈ ρ.map Prod.snd := by
  obtain ⟨before, after, rfl, -⟩ := List.lookup_eq_some_iff.1 h
  simp

mutual
/-- Evaluation spares what is hidden from the variables and from the host. -/
theorem spares_evalValue (f : Form) {vs : List R.Value} (hρ : ρ.map Prod.snd ⊆ vs) :
    (evalValue R ρ f).Spares V.toVectorView vs fun v => [v] := by
  cases f with
  | bool _ | char _ | int _ | float _ | str _ | symbol _ => exact .constant _
  | var name =>
      simp only [evalValue]
      split
      · rename_i v hv
        exact .pure (by simpa using hρ (mem_of_lookup hv))
      · exact .readVar _
  | resultRef index =>
      simp only [evalValue]
      split
      · exact .readVar _
      · exact .throw _
  | array elems =>
      exact (spares_evalValues elems hρ).bind fun _ => .callNamed (List.subset_append_left _ _)
  | sparseArray ctor stores =>
      exact (spares_evalValue ctor hρ).bind fun a =>
        (spares_evalStores stores (List.subset_append_of_subset_right _ hρ)
          List.mem_cons_self).bind fun _ => .pure (by simp)
  | copy source =>
      exact (spares_evalValue source hρ).bind fun _ => .callNamed (List.subset_append_left _ _)
  | get source index =>
      exact (spares_evalValue source hρ).bind fun a =>
        (spares_evalValue index (List.subset_append_of_subset_right _ hρ)).bind fun i =>
          .primitive (fun _ _ _ => V.step_arrayRef) (by simp)
  | op kind family args =>
      simp only [evalValue]
      split
      · exact .throw _
      · exact (spares_evalValues args hρ).bind fun vs =>
          .primitive (fun _ _ _ => V.step_concat) fun _ hv => .inl (List.mem_append_left _ hv)
      · exact (spares_evalValues args hρ).bind fun _ => .callNamed (List.subset_append_left _ _)
      · exact spares_evalChain args hρ
      · exact (spares_evalChain args hρ).bind fun v =>
          .primitive (fun _ _ _ => V.step_unary) (by simp)
  | unary kind family arg =>
      have harg := spares_evalValue arg hρ
      cases kind <;> cases family <;>
        first
        | exact .throw _
        | exact harg.bind fun v => .primitive (fun _ _ _ => V.step_unary) (by simp)
        | exact harg.bind fun v => .callNamed (List.subset_append_left _ _)
  | not arg =>
      exact (spares_evalValue arg hρ).bind fun v =>
        .primitive (fun _ _ _ => V.step_unary) (by simp)
  | and left right =>
      refine (spares_evalValue left hρ).bind fun v => ?_
      split
      · exact .pure (List.subset_append_left _ _)
      · exact spares_evalValue right (List.subset_append_of_subset_right _ hρ)
  | or left right =>
      refine (spares_evalValue left hρ).bind fun v => ?_
      split
      · exact spares_evalValue right (List.subset_append_of_subset_right _ hρ)
      · exact .pure (List.subset_append_left _ _)
  | call name args =>
      exact (spares_evalValues args hρ).bind fun _ => .callNamed (List.subset_append_left _ _)
  | dynCall callee args =>
      exact (spares_evalValue callee hρ).bind fun f =>
        (spares_evalValues args (List.subset_append_of_subset_right _ hρ)).bind fun vs =>
          .callNamed (by simp)
  | block _ | branch _ _ _ | loop _ _ _ | ret _ | breakLoop | continueLoop | bind _ _ | rebind _ _
  | set _ _ _ => exact .throw _
termination_by structural f

theorem spares_evalValues (fs : List Form) {vs : List R.Value} (hρ : ρ.map Prod.snd ⊆ vs) :
    (evalValues R ρ fs).Spares V.toVectorView vs id := by
  cases fs with
  | nil => exact .pure (List.nil_subset _)
  | cons f fs =>
      exact (spares_evalValue f hρ).bind fun v =>
        (spares_evalValues fs (List.subset_append_of_subset_right _ hρ)).bind fun vs =>
          .pure (by simp)
termination_by structural fs

theorem spares_evalChain (fs : List Form) {i : BinaryInstr} {vs : List R.Value}
    (hρ : ρ.map Prod.snd ⊆ vs) :
    (evalChain R ρ i fs).Spares V.toVectorView vs fun v => [v] := by
  cases fs with
  | nil => exact .throw _
  | cons f fs =>
      exact (spares_evalValue f hρ).bind fun v =>
        spares_evalChainRest fs (List.subset_append_of_subset_right _ hρ) List.mem_cons_self
termination_by structural fs

theorem spares_evalChainRest (fs : List Form) {i : BinaryInstr} {left : R.Value}
    {vs : List R.Value} (hρ : ρ.map Prod.snd ⊆ vs) (hleft : left ∈ vs) :
    (evalChainRest R ρ i left fs).Spares V.toVectorView vs fun v => [v] := by
  cases fs with
  | nil => exact .pure (by simpa using hleft)
  | cons f fs =>
      refine (spares_evalValue f hρ).bind fun right => ?_
      refine (Run.Spares.primitive (fun _ _ _ => V.step_binary) (by simp [hleft])).bind fun v => ?_
      exact spares_evalChainRest fs (List.subset_append_of_subset_right _
        (List.subset_append_of_subset_right _ hρ)) List.mem_cons_self
termination_by structural fs

theorem spares_evalStores (stores : List (Int64 × Form)) {a : R.Value} {vs : List R.Value}
    (hρ : ρ.map Prod.snd ⊆ vs) (ha : a ∈ vs) :
    (evalStores R ρ a stores).Spares V.toVectorView vs fun _ => [] := by
  match stores with
  | [] => exact .pure (List.nil_subset _)
  | (index, f) :: rest =>
      refine (spares_evalValue f hρ).bind fun v => ?_
      have hgiven : ∀ u ∈ [a, R.constant (.int index), v],
          u ∈ [v] ++ vs ∨ ∃ c, u = R.constant c := by
        refine List.forall_mem_cons.2 ⟨.inl (List.mem_append_right _ ha), ?_⟩
        exact List.forall_mem_cons.2 ⟨.inr ⟨_, rfl⟩, by simp⟩
      refine (Run.Spares.primitive (fun _ _ _ => V.step_arraySet) hgiven).bind fun _ => ?_
      exact spares_evalStores rest (List.subset_append_of_subset_right _
        (List.subset_append_of_subset_right _ hρ)) (List.mem_append_right _
          (List.mem_append_right _ ha))
termination_by structural stores
end

end

/-! ### A host of cells -/

namespace Cell

def contents (heap : Heap) : Cell → Option (List Cell)
  | .vector place => heap[place]?
  | .constant _ => none

/-- Reading elements gets from one cell to the other. -/
inductive Leads (heap : Heap) : Cell → Cell → Prop where
  | self (place : Nat) : Leads heap (.vector place) (.vector place)
  | step {place : Nat} {v a : Cell} (hv : v ∈ heap.getD place []) (ha : Leads heap v a) :
      Leads heap (.vector place) a

def callMaker (f : Cell) (args : List Cell) : Action Cell Heap Cell := fun s =>
  if f = .constant (.symbol Host.makeVector) then
    match args with
    | [.constant (.int n), v] => allocate (.replicate n.toInt.toNat v) s
    | _ => .error () s
  else call f args s

theorem get_ok {a i v : Cell} {s s' : Store Cell Heap} (h : get a i s = .ok v s') :
    s' = s ∧ ∃ place, a = .vector place ∧ v ∈ s.heap.getD place [] := by
  unfold get at h
  split at h
  · rename_i place n
    split at h
    · rename_i hv
      cases h
      exact ⟨rfl, place, rfl, List.mem_of_getElem? hv⟩
    · cases h
  · cases h

theorem set_ok {a i v : Cell} {r : Unit} {s s' : Store Cell Heap} (h : set a i v s = .ok r s') :
    ∃ place n, a = .vector place ∧ s' = { s with heap := s.heap.modify place (·.set n v) } := by
  unfold set at h
  split at h
  · cases h
    exact ⟨_, _, rfl, rfl⟩
  · cases h

/-- What is called makes a vector of elements that the arguments are or hold. -/
theorem callMaker_ok {f r : Cell} {args : List Cell} {s s' : Store Cell Heap}
    (h : callMaker f args s = .ok r s') :
    ∃ elems, r = .vector s.heap.length ∧ s' = { s with heap := s.heap ++ [elems] } ∧
      ∀ u ∈ elems, ∀ a, Leads s.heap u a → ∃ v ∈ args, Leads s.heap v a := by
  unfold callMaker at h
  split at h
  · split at h
    · rename_i n v
      cases h
      refine ⟨_, rfl, rfl, fun u hu a ha => ⟨v, by simp, ?_⟩⟩
      rw [← List.eq_of_mem_replicate hu]
      exact ha
    · cases h
  · unfold call at h
    split at h
    · cases h
      exact ⟨_, rfl, rfl, fun u hu a ha => ⟨u, hu, ha⟩⟩
    · split at h
      · rename_i place
        split at h
        · cases h
          exact ⟨_, rfl, rfl, fun u hu a ha => ⟨_, List.mem_cons_self, .step hu ha⟩⟩
        · cases h
      · cases h

/-- Where heaps differ in one vector, nothing leads to more than before unless that vector does. -/
theorem Leads.of_change {heap heap' : Heap} {place : Nat} {v a : Cell}
    (hothers : ∀ q, q ≠ place → heap'[q]? = heap[q]?)
    (hplace : ∀ u ∈ heap'.getD place [], Leads heap u a → Leads heap (.vector place) a)
    (h : Leads heap' v a) : Leads heap v a := by
  induction h with
  | self q => exact .self q
  | @step q u a hu _ ih =>
      by_cases hq : q = place
      · subst hq
        exact hplace u hu (ih hplace)
      · rw [List.getD_eq_getElem?_getD, hothers q hq, ← List.getD_eq_getElem?_getD] at hu
        exact .step hu (ih hplace)

end Cell

def Runtime.makers : Runtime :=
  { Runtime.cells with call := Cell.callMaker }

/-- How it sees vectors. Its dynamic variables are all that it knows itself. -/
def VectorView.makers : VectorView .makers where
  contents := Cell.contents
  leads s := Cell.Leads s.heap
  exposed s a := ∃ name, Cell.Leads s.heap (s.vars name) a

namespace VectorView

variable {s : Store Cell Cell.Heap} {heap : Cell.Heap} {place : Nat}

theorem contents_of_ne (hothers : ∀ q, q ≠ place → heap[q]? = s.heap[q]?) {b : Cell}
    (hb : b ≠ .vector place) : Cell.contents heap b = Cell.contents s.heap b := by
  cases b with
  | constant _ => rfl
  | vector q => exact hothers q fun heq => hb (by rw [heq])

theorem changes_makers {elems : List Cell} (hplace : heap[place]? = some elems)
    (hothers : ∀ q, q ≠ place → heap[q]? = s.heap[q]?) :
    makers.Changes (.vector place) elems s { s with heap } := by
  have hleads : ∀ v, Cell.Leads heap v (.vector place) → Cell.Leads s.heap v (.vector place) :=
    fun v h => h.of_change hothers fun _ _ _ => .self place
  exact ⟨hplace, fun _ hb => contents_of_ne hothers hb, rfl, hleads,
    fun ⟨name, hname⟩ => ⟨name, hleads _ hname⟩⟩

/-- A change of one vector spares those to which neither it nor what is put into it leads. -/
theorem step_makers {vs rs : List Cell} (hothers : ∀ q, q ≠ place → heap[q]? = s.heap[q]?)
    (hkept : s.heap[place]?.isSome = true → heap[place]?.isSome = true)
    (hplace : ∀ a, makers.Hides a vs s → a ≠ .vector place)
    (hnew : ∀ a, makers.Hides a vs s → ∀ u ∈ heap.getD place [], Cell.Leads s.heap u a →
      Cell.Leads s.heap (.vector place) a)
    (hrs : ∀ a, makers.Hides a vs s → ∀ v ∈ rs, ¬Cell.Leads s.heap v a) :
    makers.Step vs s { s with heap } rs where
  grows a ha := by
    by_cases heq : a = .vector place
    · subst heq
      exact hkept ha
    · have hsame := contents_of_ne hothers heq
      exact (congrArg Option.isSome hsame).trans ha
  spares a hides := by
    have hleads : ∀ v, Cell.Leads heap v a → Cell.Leads s.heap v a :=
      fun v h => h.of_change hothers (hnew a hides)
    exact ⟨contents_of_ne hothers (hplace a hides),
      fun ⟨name, hname⟩ => hides.exposed ⟨name, hleads _ hname⟩, hleads,
      fun v hv h => hrs a hides v hv (hleads v h)⟩

theorem getElem?_append_of_ne (elems : List Cell) (q : Nat) (hq : q ≠ s.heap.length) :
    (s.heap ++ [elems])[q]? = s.heap[q]? := by
  rw [List.getElem?_append]
  split
  · rfl
  · rw [List.getElem?_eq_none (by rw [List.length_singleton]; omega),
      List.getElem?_eq_none (by omega)]

theorem step_allocate {args elems : List Cell}
    (helems : ∀ u ∈ elems, ∀ a, Cell.Leads s.heap u a → ∃ v ∈ args, Cell.Leads s.heap v a) :
    makers.Step args s { s with heap := s.heap ++ [elems] } [.vector s.heap.length] := by
  have hfresh : ∀ a, makers.Hides a args s → ¬Cell.Leads s.heap (.vector s.heap.length) a := by
    intro a hides hleads
    cases hleads with
    | self =>
        have hmade : s.heap[s.heap.length]?.isSome = true := hides.made
        simp at hmade
    | step hv _ => simp at hv
  refine step_makers (getElem?_append_of_ne elems) (by simp) (fun a hides heq => ?_)
    (fun a hides u hu hleads => ?_) (fun a hides v hv => ?_)
  · subst heq
    exact hfresh _ hides (.self _)
  · obtain ⟨v, hv, hv'⟩ := helems u (by simpa using hu) a hleads
    exact absurd hv' (hides.leads v hv)
  · rw [List.mem_singleton.1 hv]
    exact hfresh a hides

theorem makes_allocate (elems : List Cell) :
    makers.Makes (.vector s.heap.length) elems s { s with heap := s.heap ++ [elems] } where
  toChanges := changes_makers (by simp) (getElem?_append_of_ne elems)
  fresh := List.getElem?_eq_none (Nat.le_refl _)

theorem getElem?_modify_of_ne {change : List Cell → List Cell} (q : Nat) (hq : q ≠ place) :
    (s.heap.modify place change)[q]? = s.heap[q]? := by
  simp [Ne.symm hq]

theorem changes_set {elems : List Cell} {n : Nat} {v : Cell} (h : s.heap[place]? = some elems) :
    makers.Changes (.vector place) (elems.set n v) s
      { s with heap := s.heap.modify place (·.set n v) } := by
  refine changes_makers ?_ getElem?_modify_of_ne
  rw [List.getElem?_modify_eq, h]
  rfl

theorem step_set {n : Nat} {i v : Cell} :
    makers.Step [.vector place, i, v] s { s with heap := s.heap.modify place (·.set n v) } [] := by
  refine step_makers getElem?_modify_of_ne (by simp) (fun a hides heq => ?_)
    (fun a hides u hu hleads => ?_) (fun a hides v hv => absurd hv List.not_mem_nil)
  · subst heq
    exact hides.leads _ List.mem_cons_self (.self place)
  · -- the new element leads to no hidden vector, and the others have been there before
    have hcells : (s.heap.modify place (·.set n v)).getD place [] =
        (s.heap.getD place []).set n v := by
      simp only [List.getD_eq_getElem?_getD, List.getElem?_modify_eq]
      cases s.heap[place]? <;> rfl
    rw [hcells] at hu
    rcases List.mem_or_eq_of_mem_set hu with hu | rfl
    · exact .step hu hleads
    · exact absurd hleads (hides.leads u (List.mem_cons_of_mem _ (List.mem_cons_of_mem _
        List.mem_cons_self)))

end VectorView

def VectorHost.makers : VectorHost .makers where
  toVectorView := .makers
  not_leads_constant s c a h := by cases h
  exposed_of_var h := ⟨_, h⟩
  step_unary h := absurd h throw_ne_ok
  step_binary h := absurd h throw_ne_ok
  step_concat h := absurd h throw_ne_ok
  step_arrayRef h := by
    obtain ⟨rfl, place, rfl, hv⟩ := Cell.get_ok h
    refine .same fun a hides v hv' hleads => ?_
    rw [List.mem_singleton.1 hv'] at hleads
    exact hides.leads _ List.mem_cons_self (.step hv hleads)
  step_arraySet h := by
    obtain ⟨place, n, rfl, rfl⟩ := Cell.set_ok h
    exact VectorView.step_set
  step_call h := by
    obtain ⟨elems, rfl, rfl, helems⟩ := Cell.callMaker_ok h
    refine VectorView.step_allocate fun u hu a ha => ?_
    obtain ⟨v, hv, hleads⟩ := helems u hu a ha
    exact ⟨v, List.mem_cons_of_mem _ hv, hleads⟩
  vector vs s := ⟨_, _, rfl, VectorView.makes_allocate vs⟩
  makeVector n v s _ := ⟨_, _, rfl, VectorView.makes_allocate _⟩
  set {a elems s} i v hcells _ _ := by
    cases a with
    | constant c => cases hcells
    | vector place =>
        exact ⟨_, rfl, VectorView.changes_set hcells⟩

end StackCompiler
