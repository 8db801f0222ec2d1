import StackCompiler.Proofs.CallLog
import StackCompiler.Proofs.Destinations

/-!
The order of stores. A destination can be found when its turn comes, or before the first store.
`storeInTurn_eq_storeTogether` says when this makes no difference: a store that changes a variable
must not change what later destinations read, and one that changes the host must be followed by
destinations that only the environment decides.
-/

namespace StackCompiler

/-! ### Evaluation depends on the variables that are read -/

/-- Whether a form, apart from its parts, is no variable in which two environments differ. -/
def Form.AgreesIn {R : Runtime} (ρ ρ' : Env R) (f : Form) : Prop :=
  ∀ name, f = .var name → ρ.lookup name = ρ'.lookup name

section

variable {R : Runtime} {ρ ρ' : Env R}

mutual
theorem evalValue_congr (f : Form) (h : f.Every (Form.AgreesIn ρ ρ')) :
    evalValue R ρ f = evalValue R ρ' f := by
  cases f with
  | var name =>
      rw [Form.every_var] at h
      simp only [evalValue, h name rfl]
  | array elems =>
      rw [Form.every_array] at h
      simp only [evalValue, evalValues_congr elems h.2]
  | sparseArray ctor stores =>
      rw [Form.every_sparseArray] at h
      simp only [evalValue, evalValue_congr ctor h.2.1, evalStores_congr stores h.2.2]
  | op kind family args =>
      rw [Form.every_op] at h
      simp only [evalValue, evalValues_congr args h.2, evalChain_congr args h.2]
  | unary kind family arg =>
      rw [Form.every_unary] at h
      cases kind <;> cases family <;> simp only [evalValue, evalValue_congr arg h.2]
  | not arg =>
      rw [Form.every_not] at h
      simp only [evalValue, evalValue_congr arg h.2]
  | and left right =>
      rw [Form.every_and] at h
      simp only [evalValue, evalValue_congr left h.2.1, evalValue_congr right h.2.2]
  | or left right =>
      rw [Form.every_or] at h
      simp only [evalValue, evalValue_congr left h.2.1, evalValue_congr right h.2.2]
  | call name args =>
      rw [Form.every_call] at h
      simp only [evalValue, evalValues_congr args h.2]
  | dynCall callee args =>
      rw [Form.every_dynCall] at h
      simp only [evalValue, evalValue_congr callee h.2.1, evalValues_congr args h.2.2]
  | copy source =>
      rw [Form.every_copy] at h
      simp only [evalValue, evalValue_congr source h.2]
  | get source index =>
      rw [Form.every_get] at h
      simp only [evalValue, evalValue_congr source h.2.1, evalValue_congr index h.2.2]
  | _ => rfl
termination_by structural f

theorem evalValues_congr (fs : List Form) (h : EveryIn (Form.AgreesIn ρ ρ') fs) :
    evalValues R ρ fs = evalValues R ρ' fs := by
  cases fs with
  | nil => rfl
  | cons f fs =>
      rw [everyIn_cons] at h
      simp only [evalValues, evalValue_congr f h.1, evalValues_congr fs h.2]
termination_by structural fs

theorem evalChain_congr (fs : List Form) (h : EveryIn (Form.AgreesIn ρ ρ') fs) (i : BinaryInstr) :
    evalChain R ρ i fs = evalChain R ρ' i fs := by
  cases fs with
  | nil => rfl
  | cons f fs =>
      rw [everyIn_cons] at h
      simp only [evalChain, evalValue_congr f h.1, evalChainRest_congr fs h.2]
termination_by structural fs

theorem evalChainRest_congr (fs : List Form) (h : EveryIn (Form.AgreesIn ρ ρ') fs)
    (i : BinaryInstr) (left : R.Value) :
    evalChainRest R ρ i left fs = evalChainRest R ρ' i left fs := by
  cases fs with
  | nil => rfl
  | cons f fs =>
      rw [everyIn_cons] at h
      simp only [evalChainRest, evalValue_congr f h.1, evalChainRest_congr fs h.2]
termination_by structural fs

theorem evalStores_congr (stores : List (Int64 × Form))
    (h : EveryIn (Form.AgreesIn ρ ρ') (stores.map (·.2))) (a : R.Value) :
    evalStores R ρ a stores = evalStores R ρ' a stores := by
  match stores with
  | [] => rfl
  | (_, f) :: rest =>
      rw [List.map_cons, everyIn_cons] at h
      simp only [evalStores, evalValue_congr f h.1, evalStores_congr rest h.2]
termination_by structural stores
end

end

/-! ### Stores in turn and stores together -/

/-- A destination that has been found: what selects an element is a value. -/
inductive Place (R : Runtime) where
  | blank
  | define (name : String)
  | assign (name : String)
  | element (array index : R.Value)

section

variable (R : Runtime) (ρ : Env R)

def Destination.place : Destination → Run R (Place R)
  | blank => return .blank
  | define name => return .define name
  | assign name => return .assign name
  | element base index => do
    let a ← evalValue R ρ base
    let i ← evalValue R ρ index
    return .element a i

def Place.put {R : Runtime} (v : R.Value) (ρ : Env R) : Place R → Run R (Env R)
  | blank => return ρ
  | define name => return (name, v) :: ρ
  | assign name =>
    match ρ.update? name v with
    | some ρ' => return ρ'
    | none => do
      Run.writeVar name v
      return ρ
  | element a i => do
    Run.primitive (R.arraySet a i v)
    return ρ

abbrev Delivery := Destination × Run R R.Value

/-- Finds each destination and stores its value before the next one is found. -/
def storeInTurn (ρ : Env R) : List (Delivery R) → Run R (Env R)
  | [] => return ρ
  | (d, x) :: rest => do
    let p ← d.place R ρ
    let v ← x
    let ρ ← p.put v ρ
    storeInTurn ρ rest

def findAll : List (Delivery R) → Run R (List (Place R × R.Value))
  | [] => return []
  | (d, x) :: rest => do
    let p ← d.place R ρ
    let v ← x
    let found ← findAll rest
    return (p, v) :: found

def putAll {R : Runtime} (ρ : Env R) : List (Place R × R.Value) → Run R (Env R)
  | [] => return ρ
  | (p, v) :: rest => do
    let ρ ← p.put v ρ
    putAll ρ rest

/-- Finds all destinations before the first store. -/
def storeTogether (deliveries : List (Delivery R)) : Run R (Env R) := do
  let found ← findAll R ρ deliveries
  putAll ρ found

/-- Whether a form has a value that nothing but the environment decides, and no effect. -/
def Settled (f : Form) : Prop :=
  ∃ v, ∀ w, evalValue R ρ f w = .ok v w

end

namespace Destination

def names : Destination → List String
  | define name | assign name => [name]
  | _ => []

/-- Whether a store into the destination changes the host and not the environment. -/
def IsShared {R : Runtime} (ρ : Env R) : Destination → Prop
  | assign name => ρ.lookup name = none
  | element _ _ => True
  | _ => False

/-- Whether a store into `d` leaves alone what `e` is found by: no operand of `e` reads the
variable, and if the host is changed then nothing but the environment decides the operands. -/
def Misses (R : Runtime) (ρ : Env R) (d e : Destination) : Prop :=
  ∀ f ∈ e.operands, (∀ name ∈ d.names, f.Every (· ≠ .var name)) ∧ (d.IsShared ρ → Settled R ρ f)

end Destination

/-- Whether a computation only reads, and reads the same in all worlds that are related to the one
at hand. -/
def Run.Steady {R : Runtime} {α : Type} (K : World R → World R → Prop) (x : Run R α) : Prop :=
  ∀ w, ∃ a, ∀ w', K w w' → x w' = .ok a w'

section

variable {R : Runtime} {ρ ρ' : Env R} {K : World R → World R → Prop} {α β γ : Type}

theorem Run.Steady.pure (a : α) : (Pure.pure a : Run R α).Steady K :=
  fun _ => ⟨a, fun _ _ => rfl⟩

theorem Run.Steady.bind {x : Run R α} {y : α → Run R β} (hx : x.Steady K)
    (hy : ∀ a, (y a).Steady K) : (x >>= y).Steady K := by
  intro w
  obtain ⟨a, ha⟩ := hx w
  obtain ⟨b, hb⟩ := hy a w
  exact ⟨b, fun w' hw => by rw [bind_of_ok (ha w' hw), hb w' hw]⟩

theorem Settled.steady {f : Form} (h : Settled R ρ f) : (evalValue R ρ f).Steady K := by
  obtain ⟨v, hv⟩ := h
  exact fun _ => ⟨v, fun w' _ => hv w'⟩

/-- What only reads may as well be done before a step that keeps what it reads. -/
theorem Run.Steady.bind_comm (hrefl : ∀ w, K w w) {x : Run R α} (hx : x.Steady K) {y : Run R β}
    (hy : ∀ w, K w (y.after w)) (k : α → β → Run R γ) :
    (do let b ← y; let a ← x; k a b) = (do let a ← x; let b ← y; k a b) := by
  funext w
  obtain ⟨a, ha⟩ := hx w
  rw [bind_of_ok (ha w (hrefl w))]
  cases hrun : y w with
  | ok b w' =>
      have hkeeps := hy w
      rw [Run.after_of_ok hrun] at hkeeps
      rw [bind_of_ok hrun, bind_of_ok hrun, bind_of_ok (ha w' hkeeps)]
  | error e w' => rw [bind_of_error hrun, bind_of_error hrun]

theorem Destination.place_congr {d : Destination}
    (h : ∀ f ∈ d.operands, f.Every (Form.AgreesIn ρ ρ')) : d.place R ρ = d.place R ρ' := by
  cases d with
  | element base index =>
      simp only [operands, List.forall_mem_cons] at h
      simp only [place, evalValue_congr base h.1, evalValue_congr index h.2.1]
  | _ => rfl

theorem findAll_congr {deliveries : List (Delivery R)}
    (h : ∀ delivery ∈ deliveries, ∀ f ∈ delivery.1.operands, f.Every (Form.AgreesIn ρ ρ')) :
    findAll R ρ deliveries = findAll R ρ' deliveries := by
  induction deliveries with
  | nil => rfl
  | cons delivery rest ih =>
      rw [List.forall_mem_cons] at h
      simp only [findAll, Destination.place_congr h.1, ih h.2]

theorem Destination.steady_place {d : Destination} (h : ∀ f ∈ d.operands, Settled R ρ f) :
    (d.place R ρ).Steady K := by
  cases d with
  | element base index =>
      simp only [operands, List.forall_mem_cons] at h
      exact h.1.steady.bind fun _ => h.2.1.steady.bind fun _ => .pure _
  | _ => exact .pure _

theorem steady_findAll {deliveries : List (Delivery R)}
    (h : ∀ delivery ∈ deliveries,
      (∀ f ∈ delivery.1.operands, Settled R ρ f) ∧ delivery.2.Steady K) :
    (findAll R ρ deliveries).Steady K := by
  induction deliveries with
  | nil => exact .pure _
  | cons delivery rest ih =>
      rw [List.forall_mem_cons] at h
      exact (Destination.steady_place h.1.1).bind fun _ => h.1.2.bind fun _ =>
        (ih h.2).bind fun _ => .pure _

theorem Env.lookup_of_update? {name : String} {v : R.Value} (h : ρ.update? name v = some ρ') :
    (∀ other, other ≠ name → ρ'.lookup other = ρ.lookup other) ∧
      ∀ other, ρ'.lookup other = none → ρ.lookup other = none := by
  induction ρ generalizing ρ' with
  | nil => cases h
  | cons entry ρ ih =>
      obtain ⟨x, old⟩ := entry
      simp only [update?] at h
      split at h
      · rename_i hx
        cases h
        refine ⟨fun other hother => ?_, fun other hnone => ?_⟩
        · simp [List.lookup_cons, beq_false_of_ne (hx ▸ hother)]
        · simp only [List.lookup_cons] at hnone ⊢
          split at hnone
          · cases hnone
          · exact hnone
      · obtain ⟨tail, htail, rfl⟩ := Option.map_eq_some_iff.1 h
        obtain ⟨hother, hnone⟩ := ih htail
        simp only [List.lookup_cons]
        refine ⟨fun other hne => ?_, fun other h => ?_⟩
        · rw [hother other hne]
        · split at h
          · cases h
          · exact hnone other h

theorem Env.lookup_of_update?_eq_none {name : String} {v : R.Value} (h : ρ.update? name v = none) :
    ρ.lookup name = none := by
  induction ρ with
  | nil => rfl
  | cons entry ρ ih =>
      obtain ⟨x, old⟩ := entry
      simp only [update?] at h
      split at h
      · cases h
      · rename_i hx
        rw [List.lookup_cons, beq_false_of_ne (Ne.symm hx)]
        exact ih (Option.map_eq_none_iff.1 h)

/-- A store changes the environment, or it changes the host and leaves the environment. -/
theorem Destination.put_cases {d : Destination} {p : Place R} {w w' : World R}
    (h : d.place R ρ w = .ok p w') (v : R.Value) :
    (∃ ρ', p.put v ρ = pure ρ' ∧ (∀ name, name ∉ d.names → ρ'.lookup name = ρ.lookup name) ∧
        ∀ name, ρ'.lookup name = none → ρ.lookup name = none) ∨
      d.IsShared ρ ∧ ∃ x : Run R Unit, p.put v ρ = (do x; return ρ) := by
  cases d with
  | blank =>
      cases h
      exact .inl ⟨ρ, rfl, fun _ _ => rfl, fun _ hnone => hnone⟩
  | define name =>
      cases h
      refine .inl ⟨_, rfl, fun other hother => ?_, fun other hnone => ?_⟩
      · simp only [names, List.mem_singleton] at hother
        simp [List.lookup_cons, beq_false_of_ne hother]
      · simp only [List.lookup_cons] at hnone
        split at hnone
        · cases hnone
        · exact hnone
  | assign name =>
      cases h
      simp only [Place.put]
      cases hupdate : ρ.update? name v with
      | some ρ' =>
          obtain ⟨hother, hnone⟩ := Env.lookup_of_update? hupdate
          refine .inl ⟨ρ', rfl, fun other hne => hother other ?_, hnone⟩
          simpa [names] using hne
      | none => exact .inr ⟨Env.lookup_of_update?_eq_none hupdate, _, rfl⟩
  | element base index =>
      obtain ⟨a, _, -, h⟩ := bind_eq_ok.1 h
      obtain ⟨i, _, -, h⟩ := bind_eq_ok.1 h
      cases h
      exact .inr ⟨trivial, _, rfl⟩

theorem Destination.Misses.agreesIn {d e : Destination} (h : d.Misses R ρ e)
    (hlookup : ∀ name, name ∉ d.names → ρ'.lookup name = ρ.lookup name) :
    ∀ f ∈ e.operands, f.Every (Form.AgreesIn ρ' ρ) := by
  intro f hf g hg name hname
  refine hlookup name fun hmem => ?_
  exact (h f hf).1 name hmem g hg hname

/-- What a store misses before a change of the environment that leaves the operands alone, it misses
afterwards. -/
theorem Destination.Misses.of_agreesIn {d e : Destination} (h : d.Misses R ρ e)
    (hagrees : ∀ f ∈ e.operands, f.Every (Form.AgreesIn ρ' ρ))
    (hnone : ∀ name, ρ'.lookup name = none → ρ.lookup name = none) : d.Misses R ρ' e := by
  intro f hf
  refine ⟨(h f hf).1, fun hshared => ?_⟩
  have hshared' : d.IsShared ρ := by
    cases d with
    | assign name => exact hnone name hshared
    | _ => exact hshared
  obtain ⟨v, hv⟩ := (h f hf).2 hshared'
  exact ⟨v, fun w => by rw [evalValue_congr f (hagrees f hf), hv w]⟩

/-- Where every store misses the later destinations, it does not matter when these are found. -/
theorem storeInTurn_eq_storeTogether (hrefl : ∀ w, K w w) {deliveries : List (Delivery R)}
    (hmisses : deliveries.Pairwise fun a b => a.1.Misses R ρ b.1)
    (hsteady : ∀ delivery ∈ deliveries.tail, delivery.2.Steady K)
    (hkeeps : ∀ delivery ∈ deliveries, ∀ {ρ : Env R} {p w w'}, delivery.1.place R ρ w = .ok p w' →
      ∀ v ρ w, K w ((p.put v ρ).after w)) :
    storeInTurn R ρ deliveries = storeTogether R ρ deliveries := by
  induction deliveries generalizing ρ with
  | nil => rfl
  | cons delivery rest ih =>
      obtain ⟨d, x⟩ := delivery
      rw [List.pairwise_cons] at hmisses
      rw [List.forall_mem_cons] at hkeeps
      funext w
      simp only [storeInTurn, storeTogether, findAll, bind_assoc, pure_bind, putAll]
      refine bind_congr_of_ok fun p w₁ hp => bind_congr_of_ok fun v w₂ _ => ?_
      obtain ⟨ρ', hput, hlookup, hnone⟩ | ⟨hshared, y, hput⟩ := d.put_cases hp v
      · have hagrees : ∀ delivery ∈ rest, ∀ f ∈ delivery.1.operands, f.Every (Form.AgreesIn ρ' ρ) :=
          fun delivery hmem => (hmisses.1 delivery hmem).agreesIn hlookup
        have hpairs : rest.Pairwise fun a b => a.1.Misses R ρ' b.1 :=
          hmisses.2.imp_of_mem fun _ hb h => h.of_agreesIn (hagrees _ hb) hnone
        simp only [hput, pure_bind]
        rw [ih hpairs (fun _ h => hsteady _ (List.mem_of_mem_tail h)) hkeeps.2, storeTogether,
          findAll_congr hagrees]
      · have hfind : (findAll R ρ rest).Steady K := steady_findAll fun delivery hmem =>
          ⟨fun f hf => (hmisses.1 delivery hmem f hf).2 hshared, hsteady delivery hmem⟩
        have hy : ∀ w, K w (y.after w) := by
          intro w
          have hafter := hkeeps.1 hp v ρ w
          rwa [hput, Run.after_map] at hafter
        simp only [hput, bind_assoc, pure_bind]
        rw [ih hmisses.2 (fun _ h => hsteady _ (List.mem_of_mem_tail h)) hkeeps.2, storeTogether]
        exact congrFun (hfind.bind_comm hrefl hy fun found _ => putAll ρ found) w₂

end

end StackCompiler
