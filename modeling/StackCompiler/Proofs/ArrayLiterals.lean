import StackCompiler.Proofs.Isolation

/-!
What array literals mean. An element stands at its key, or else one place behind the element before
it. `ofElements_ok` shows which literals have a form, and `denotes_ofStores` that this form makes
the vector that the keys describe, with the elements evaluated in the order in which they are
written. Where the keys count up there is a function of the host that makes the vector at once;
otherwise zeros are made first, and since nothing else leads to them before the literal is complete,
only the stores of the literal change them.
-/

namespace StackCompiler

open Source

/-! ### Keys -/

/-- The kind of the elements and the declared length, for kinds that have literals. -/
def Source.Kind.elements? : Kind → Option (Scalar × Option Nat)
  | .array elem length => some (elem, some length)
  | .slice elem => some (elem, none)
  | _ => none

/-- The keys of elements of which the first stands at `next` unless it says otherwise. -/
def keysFrom {α : Type} (next : Int) : List (Option Int64 × α) → List Int
  | [] => []
  | (key, _) :: rest =>
    let k := (key.map Int64.toInt).getD next
    k :: keysFrom (k + 1) rest

def KeysFit (declared : Option Nat) (keys : List Int) : Prop :=
  ∀ k ∈ keys, 0 ≤ k ∧ ∀ n, declared = some n → k < n

/-- Whether the keys can be counted with machine integers: lengths of arrays are small, and slices
have no element at the greatest integer. -/
structure CanCount (declared : Option Nat) (keys : List Int) : Prop where
  length : ∀ n, declared = some n → (n : Int) ≤ Int64.maxValue.toInt
  keys : declared = none → ∀ k ∈ keys, k < Int64.maxValue.toInt

/-- The length of a vector with elements at these keys: the declared one, or one more than the
greatest key. -/
def sizeFor (declared : Option Nat) (keys : List Int) : Nat :=
  declared.getD (keys.max?.elim 0 fun k => k.toNat + 1)

theorem keysFrom_cons {α : Type} (next : Int64) (key : Option Int64) (a : α)
    (rest : List (Option Int64 × α)) : keysFrom next.toInt ((key, a) :: rest) =
      (key.getD next).toInt :: keysFrom ((key.getD next).toInt + 1) rest := by
  cases key <;> rfl

theorem indexAllowed_iff {declared : Option Nat} {index : Int64} :
    indexAllowed declared index = true ↔
      0 ≤ index.toInt ∧ ∀ n, declared = some n → index.toInt < n := by
  cases declared <;> simp [indexAllowed]

theorem toInt_add_one {i : Int64} (h : i.toInt < Int64.maxValue.toInt) :
    (i + 1).toInt = i.toInt + 1 := by
  have hmax : Int64.maxValue.toInt = 9223372036854775807 := by decide
  have hlow := i.le_toInt
  rw [Int64.toInt_add, show (1 : Int64).toInt = 1 from rfl, Int.bmod_eq_of_le]
  · omega
  · omega

section

variable {env : Environment} {declared : Option Nat} {elems : List (Option Int64 × Expr)}

/-- The key of an element that is allowed can be counted on from. -/
theorem CanCount.toInt_add_one {keys : List Int} {index : Int64}
    (h : CanCount declared (index.toInt :: keys)) (hallowed : indexAllowed declared index = true) :
    (index + 1).toInt = index.toInt + 1 := by
  apply StackCompiler.toInt_add_one
  cases declared with
  | none => exact h.keys rfl _ List.mem_cons_self
  | some n => exact lt_of_lt_of_le ((indexAllowed_iff.1 hallowed).2 n rfl) (h.length n rfl)

theorem CanCount.tail {k : Int} {keys : List Int} (h : CanCount declared (k :: keys)) :
    CanCount declared keys :=
  ⟨h.length, fun hnone k hk => h.keys hnone k (List.mem_cons_of_mem _ hk)⟩

/-- The elements of a literal that has a form fit, stand at their keys and are stored values. -/
theorem ofElements_ok (next : Int64) {stores : List (Int64 × Form)}
    (hcount : CanCount declared (keysFrom next.toInt elems))
    (h : Form.ofElements env declared next elems = .ok stores) :
    KeysFit declared (keysFrom next.toInt elems) ∧
      stores.map (·.1.toInt) = keysFrom next.toInt elems ∧
      List.Forall₂ (fun elem f => Form.ofStored env elem.2 = .ok f) elems (stores.map (·.2)) := by
  induction elems generalizing next stores with
  | nil =>
      cases h
      exact ⟨fun k hk => absurd hk List.not_mem_nil, rfl, .nil⟩
  | cons elem rest ih =>
      obtain ⟨key, e⟩ := elem
      rw [keysFrom_cons] at hcount ⊢
      simp only [Form.ofElements] at h
      split at h
      · rename_i hallowed
        obtain ⟨f, hf, h⟩ := lower_bind_ok h
        obtain ⟨others, hothers, h⟩ := lower_bind_ok h
        cases h
        have hnext := hcount.toInt_add_one hallowed
        rw [← hnext] at hcount ⊢
        obtain ⟨hfit, hkeys, hforms⟩ := ih _ hcount.tail hothers
        refine ⟨List.forall_mem_cons.2 ⟨indexAllowed_iff.1 hallowed, hfit⟩, ?_, .cons ?_ hforms⟩
        · rw [List.map_cons, hkeys]
        · rw [Form.ofStored, hf]
          rfl
      · cases h

/-- Elements that fit and have forms are elements of a literal with a form. -/
theorem exists_ofElements (next : Int64)
    (hcount : CanCount declared (keysFrom next.toInt elems))
    (hvalues : ∀ elem ∈ elems, ∃ f, Form.ofStored env elem.2 = .ok f)
    (hfit : KeysFit declared (keysFrom next.toInt elems)) :
    ∃ stores, Form.ofElements env declared next elems = .ok stores := by
  induction elems generalizing next with
  | nil => exact ⟨[], rfl⟩
  | cons elem rest ih =>
      obtain ⟨key, e⟩ := elem
      rw [keysFrom_cons] at hcount hfit
      obtain ⟨hvalue, hvalues⟩ := List.forall_mem_cons.1 hvalues
      obtain ⟨stored, hstored⟩ := hvalue
      obtain ⟨f, hf, -⟩ := lower_bind_ok hstored
      obtain ⟨hkey, hrest⟩ := List.forall_mem_cons.1 hfit
      have hallowed := indexAllowed_iff.2 hkey
      rw [← hcount.toInt_add_one hallowed] at hcount hrest
      obtain ⟨stores, hstores⟩ := ih _ hcount.tail hvalues hrest
      refine ⟨(key.getD next, asStored e f) :: stores, ?_⟩
      simp only [Form.ofElements, hallowed, hf, hstores]
      rfl

/-- The form of a literal is that of its elements. -/
theorem ofExpr_literal {kind : Kind} {elem : Scalar}
    (hkind : kind.elements? = some (elem, declared)) {span : Span} {f : Form} :
    Form.ofExpr env (.array elems kind span) = .ok f ↔
      ∃ stores, Form.ofElements env declared 0 elems = .ok stores ∧
        f = .ofStores elem declared stores := by
  have hform : Form.ofExpr env (.array elems kind span) = do
      let stores ← Form.ofElements env declared 0 elems
      return .ofStores elem declared stores := by
    cases kind <;> cases hkind <;> rfl
  rw [hform]
  constructor
  · intro h
    obtain ⟨stores, hstores, h⟩ := lower_bind_ok h
    cases h
    exact ⟨stores, hstores, rfl⟩
  · rintro ⟨stores, hstores, rfl⟩
    rw [hstores]
    rfl

end

/-! ### Lengths -/

theorem sizeFor_of_mem {declared : Option Nat} {keys : List Int} {k : Int}
    (hfit : KeysFit declared keys) (hk : k ∈ keys) : k < sizeFor declared keys := by
  cases declared with
  | some n => exact (hfit k hk).2 n rfl
  | none =>
      cases hmax : keys.max? with
      | none =>
          rw [List.max?_eq_none_iff.1 hmax] at hk
          cases hk
      | some m =>
          have hle := (List.max?_eq_some_iff.1 hmax).2 k hk
          simp only [sizeFor, hmax, Option.getD_none, Option.elim_some]
          omega

theorem CanCount.sizeFor_le {declared : Option Nat} {keys : List Int}
    (h : CanCount declared keys) : (sizeFor declared keys : Int) ≤ Int64.maxValue.toInt := by
  have hmax : Int64.maxValue.toInt = 9223372036854775807 := by decide
  cases declared with
  | some n => exact h.length n rfl
  | none =>
      cases hgreatest : keys.max? with
      | none => simp [sizeFor, hgreatest, hmax]
      | some m =>
          have hlt := h.keys rfl m (List.max?_eq_some_iff.1 hgreatest).1
          simp only [sizeFor, hgreatest, Option.getD_none, Option.elim_some]
          omega

theorem sizeFor_cons (k : Int) (keys : List Int) :
    sizeFor none (k :: keys) = max (k.toNat + 1) (sizeFor none keys) := by
  simp only [sizeFor, Option.getD_none, List.max?_cons, Option.elim_some]
  cases keys.max? with
  | none => simp
  | some m =>
      simp only [Option.elim_some]
      omega

/-- Going through the elements finds the length for their keys. -/
theorem literalLength_eq (declared : Option Nat) (stores : List (Int64 × Form)) :
    literalLength declared stores = sizeFor declared (stores.map (·.1.toInt)) := by
  cases declared with
  | some n => rfl
  | none =>
      have hfold : ∀ n, stores.foldl (fun n p => max n (p.1.toInt.toNat + 1)) n =
          max n (sizeFor none (stores.map (·.1.toInt))) := by
        induction stores with
        | nil => simp [sizeFor]
        | cons p stores ih =>
            intro n
            rw [List.foldl_cons, ih, List.map_cons, sizeFor_cons, Nat.max_assoc]
      exact (hfold 0).trans (Nat.zero_max _)

/-! ### Contents -/

/-- What a vector holds after values have been stored at keys: at each key the last one that was
stored there, and elsewhere what it held at first. -/
structure Filled {α : Type} (keys : List Int) (vs : List α) (initial : α) (size : Nat)
    (cells : List α) : Prop where
  values : vs.length = keys.length
  length : cells.length = size
  last : ∀ i j : Nat, keys[j]? = some (i : Int) →
    (∀ k, j < k → keys[k]? ≠ some (i : Int)) → cells[i]? = vs[j]?
  rest : ∀ i : Nat, i < size → (i : Int) ∉ keys → cells[i]? = some initial

namespace Filled

variable {α : Type} {keys : List Int} {vs : List α} {initial : α} {size : Nat} {cells : List α}

theorem replicate (initial : α) (size : Nat) :
    Filled [] [] initial size (.replicate size initial) where
  values := rfl
  length := List.length_replicate
  last i j hj := absurd hj (by simp)
  rest i hi _ := by rw [List.getElem?_replicate, if_pos hi]

/-- One more store. -/
theorem snoc (h : Filled keys vs initial size cells) {k : Int} (hk : 0 ≤ k) (hlt : k < size)
    (v : α) : Filled (keys ++ [k]) (vs ++ [v]) initial size (cells.set k.toNat v) where
  values := by simp [h.values]
  length := by rw [List.length_set, h.length]
  last i j hj hlast := by
    have hcells := h.length
    have hj' : j < keys.length + 1 := by
      have := (List.getElem?_eq_some_iff.1 hj).1
      simpa using this
    rw [List.getElem?_set]
    rcases Nat.lt_succ_iff_lt_or_eq.1 hj' with hlow | rfl
    · -- an earlier element is the last one for its key only if the new one has another key
      have hne : k ≠ i := fun heq => hlast keys.length hlow (by simp [heq])
      rw [List.getElem?_append_left hlow] at hj
      rw [if_neg (by omega), List.getElem?_append_left (h.values ▸ hlow)]
      refine h.last i j hj fun m hm heq => hlast m hm ?_
      rw [List.getElem?_append_left (List.getElem?_eq_some_iff.1 heq).1]
      exact heq
    · simp only [List.getElem?_concat_length, Option.some.injEq] at hj
      subst hj
      rw [if_pos (by simp), if_pos (by omega), ← h.values, List.getElem?_concat_length]
  rest i hi hmem := by
    simp only [List.mem_append, List.mem_singleton, not_or] at hmem
    rw [List.getElem?_set, if_neg (by omega)]
    exact h.rest i hi hmem.1

/-- Values whose keys count up are what the vector holds. -/
theorem of_countsUp (hvalues : vs.length = keys.length)
    (hkeys : ∀ (j : Nat) (k : Int), keys[j]? = some k → k = (j : Int)) :
    Filled keys vs initial vs.length vs where
  values := hvalues
  length := rfl
  last i j hj _ := by
    have hij := hkeys j i hj
    rw [Int.ofNat_inj.1 hij]
  rest i hi hmem := by
    rw [hvalues] at hi
    have hkey := hkeys i _ (List.getElem?_eq_getElem hi)
    exact absurd (hkey ▸ List.getElem_mem hi) hmem

end Filled

theorem eq_of_countsUp {stores : List (Int64 × Form)} (h : countsUp stores = true) (j : Nat)
    (k : Int) (hj : (stores.map (·.1.toInt))[j]? = some k) : k = (j : Int) := by
  rw [List.getElem?_map, Option.map_eq_some_iff] at hj
  obtain ⟨p, hp, rfl⟩ := hj
  simp only [countsUp, List.all_eq_true] at h
  simpa using h (p, j) (List.mem_zipIdx_iff_getElem?.2 hp)

/-! ### Evaluation in turn -/

section

variable {R : Runtime} {K : World R → World R → Prop} {ρ : Env R}

/-- Forms are evaluated once each and in order, and what happens before, between and behind them is
as `K` says. -/
inductive InTurn (K : World R → World R → Prop) (ρ : Env R) :
    List Form → World R → List R.Value → World R → Prop where
  | nil {w w' : World R} (haside : K w w') : InTurn K ρ [] w [] w'
  | cons {f : Form} {fs : List Form} {v : R.Value} {vs : List R.Value} {w w₁ w₂ w' : World R}
      (haside : K w w₁) (hf : evalValue R ρ f w₁ = .ok v w₂) (hfs : InTurn K ρ fs w₂ vs w') :
      InTurn K ρ (f :: fs) w (v :: vs) w'

def StopsInTurn (K : World R → World R → Prop) (ρ : Env R) (fs : List Form) (w : World R)
    (e : Stop) (w' : World R) : Prop :=
  ∃ before f after vs w₁, fs = before ++ f :: after ∧ InTurn K ρ before w vs w₁ ∧
    evalValue R ρ f w₁ = .error e w'

theorem StopsInTurn.head {f : Form} {fs : List Form} {w w₁ w' : World R} {e : Stop}
    (haside : K w w₁) (hf : evalValue R ρ f w₁ = .error e w') :
    StopsInTurn K ρ (f :: fs) w e w' :=
  ⟨[], f, fs, [], w₁, rfl, .nil haside, hf⟩

theorem StopsInTurn.cons {f : Form} {fs : List Form} {v : R.Value} {w w₁ w₂ w' : World R}
    {e : Stop} (haside : K w w₁) (hf : evalValue R ρ f w₁ = .ok v w₂)
    (hfs : StopsInTurn K ρ fs w₂ e w') : StopsInTurn K ρ (f :: fs) w e w' := by
  obtain ⟨before, g, after, vs, w₃, rfl, hbefore, hg⟩ := hfs
  exact ⟨f :: before, g, after, v :: vs, w₃, rfl, .cons haside hf hbefore, hg⟩

theorem inTurn_evalValues (hrefl : ∀ w, K w w) {fs : List Form} {w w₁ w' : World R}
    {vs : List R.Value} (h : evalValues R ρ fs w = .ok vs w₁) (haside : K w₁ w') :
    InTurn K ρ fs w vs w' := by
  induction fs generalizing w vs with
  | nil =>
      obtain ⟨rfl, rfl⟩ := pure_eq_ok.1 h
      exact .nil haside
  | cons f fs ih =>
      obtain ⟨v, w₂, hf, h⟩ := bind_eq_ok.1 h
      obtain ⟨others, w₃, hfs, h⟩ := bind_eq_ok.1 h
      obtain ⟨rfl, rfl⟩ := pure_eq_ok.1 h
      exact .cons (hrefl w) hf (ih hfs)

theorem stopsInTurn_evalValues (hrefl : ∀ w, K w w) {fs : List Form} {w w' : World R} {e : Stop}
    (h : evalValues R ρ fs w = .error e w') : StopsInTurn K ρ fs w e w' := by
  induction fs generalizing w with
  | nil => cases h
  | cons f fs ih =>
      obtain hf | ⟨v, w₁, hf, h⟩ := bind_eq_error.1 h
      · exact .head (hrefl w) hf
      · obtain hfs | ⟨vs, w₂, -, h⟩ := bind_eq_error.1 h
        · exact .cons (hrefl w) hf (ih hfs)
        · cases h

end

/-! ### Literals -/

namespace VectorView

variable {R : Runtime} (V : VectorView R)

/-- What a literal does apart from evaluating its elements: it makes or changes its own vector, and
at most calls a function that makes it. -/
structure Aside (a : R.Value) (w w' : World R) : Prop where
  vars : w'.store.vars = w.store.vars
  others : ∀ b, b ≠ a → V.contents w'.store.heap b = V.contents w.store.heap b
  calls : w'.calls = w.calls ∨ ∃ name ∈ [Host.vector, Host.makeVector], ∃ args,
    w'.calls = w.calls ++ [(R.constant (.symbol name), args)]

/-- The host and the variables lead only to vectors that exist. -/
def Closed (ρ : Env R) (s : Store R.Value R.Heap) : Prop :=
  ∀ a, V.exposed s a ∨ (∃ v ∈ ρ.map Prod.snd, V.leads s v a) → (V.contents s.heap a).isSome = true

/-- The form of a literal makes a new vector. The elements are evaluated in turn, their values
stand at their keys, and evaluation stops only if it stops in an element. -/
structure Denotes (ρ : Env R) (f : Form) (elems : List Form) (keys : List Int) (initial : R.Value)
    (size : Nat) : Prop where
  ok : ∀ w a w', V.Closed ρ w.store → evalValue R ρ f w = .ok a w' →
    V.contents w.store.heap a = none ∧ ∃ vs cells, InTurn (V.Aside a) ρ elems w vs w' ∧
      V.contents w'.store.heap a = some cells ∧ Filled keys vs initial size cells
  error : ∀ w e w', V.Closed ρ w.store → evalValue R ρ f w = .error e w' →
    ∃ a, StopsInTurn (V.Aside a) ρ elems w e w'

end VectorView

section

variable {R : Runtime} {V : VectorHost R} {ρ : Env R} {w : World R}

theorem VectorView.Aside.refl {V : VectorView R} (a : R.Value) (w : World R) : V.Aside a w w :=
  ⟨rfl, fun _ _ => rfl, .inl rfl⟩

theorem VectorView.Changes.aside {V : VectorView R} {a : R.Value} {elems : List R.Value}
    {s : Store R.Value R.Heap} (h : V.Changes a elems w.store s) :
    V.Aside a w { w with store := s } :=
  ⟨h.vars, h.others, .inl rfl⟩

/-- Makes a vector by calling a function of the host. -/
theorem VectorView.Makes.call {V : VectorView R} {a : R.Value} {elems args : List R.Value}
    {s : Store R.Value R.Heap} {name : String} (h : V.Makes a elems w.store s)
    (hcall : R.call (R.constant (.symbol name)) args w.store = .ok a s)
    (hname : name ∈ [Host.vector, Host.makeVector]) :
    ∃ w', Run.callNamed name args w = .ok a w' ∧ w'.store = s ∧ V.Aside a w w' := by
  refine ⟨⟨s, w.calls ++ [(R.constant (.symbol name), args)]⟩, ?_, rfl, h.vars, h.others,
    .inr ⟨name, hname, args, rfl⟩⟩
  simp only [Run.callNamed, Run.call, Run.primitive, hcall]

/-- A literal whose keys count up is one call with the values of its elements. -/
theorem denotes_array {fs : List Form} {keys : List Int} {initial : R.Value}
    (hlength : fs.length = keys.length)
    (hkeys : ∀ (j : Nat) (k : Int), keys[j]? = some k → k = (j : Int)) :
    V.Denotes ρ (.array fs) fs keys initial keys.length where
  ok w a w' _ h := by
    obtain ⟨vs, w₁, hvs, h⟩ := bind_eq_ok.1 h
    obtain ⟨b, s, hcall, hmakes⟩ := V.vector vs w₁.store
    obtain ⟨w₂, hw₂, hstore, haside⟩ := hmakes.call hcall List.mem_cons_self
    rw [hw₂] at h
    cases h
    have hvalues : vs.length = keys.length := (evalValues_length hvs).trans hlength
    refine ⟨?_, vs, vs, inTurn_evalValues (.refl a) hvs haside, ?_, ?_⟩
    · -- a vector that existed at the start would exist when the elements have been evaluated
      have hstep : V.Step (ρ.map Prod.snd) w.store w₁.store vs :=
        spares_evalValues fs (List.Subset.refl _) w vs w₁ hvs
      cases hbefore : V.contents w.store.heap a with
      | none => rfl
      | some cells =>
          have hafter := hstep.grows a (by rw [hbefore]; rfl)
          rw [hmakes.fresh] at hafter
          cases hafter
    · rw [hstore, hmakes.contents]
    · rw [← hvalues]
      exact .of_countsUp hvalues hkeys
  error w e w' _ h := by
    obtain hvs | ⟨vs, w₁, -, h⟩ := bind_eq_error.1 h
    · exact ⟨initial, stopsInTurn_evalValues (.refl initial) hvs⟩
    · obtain ⟨b, s, hcall, hmakes⟩ := V.vector vs w₁.store
      obtain ⟨w₂, hw₂, -, -⟩ := hmakes.call hcall List.mem_cons_self
      rw [hw₂] at h
      cases h

/-- Evaluating an element does not touch the vector, and storing its value changes nothing else. -/
theorem fill_element {a v : R.Value} {i : Int64} {f : Form} {cells : List R.Value}
    {w₁ : World R} (hides : V.Hides a (ρ.map Prod.snd) w.store)
    (hcells : V.contents w.store.heap a = some cells) (hlow : 0 ≤ i.toInt)
    (hlt : i.toInt < cells.length) (hf : evalValue R ρ f w = .ok v w₁) :
    ∃ w₂, Run.primitive (R.arraySet a (R.constant (.int i)) v) w₁ = .ok () w₂ ∧ V.Aside a w₁ w₂ ∧
      V.Hides a (ρ.map Prod.snd) w₂.store ∧
      V.Changes a (cells.set i.toInt.toNat v) w₁.store w₂.store := by
  have hstep : V.Step (ρ.map Prod.snd) w.store w₁.store [v] :=
    spares_evalValue f (List.Subset.refl _) w v w₁ hf
  have hspared := hstep.spares a hides
  have hides₁ := hspared.hides hides
  rw [← hspared.contents] at hcells
  obtain ⟨s, hset, hchanges⟩ := V.set i v hcells hlow hlt
  refine ⟨{ w₁ with store := s }, ?_, hchanges.aside, ?_, hchanges⟩
  · simp only [Run.primitive, hset]
  · exact hchanges.hides hides₁.exposed fun u hu => hides₁.leads u (List.mem_append_right _ hu)

/-- Storing elements one after the other fills the vector. -/
theorem evalStores_filled {a initial : R.Value} {size : Nat} {stores : List (Int64 × Form)}
    (hfit : ∀ p ∈ stores, 0 ≤ p.1.toInt ∧ p.1.toInt < size) {done : List Int}
    {vs₀ cells : List R.Value} {w₀ : World R} (hides : V.Hides a (ρ.map Prod.snd) w.store)
    (hcells : V.contents w.store.heap a = some cells) (hfilled : Filled done vs₀ initial size cells)
    (haside : V.Aside a w₀ w) :
    (∀ w', evalStores R ρ a stores w = .ok () w' → ∃ vs cells',
      InTurn (V.Aside a) ρ (stores.map (·.2)) w₀ vs w' ∧
      V.contents w'.store.heap a = some cells' ∧
      Filled (done ++ stores.map (·.1.toInt)) (vs₀ ++ vs) initial size cells') ∧
    (∀ e w', evalStores R ρ a stores w = .error e w' →
      StopsInTurn (V.Aside a) ρ (stores.map (·.2)) w₀ e w') := by
  induction stores generalizing done vs₀ cells w₀ w with
  | nil =>
      constructor
      · intro w' h
        obtain ⟨-, rfl⟩ := pure_eq_ok.1 h
        exact ⟨[], cells, .nil haside, hcells, by simpa using hfilled⟩
      · intro e w' h
        cases h
  | cons p stores ih =>
      obtain ⟨i, f⟩ := p
      obtain ⟨⟨hlow, hlt⟩, hfit⟩ := List.forall_mem_cons.1 hfit
      cases hf : evalValue R ρ f w with
      | error e w₁ =>
          have hstop : evalStores R ρ a ((i, f) :: stores) w = .error e w₁ := bind_of_error hf _
          rw [hstop]
          constructor
          · intro w' h
            cases h
          · intro e' w' h
            cases h
            exact .head haside hf
      | ok v w₁ =>
          obtain ⟨w₂, hset, haside₂, hides₂, hchanges⟩ :=
            fill_element hides hcells hlow (hfilled.length ▸ hlt) hf
          have hrest : evalStores R ρ a ((i, f) :: stores) w = evalStores R ρ a stores w₂ :=
            (bind_of_ok hf _).trans (bind_of_ok hset _)
          rw [hrest]
          obtain ⟨hok, herror⟩ := ih hfit hides₂ hchanges.contents
            (hfilled.snoc hlow hlt v) haside₂
          constructor
          · intro w' h
            obtain ⟨vs, cells', hturn, hcells', hfilled'⟩ := hok w' h
            refine ⟨v :: vs, cells', .cons haside hf hturn, hcells', ?_⟩
            simpa [List.append_assoc] using hfilled'
          · intro e w' h
            exact .cons haside hf (herror e w' h)

theorem evalValue_zeroArray (elem : Scalar) (n : Nat) (w : World R) :
    evalValue R ρ (.zeroArray elem n) w =
      Run.callNamed Host.makeVector [R.constant (.int (.ofNat n)), elem.initial R] w := by
  cases elem <;> rfl

/-- Zeros are made in a vector to which nothing leads, because nothing led to it before. -/
theorem make_zeros (elem : Scalar) {size : Nat} (hsize : (size : Int) ≤ Int64.maxValue.toInt)
    (hclosed : V.Closed ρ w.store) :
    ∃ a w₁, evalValue R ρ (.zeroArray elem size) w = .ok a w₁ ∧
      V.Makes a (.replicate size (elem.initial R)) w.store w₁.store ∧ V.Aside a w w₁ ∧
      V.Hides a (ρ.map Prod.snd) w₁.store := by
  have hmax : Int64.maxValue.toInt = 9223372036854775807 := by decide
  have hint : (Int64.ofNat size).toInt = size := Int64.toInt_ofNat_of_lt (by omega)
  obtain ⟨a, s, hcall, hmakes⟩ :=
    V.makeVector (.ofNat size) (elem.initial R) w.store (by rw [hint]; exact Int.natCast_nonneg _)
  obtain ⟨w₁, hw₁, rfl, haside⟩ :=
    hmakes.call hcall (List.mem_cons_of_mem _ List.mem_cons_self)
  have hunknown : ¬(V.exposed w.store a ∨ ∃ v ∈ ρ.map Prod.snd, V.leads w.store v a) := by
    intro hknown
    have hmade := hclosed a hknown
    rw [hmakes.fresh] at hmade
    cases hmade
  rw [not_or] at hunknown
  rw [hint, Int.toNat_natCast] at hmakes
  exact ⟨a, w₁, (evalValue_zeroArray elem size w).trans hw₁, hmakes, haside,
    hmakes.hides hunknown.1 fun v hv hleads => hunknown.2 ⟨v, hv, hleads⟩⟩

/-- Any other literal makes zeros first, and stores its elements into them. -/
theorem denotes_sparseArray {elem : Scalar} {size : Nat} {stores : List (Int64 × Form)}
    (hsize : (size : Int) ≤ Int64.maxValue.toInt)
    (hfit : ∀ p ∈ stores, 0 ≤ p.1.toInt ∧ p.1.toInt < size) :
    V.Denotes ρ (.sparseArray (.zeroArray elem size) stores) (stores.map (·.2))
      (stores.map (·.1.toInt)) (elem.initial R) size where
  ok w a w' hclosed h := by
    obtain ⟨b, w₁, hzeros, hmakes, haside, hides⟩ := make_zeros elem hsize hclosed
    obtain ⟨u, w₂, hstores, h⟩ := bind_eq_ok.1 ((bind_of_ok hzeros _).symm.trans h)
    obtain ⟨rfl, rfl⟩ := pure_eq_ok.1 h
    exact ⟨hmakes.fresh,
      (evalStores_filled hfit hides hmakes.contents (.replicate _ _) haside).1 w₂ hstores⟩
  error w e w' hclosed h := by
    obtain ⟨b, w₁, hzeros, hmakes, haside, hides⟩ := make_zeros elem hsize hclosed
    obtain hstores | ⟨u, w₂, -, h⟩ := bind_eq_error.1 ((bind_of_ok hzeros _).symm.trans h)
    · exact ⟨b,
        (evalStores_filled hfit hides hmakes.contents (.replicate _ _) haside).2 e w' hstores⟩
    · cases h

/-- Both forms of a literal make the vector that its keys describe. -/
theorem denotes_ofStores {elem : Scalar} {declared : Option Nat} {stores : List (Int64 × Form)}
    (hcount : CanCount declared (stores.map (·.1.toInt)))
    (hfit : KeysFit declared (stores.map (·.1.toInt))) :
    V.Denotes ρ (.ofStores elem declared stores) (stores.map (·.2)) (stores.map (·.1.toInt))
      (elem.initial R) (sizeFor declared (stores.map (·.1.toInt))) := by
  unfold Form.ofStores
  rw [literalLength_eq]
  dsimp only
  split
  · rename_i hdense
    simp only [Bool.and_eq_true, decide_eq_true_eq] at hdense
    have hlength : (stores.map (·.1.toInt)).length = sizeFor declared (stores.map (·.1.toInt)) := by
      rw [List.length_map, hdense.1]
    rw [← hlength]
    exact denotes_array (by simp) (eq_of_countsUp hdense.2)
  · refine denotes_sparseArray hcount.sizeFor_le fun p hp => ?_
    have hmem : p.1.toInt ∈ stores.map (·.1.toInt) := List.mem_map_of_mem hp
    exact ⟨(hfit _ hmem).1, sizeFor_of_mem hfit hmem⟩

end

/-- A literal whose elements have forms has one itself exactly if its keys are not negative and lie
within the declared length. On every host its form then makes a vector of that length, or of a
length enough for the greatest key. The elements are evaluated once each, in the order in which they
are written; the vector holds at each index the value of the last element with that key, and zeros
elsewhere. -/
theorem array_literal_meaning (env : Environment) {kind : Kind} {elem : Scalar}
    {declared : Option Nat} (hkind : kind.elements? = some (elem, declared))
    (elems : List (Option Int64 × Expr)) (span : Span)
    (hcount : CanCount declared (keysFrom 0 elems))
    (hvalues : ∀ p ∈ elems, ∃ f, Form.ofStored env p.2 = .ok f) :
    ((∃ f, Form.ofExpr env (.array elems kind span) = .ok f) ↔
      KeysFit declared (keysFrom 0 elems)) ∧
    ∀ f, Form.ofExpr env (.array elems kind span) = .ok f →
      ∃ fs, List.Forall₂ (fun p g => Form.ofStored env p.2 = .ok g) elems fs ∧
        ∀ (R : Runtime) (V : VectorHost R) (ρ : Env R),
          V.Denotes ρ f fs (keysFrom 0 elems) (elem.initial R)
            (sizeFor declared (keysFrom 0 elems)) := by
  refine ⟨⟨?_, fun hfit => ?_⟩, fun f hf => ?_⟩
  · rintro ⟨f, hf⟩
    obtain ⟨stores, hstores, -⟩ := (ofExpr_literal hkind).1 hf
    exact (ofElements_ok 0 hcount hstores).1
  · obtain ⟨stores, hstores⟩ := exists_ofElements 0 hcount hvalues hfit
    exact ⟨_, (ofExpr_literal hkind).2 ⟨stores, hstores, rfl⟩⟩
  · obtain ⟨stores, hstores, rfl⟩ := (ofExpr_literal hkind).1 hf
    obtain ⟨hfit, hkeys, hforms⟩ := ofElements_ok 0 hcount hstores
    refine ⟨stores.map (·.2), hforms, fun R V ρ => ?_⟩
    rw [show (0 : Int64).toInt = 0 from rfl] at hkeys hfit
    rw [← hkeys] at hcount hfit ⊢
    exact denotes_ofStores hcount hfit

def jumpingElements : List (Option Int64 × Expr) :=
  [(some 2, .ofLiteral (.int 7)), (none, .ofLiteral (.int 8)), (some 0, .ofName "x" .int),
    (some 3, .ofLiteral (.int 9))]

def fiveInX : Env .makers :=
  [("x", .constant (.int 5))]

def emptyWorld : World .makers :=
  ⟨⟨fun _ => .constant (.symbol Host.nil), []⟩, []⟩

/-- The last element with a key counts, and the gap holds a zero. -/
theorem array_literal_meaning_jumpingElements :
    CanCount (some 4) (keysFrom 0 jumpingElements) ∧ keysFrom 0 jumpingElements = [2, 3, 0, 3] ∧
    ∃ f, Form.ofExpr ⟨.empty, .empty⟩ (.array jumpingElements (.array .int 4) {}) = .ok f ∧
      ∃ w' vs cells, evalValue .makers fiveInX f emptyWorld = .ok (.vector 0) w' ∧
        Cell.contents w'.store.heap (.vector 0) = some cells ∧
        Filled [2, 3, 0, 3] vs (.constant (.int 0)) 4 cells ∧
        cells = [5, 0, 7, 9].map fun n => .constant (.int n) := by
  have hcount : CanCount (some 4) (keysFrom 0 jumpingElements) := by
    refine ⟨fun n hn => ?_, fun hnone => ?_⟩
    · cases hn
      decide
    · cases hnone
  have hvalues : ∀ p ∈ jumpingElements, ∃ f, Form.ofStored ⟨.empty, .empty⟩ p.2 = .ok f := by
    simp only [jumpingElements, List.forall_mem_cons]
    exact ⟨⟨_, rfl⟩, ⟨_, rfl⟩, ⟨_, rfl⟩, ⟨_, rfl⟩, fun p hp => absurd hp List.not_mem_nil⟩
  have hkind : (Kind.array .int 4).elements? = some (.int, some 4) := rfl
  obtain ⟨hform, hmeaning⟩ :=
    array_literal_meaning ⟨.empty, .empty⟩ hkind jumpingElements {} hcount hvalues
  have hfit : KeysFit (some 4) [2, 3, 0, 3] := by simp [KeysFit]
  obtain ⟨f, hf⟩ := hform.2 hfit
  obtain ⟨fs, -, hdenotes⟩ := hmeaning f hf
  have hliteral : f = .sparseArray (.zeroArray .int 4)
      [(2, .int 7), (3, .int 8), (0, .var "x"), (3, .int 9)] := by
    cases hf
    rfl
  subst hliteral
  have hclosed : VectorHost.makers.Closed fiveInX emptyWorld.store := by
    rintro a (⟨name, ⟨⟩⟩ | ⟨v, hv, hleads⟩)
    rw [List.mem_singleton.1 hv] at hleads
    cases hleads
  obtain ⟨w', hrun, hheap⟩ : ∃ w', evalValue .makers fiveInX (.sparseArray (.zeroArray .int 4)
      [(2, .int 7), (3, .int 8), (0, .var "x"), (3, .int 9)]) emptyWorld = .ok (.vector 0) w' ∧
      w'.store.heap = [[5, 0, 7, 9].map fun n => .constant (.int n)] := ⟨_, rfl, rfl⟩
  obtain ⟨-, vs, cells, -, hcells, hfilled⟩ :=
    (hdenotes .makers .makers fiveInX).ok emptyWorld _ _ hclosed hrun
  refine ⟨hcount, rfl, _, hf, w', vs, cells, hrun, hcells, hfilled, ?_⟩
  have hplace : Cell.contents w'.store.heap (.vector 0) = some cells := hcells
  rw [hheap] at hplace
  exact (Option.some.inj hplace).symm

end StackCompiler
