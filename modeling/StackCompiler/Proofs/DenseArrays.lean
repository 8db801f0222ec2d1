import StackCompiler.Proofs.ArrayLiterals
import StackCompiler.Proofs.CounterHost
import StackCompiler.Proofs.StringChains

/-!
Array literals that give every element in order. They become a call of `vector` with all elements on
the stack, where an array of zeros with one store for each element would do as well. The call loses
literals that the stores can make: those of more than 255 elements, those that read a variable which
the waiting elements push out of reach, and those for which the pool has no place left for the
symbol `vector`. Where both compile they make the same vector, up to where the vectors lie that are
made on the way, if no read finds a copy of a variable from before a call.
-/

namespace StackCompiler

open Source CompiledFunction

/-! ### The literal as stores -/

def numberedFrom : Nat → List Form → List (Int64 × Form)
  | _, [] => []
  | k, f :: fs => (.ofNat k, f) :: numberedFrom (k + 1) fs

/-- The literal of these elements as an array of zeros into which they are stored. -/
def Form.storing (elem : Scalar) (fs : List Form) : Form :=
  .sparseArray (.zeroArray elem fs.length) (numberedFrom 0 fs)

theorem map_snd_numberedFrom (k : Nat) (fs : List Form) :
    (numberedFrom k fs).map (·.2) = fs := by
  induction fs generalizing k with
  | nil => rfl
  | cons f fs ih => rw [numberedFrom, List.map_cons, ih]

theorem getElem?_numberedFrom (k : Nat) (fs : List Form) (j : Nat) :
    (numberedFrom k fs)[j]? = fs[j]?.map fun f => (.ofNat (k + j), f) := by
  induction fs generalizing k j with
  | nil => rfl
  | cons f fs ih =>
      cases j with
      | zero => rfl
      | succ j =>
          rw [numberedFrom, List.getElem?_cons_succ, List.getElem?_cons_succ, ih,
            Nat.add_right_comm]
          rfl

/-- Elements whose keys count up stand at their places. -/
theorem numberedFrom_of_countsUp {stores : List (Int64 × Form)} (h : countsUp stores = true) :
    numberedFrom 0 (stores.map (·.2)) = stores := by
  refine List.ext_getElem? fun j => ?_
  rw [getElem?_numberedFrom, List.getElem?_map, Nat.zero_add]
  cases hp : stores[j]? with
  | none => rfl
  | some p =>
      have hkey : p.1.toInt = (j : Int) :=
        eq_of_countsUp h j p.1.toInt (by rw [List.getElem?_map, hp]; rfl)
      have hplace : Int64.ofNat j = p.1 := by
        rw [← Int64.ofInt_eq_ofNat, ← hkey, Int64.ofInt_toInt]
      rw [Option.map_some, Option.map_some, hplace]

/-- A literal that is made at once could be made by stores of the same elements. -/
theorem storing_of_ofStores {elem : Scalar} {declared : Option Nat} {stores : List (Int64 × Form)}
    {fs : List Form} (h : Form.ofStores elem declared stores = .array fs) :
    .sparseArray (.zeroArray elem (literalLength declared stores)) stores =
      Form.storing elem fs := by
  unfold Form.ofStores at h
  dsimp only at h
  split at h
  · rename_i hdense
    simp only [Bool.and_eq_true, decide_eq_true_eq] at hdense
    cases h
    rw [Form.storing, numberedFrom_of_countsUp hdense.2, hdense.1, List.length_map]
  · cases h

section

variable {functions : SignatureTable} {elem : Scalar} {f : Form} {fs : List Form}
  {s s' t : Assembly}

open Assembly (Straight Beside Origin)
open Emit (TooDeep Overflows Blocked)

theorem Code.straight_of_constant? {c : Constant} (hf : f.constant? = some c)
    (h : Code functions (.value f) s s') : s.Straight s' := by
  cases h with
  | constant _ hload => exact .indexed hload
  | application hf' | unary hf' | shortcut hf' => cases f <;> cases hf <;> cases hf'
  | _ => cases hf

/-- Zeros are made by straight code. -/
theorem straight_zeroArray {n : Nat} (h : emitValue functions (.zeroArray elem n) s = .ok () s') :
    s.Straight s' := by
  obtain ⟨c, hzero⟩ : ∃ c, elem.zero.constant? = some c := by cases elem <;> exact ⟨_, rfl⟩
  cases emitValue_code _ h with
  | application hf hload hargs _ hcall =>
      cases hf
      cases hargs with
      | valuesCons hlength hargs =>
          cases hargs with
          | valuesCons hvalue hargs =>
              cases hargs
              have hloads := (Code.straight_of_constant? rfl hlength).trans
                (Code.straight_of_constant? hzero hvalue)
              exact (Straight.indexed hload).trans (hloads.trans (.appends hcall))
  | constant hf | unary hf | shortcut hf => cases hf

theorem emitValue_grows (h : emitValue functions f s = .ok () s') : s.pool.Grows s'.pool :=
  have hstep : Emit.InStep (s.origin []) [] [] 0 1 (emitValue functions f) := emitValue_inStep f 0
  hstep.grows h

theorem emitStores_grows {stores : List (Int64 × Form)}
    (h : emitStores functions stores s = .ok () s') : s.pool.Grows s'.pool :=
  have hstep : Emit.InStep (s.origin []) [] [] 1 1 (emitStores functions stores) :=
    emitStores_inStep stores 0
  hstep.grows h

/-- The code of an element that is stored has a reference to the array and the place below it, which
are gone with the element afterwards. -/
theorem emitStores_cons_ok {k : Int64} {rest : List (Int64 × Form)}
    (h : emitStores functions ((k, f) :: rest) s = .ok () s') :
    ∃ b c d, s.Straight b ∧ b.slots.names = none :: none :: s.slots.names ∧
      (∃ i < Pool.room, b.pool.find? (.int k) = some i) ∧ emitValue functions f b = .ok () c ∧
      c.Straight d ∧ d.slots.names = c.slots.names.drop 3 ∧
      emitStores functions rest d = .ok () s' := by
  obtain ⟨_, a, hcopy, h⟩ := bind_eq_ok.1 h
  obtain ⟨_, b, hindex, h⟩ := bind_eq_ok.1 h
  obtain ⟨_, c, hvalue, h⟩ := bind_eq_ok.1 h
  obtain ⟨_, d, hset, h⟩ := bind_eq_ok.1 h
  have hcopy := Emit.instr_ok hcopy
  have hindex := Emit.indexed_ok hindex
  have hset := Emit.instr_ok hset
  refine ⟨b, c, d, (Straight.appends hcopy).trans (.indexed hindex), ?_, ?_, hvalue, .appends hset,
    hset.names, h⟩ <;> obtain ⟨m, hm, hload⟩ := hindex
  · exact hload.names.trans (congrArg (none :: ·) hcopy.names)
  · rw [hload.pool]
    exact ⟨m.toNat, m.toNat_lt, by rw [hm, Pool.find?_add]⟩

/-- The values of the elements are built beside the stores. -/
theorem emitValues_beside {o : Origin} {low' : List (Option String)} (k : Nat)
    (h : emitStores functions (numberedFrom k fs) s = .ok () s')
    (hbeside : Beside o (List.replicate 1 none ++ o.names) low' 0 s t) :
    (∃ t', emitValues functions fs t = .ok () t') ∨
      Blocked o.extra s'.pool (emitValues functions fs) t := by
  induction fs generalizing k s t low' with
  | nil => exact .inl ⟨t, rfl⟩
  | cons f fs ih =>
      obtain ⟨top, htop, hnames, -⟩ := hbeside.names
      obtain rfl := List.length_eq_zero_iff.1 htop
      obtain ⟨b, c, d, hab, hb, -, hvalue, hcd, hd, hrest⟩ := emitStores_cons_ok h
      rw [hnames] at hb
      -- the array, one more reference to it and the place lie below the element
      have hbelow := hbeside.goOn 3 hab hb
      obtain ⟨t₁, ht₁, hbeside₁⟩ | hblocked := (emitValue_inStep f 0).step hbelow hvalue
      · obtain ⟨top₁, htop₁, hnames₁, -⟩ := hbeside₁.names
        obtain ⟨x, rfl⟩ := List.length_eq_one_iff.1 htop₁
        have hnext := hbeside₁.goOn 1 hcd (by rw [hd, hnames₁]; rfl)
        obtain ⟨t', ht'⟩ | hblocked := ih (k + 1) hrest hnext
        · exact .inl ⟨t', (bind_of_ok ht₁ _).trans ht'⟩
        · exact .inr (.of_ok ht₁ hblocked)
      · exact .inr ((hblocked.bind _).mono (hcd.pool.trans (emitStores_grows hrest)))

/-- A literal that is made at once compiles if the one that is made by stores does, unless it has
too many elements, one of them reads a variable that lies too deep, or there is no room for the
constants. -/
theorem emitValue_array (h : emitValue functions (.storing elem fs) s = .ok () s') :
    (∃ t, emitValue functions (.array fs) s = .ok () t) ∨
      (Resource.limit .callArguments < fs.length ∧
        ∃ t, emitValue functions (.array fs) s =
          .error (.capacity .callArguments fs.length) t) ∨
      TooDeep (emitValue functions (.array fs)) s ∨
      ∃ index t, emitValue functions (.array fs) s = .error (.capacity .constantPool index) t ∧
        Pool.room ≤ index ∧ s'.pool.Lacks (.symbol Host.vector) := by
  obtain ⟨_, s₁, hzeros, hstores⟩ := bind_eq_ok.1 h
  have hstraight := straight_zeroArray hzeros
  have hnames : s₁.slots.names = none :: s.slots.names :=
    (emitValue_code _ hzeros).names_of_isOperand rfl
  have hcode : emitValue functions (.array fs) = (do
      Emit.symbol Host.vector
      emitValues functions fs
      Emit.call fs.length) := rfl
  rw [hcode]
  rcases Nat.lt_or_ge (s.pool.add (.symbol Host.vector)).1 Pool.room with hfits | hfull
  · obtain ⟨t, ht⟩ : ∃ t, Emit.symbol Host.vector s = .ok () t :=
      Emit.exists_indexed hfits (fun _ => ⟨rfl, rfl⟩) fun _ => rfl
    obtain ⟨k, -, happ⟩ := Emit.indexed_ok ht
    have hbeside := ((Beside.refl s [Host.vector]).loadExtra (Emit.indexed_ok ht)
      List.mem_cons_self).goOn 1 hstraight hnames
    obtain ⟨t', ht'⟩ | hdeep | ⟨index, t', herror, hindex, hfull, hwithin, hsize⟩ :=
      emitValues_beside 0 hstores hbeside
    · have hheight : fs.length + 1 ≤ t'.slots.names.length := by
        simp [(emitValues_code fs ht').names_of_isOperand rfl, Piece.after, happ.names,
          Instr.pushes]
      by_cases hlimit : fs.length ≤ Resource.limit .callArguments
      · obtain ⟨u, hu⟩ := Emit.exists_call hlimit hheight
        exact .inl ⟨u, by rw [bind_of_ok ht, bind_of_ok ht', hu]⟩
      · refine .inr (.inl ⟨Nat.lt_of_not_le hlimit, t', ?_⟩)
        rw [bind_of_ok ht, bind_of_ok ht']
        exact Emit.counted_eq_error (Nat.lt_of_not_le hlimit)
    · exact .inr (.inr (.inl (.of_ok ht (hdeep.bind _))))
    · refine .inr (.inr (.inr ⟨index, t', ?_, hindex, hwithin.lacks hfull hsize⟩))
      rw [bind_of_ok ht, bind_of_error herror]
  · have hload : Emit.symbol Host.vector s = .error (.capacity .constantPool _) _ :=
      Emit.indexed_eq_error hfull
    exact .inr (.inr (.inr ⟨_, _, bind_of_error hload _, hfull,
      (hstraight.pool.trans (emitStores_grows hstores)).lacks hfull⟩))

def placesBelow (n : Nat) : List Constant :=
  (List.range n).map fun j => .int (.ofNat j)

theorem nodup_placesBelow {n : Nat} (h : n ≤ Pool.room + 1) :
    ((placesBelow n).map Constant.key).Nodup := by
  have hroom : Pool.room = 65536 := rfl
  rw [placesBelow, List.map_map]
  refine List.nodup_range.map_on fun i hi j hj heq => ?_
  rw [List.mem_range] at hi hj
  simp only [Function.comp_apply, Constant.key, Constant.int.injEq] at heq
  have hi' := Int64.toInt_ofNat_of_lt (n := i) (by omega)
  have hj' := Int64.toInt_ofNat_of_lt (n := j) (by omega)
  rw [heq, hj'] at hi'
  omega

/-- The places at which elements are stored are constants in reach. -/
theorem places_found {k : Nat} (h : emitStores functions (numberedFrom k fs) s = .ok () s') :
    ∀ j, k ≤ j → j < k + fs.length →
      ∃ i < Pool.room, s'.pool.find? (.int (.ofNat j)) = some i := by
  induction fs generalizing k s with
  | nil =>
      intro j hle hlt
      rw [List.length_nil] at hlt
      omega
  | cons f fs ih =>
      intro j hle hlt
      obtain ⟨b, c, d, -, -, ⟨i, hi, hfound⟩, hvalue, hcd, -, hrest⟩ := emitStores_cons_ok h
      rcases Nat.eq_or_lt_of_le hle with rfl | hlt'
      · have hgrows := ((emitValue_grows hvalue).trans hcd.pool).trans (emitStores_grows hrest)
        exact ⟨i, hi, hgrows.found hfound⟩
      · exact ih hrest j hlt' (by rw [List.length_cons] at hlt; omega)

/-- A literal that is made by stores has no more elements than there are constants in reach. -/
theorem length_le_room (h : emitValue functions (.storing elem fs) s = .ok () s') :
    fs.length ≤ Pool.room := by
  obtain ⟨_, s₁, -, hstores⟩ := bind_eq_ok.1 h
  by_contra hlarge
  have hcount : (placesBelow (Pool.room + 1)).length ≤ Pool.room := by
    refine Pool.length_le_of_found (p := s'.pool) (nodup_placesBelow (Nat.le_refl _))
      fun c hc => ?_
    obtain ⟨j, hj, rfl⟩ := List.mem_map.1 hc
    rw [List.mem_range] at hj
    exact places_found hstores j (Nat.zero_le _) (by omega)
  rw [placesBelow, List.length_map, List.length_range] at hcount
  omega

end

/-! ### What both forms mean -/

def keysBelow (n : Nat) : List Int :=
  (List.range n).map Nat.cast

theorem length_keysBelow (n : Nat) : (keysBelow n).length = n := by
  rw [keysBelow, List.length_map, List.length_range]

theorem getElem?_keysBelow {n j : Nat} {k : Int} :
    (keysBelow n)[j]? = some k ↔ j < n ∧ k = j := by
  rw [keysBelow, List.getElem?_map]
  rcases Nat.lt_or_ge j n with hj | hj
  · rw [List.getElem?_range hj, Option.map_some, Option.some.injEq]
    exact ⟨fun h => ⟨hj, h.symm⟩, fun h => h.2.symm⟩
  · rw [List.getElem?_eq_none (by rwa [List.length_range])]
    constructor
    · rintro ⟨⟩
    · rintro ⟨hlt, -⟩
      exact absurd hlt (Nat.not_lt_of_le hj)

/-- Values that are stored at all places in order are what the vector holds. -/
theorem Filled.eq_of_keysBelow {α : Type} {vs cells : List α} {initial : α} {n : Nat}
    (h : Filled (keysBelow n) vs initial n cells) : cells = vs := by
  have hvalues : vs.length = n := h.values.trans (length_keysBelow n)
  refine List.ext_getElem? fun i => ?_
  rcases Nat.lt_or_ge i n with hi | hi
  · refine h.last i i (getElem?_keysBelow.2 ⟨hi, rfl⟩) fun k hk hkey => ?_
    exact Nat.ne_of_lt hk (Int.ofNat_inj.1 (getElem?_keysBelow.1 hkey).2)
  · rw [List.getElem?_eq_none (by rw [h.length]; exact hi),
      List.getElem?_eq_none (by rw [hvalues]; exact hi)]

theorem map_toInt_numberedFrom {k : Nat} {fs : List Form} (h : k + fs.length ≤ Pool.room) :
    (numberedFrom k fs).map (·.1.toInt) = (List.range' k fs.length).map Nat.cast := by
  have hroom : Pool.room = 65536 := rfl
  induction fs generalizing k with
  | nil => rfl
  | cons f fs ih =>
      rw [List.length_cons] at h ⊢
      rw [numberedFrom, List.map_cons, List.range'_succ, List.map_cons, ih (by omega)]
      rw [Int64.toInt_ofNat_of_lt (by omega)]

section

variable {R : Runtime} {V : VectorHost R} {ρ : Env R} {elem : Scalar} {fs : List Form}

theorem denotes_dense (initial : R.Value) :
    V.Denotes ρ (.array fs) fs (keysBelow fs.length) initial fs.length := by
  have hlength := length_keysBelow fs.length
  have hdenotes : V.Denotes ρ (.array fs) fs (keysBelow fs.length) initial
      (keysBelow fs.length).length :=
    denotes_array hlength.symm fun _ _ hj => (getElem?_keysBelow.1 hj).2
  rwa [hlength] at hdenotes

theorem denotes_storing (hsize : fs.length ≤ Pool.room) :
    V.Denotes ρ (.storing elem fs) fs (keysBelow fs.length) (elem.initial R) fs.length := by
  have hmax : Int64.maxValue.toInt = 9223372036854775807 := by decide
  have hroom : Pool.room = 65536 := rfl
  have hkeys : (numberedFrom 0 fs).map (·.1.toInt) = keysBelow fs.length := by
    rw [map_toInt_numberedFrom (by omega), keysBelow, List.range_eq_range']
  have hdenotes : V.Denotes ρ (.storing elem fs) ((numberedFrom 0 fs).map (·.2))
      ((numberedFrom 0 fs).map (·.1.toInt)) (elem.initial R) fs.length := by
    refine denotes_sparseArray (by omega) fun p hp => ?_
    have hkey : p.1.toInt ∈ (numberedFrom 0 fs).map (·.1.toInt) := List.mem_map_of_mem hp
    rw [hkeys] at hkey
    obtain ⟨j, hj⟩ := List.getElem?_of_mem hkey
    obtain ⟨hlt, heq⟩ := getElem?_keysBelow.1 hj
    omega
  rwa [hkeys, map_snd_numberedFrom] at hdenotes

end

section

variable {f : Form} {fs : List Form} {s s' : Assembly}

variable {R : Runtime} (V : VectorHost R) (F : CompiledFunction) (σ : Operands R)

/-- Where the code of a form between two assemblies does what the form means: in a function that it
is part of, on the operands that it was built for, where no read finds a copy from before a call,
and on a host that leads only to vectors that exist. -/
structure VectorSetting (f : Form) (s s' : Assembly) (w : World R) : Prop where
  spares : R.SparesVars
  contains : F.Contains s'
  names : s.slots.names = σ.names
  current : f.IsCurrent F σ
  closed : V.Closed σ.env w.store

/-- The machine gets to the end of the code with a vector on top of the operands. The vector did not
exist before, and it holds the values of the elements, which have been evaluated once each and in
order. -/
structure LeavesVector (fs : List Form) (s s' : Assembly) (w : World R) (a : R.Value)
    (vs : List R.Value) (w' : World R) : Prop where
  reaches : F.Reaches ⟨s.code.size, σ.values, w⟩ ⟨s'.code.size, a :: σ.values, w'⟩
  fresh : V.contents w.store.heap a = none
  contents : V.contents w'.store.heap a = some vs
  inTurn : InTurn (V.Aside a) σ.env fs w vs w'

/-- The machine raises an error because an element does, where those before it have been
evaluated. -/
structure RaisesInTurn (fs : List Form) (s : Assembly) (w w' : World R) : Prop where
  raises : F.Attains ⟨s.code.size, σ.values, w⟩ .raised w'
  inTurn : ∃ a, StopsInTurn (V.Aside a) σ.env fs w .panic w'

/-- Code for a form makes a vector of the values of elements and leaves it in one new slot. -/
structure MakesVector (f : Form) (fs : List Form) (s s' : Assembly) : Prop where
  names : s'.slots.names = none :: s.slots.names
  runs : ∀ {R : Runtime} {V : VectorHost R} {F : CompiledFunction} {σ : Operands R} {w : World R},
    VectorSetting V F σ f s s' w → (∃ a vs w', LeavesVector V F σ fs s s' w a vs w') ∨
      ∃ w', RaisesInTurn V F σ fs s w w'

variable {V F σ} {functions : SignatureTable} {w w' : World R}

namespace VectorSetting

variable (hsetting : VectorSetting V F σ f s s' w) (h : emitValue functions f s = .ok () s')
  {initial : R.Value}
  (hdenotes : V.Denotes σ.env f fs (keysBelow fs.length) initial fs.length)
include hsetting h hdenotes

/-- Code of a form that denotes a vector leaves it. -/
theorem leavesVector {a : R.Value} (hvalue : evalValue R σ.env f w = .ok a w') :
    ∃ vs, LeavesVector V F σ fs s s' w a vs w' := by
  have hrun := completes_evalValue h hsetting.contains hsetting.spares hsetting.names
    hsetting.current w
  obtain ⟨hfresh, vs, cells, hturn, hcells, hfilled⟩ := hdenotes.ok w a w' hsetting.closed hvalue
  rw [hfilled.eq_of_keysBelow] at hcells
  exact ⟨vs, hrun.1.attains hvalue, hfresh, hcells, hturn⟩

theorem raisesInTurn {e : Stop} (hvalue : evalValue R σ.env f w = .error e w') :
    RaisesInTurn V F σ fs s w w' := by
  have hrun := completes_evalValue h hsetting.contains hsetting.spares hsetting.names
    hsetting.current w
  obtain rfl := hrun.2 hvalue
  exact ⟨hrun.1.raises hvalue, hdenotes.error w _ w' hsetting.closed hvalue⟩

theorem runs : (∃ a vs w', LeavesVector V F σ fs s s' w a vs w') ∨
    ∃ w', RaisesInTurn V F σ fs s w w' := by
  cases hvalue : evalValue R σ.env f w with
  | ok a w' =>
      obtain ⟨vs, hleaves⟩ := hsetting.leavesVector h hdenotes hvalue
      exact .inl ⟨a, vs, w', hleaves⟩
  | error e w' => exact .inr ⟨w', hsetting.raisesInTurn h hdenotes hvalue⟩

end VectorSetting

theorem makesVector_array (h : emitValue functions (.array fs) s = .ok () s') :
    MakesVector (.array fs) fs s s' where
  names := (emitValue_code _ h).names_of_isOperand rfl
  runs {R _ _ _ _} hsetting := hsetting.runs h (denotes_dense (R.constant (.symbol Host.nil)))

theorem makesVector_storing {elem : Scalar}
    (h : emitValue functions (.storing elem fs) s = .ok () s') :
    MakesVector (.storing elem fs) fs s s' where
  names := (emitValue_code _ h).names_of_isOperand rfl
  runs hsetting := hsetting.runs h (denotes_storing (length_le_room h))

end

/-! ### The same vector -/

section

variable {R : Runtime} {V : VectorHost R} {L : Likeness V.toVectorView} {l : L.Link} {ρ : Env R}
  {w w' : World R} {elem : Scalar} {fs : List Form}

/-- Elements that are stored into a vector which only the second run has are alike those that the
first run evaluates. -/
theorem alike_stores {b initial : R.Value} (done : List R.Value)
    (hstore : L.store l w.store w'.store) (hρ : L.Fixes l ρ) (hown : L.own l b)
    (hides : V.Hides b (ρ.map Prod.snd) w'.store)
    (hcells : V.contents w'.store.heap b = some (done ++ List.replicate fs.length initial))
    (hsize : done.length + fs.length ≤ Pool.room) :
    Outcome (fun us w₁ _ w₂ => ∃ l' vs, L.le l l' ∧ L.store l' w₁.store w₂.store ∧ L.own l' b ∧
        L.values l' us vs ∧ V.contents w₂.store.heap b = some (done ++ vs))
      (evalValues R ρ fs w) (evalStores R ρ b (numberedFrom done.length fs) w') := by
  have hroom : Pool.room = 65536 := rfl
  -- by induction on the elements that are left, while those before them stand in the vector
  induction fs generalizing done l w w' with
  | nil => exact .ok ⟨l, [], L.le_refl l, hstore, hown, .nil, hcells⟩
  | cons f fs ih =>
      rw [List.length_cons] at hcells hsize
      have hplace : (Int64.ofNat done.length).toInt = done.length :=
        Int64.toInt_ofNat_of_lt (by omega)
      refine (L.alike_evalValue f hρ w w' hstore).bind fun u w₁ v w₂ _ hv halike => ?_
      obtain ⟨l₁, hle, hstore₁, huv⟩ := halike
      obtain ⟨w₃, hset, -, hides₃, hchanges⟩ := fill_element (i := .ofNat done.length) hides hcells
        (by omega) (by rw [hplace, List.length_append, List.length_replicate]; omega) hv
      have hnext : (done ++ List.replicate (fs.length + 1) initial).set
          (Int64.ofNat done.length).toInt.toNat v =
            (done ++ [v]) ++ List.replicate fs.length initial := by
        rw [hplace, Int.toNat_natCast, List.set_append_right _ _ (Nat.le_refl _), Nat.sub_self,
          List.replicate_succ, List.set_cons_zero, List.append_assoc, List.singleton_append]
      rw [hnext] at hchanges
      have hstore₃ := L.fill hstore₁ (L.own_le hle hown) huv hset hchanges
      have hrest := ih (done ++ [v]) hstore₃ (hρ.le hle) (L.own_le hle hown) hides₃
        hchanges.contents (by rw [List.length_append, List.length_singleton]; omega)
      rw [List.length_append, List.length_singleton] at hrest
      rw [bind_of_ok hset]
      refine hrest.map_left fun us w₄ _ w₅ h => ?_
      obtain ⟨l', vs, hle', hstore', hown', huvs, hcells'⟩ := h
      refine ⟨l', v :: vs, L.le_trans hle hle', hstore', hown',
        .cons (L.value_le hle' huv) huvs, ?_⟩
      rwa [List.append_assoc, List.singleton_append] at hcells'

/-- Both forms of a literal make vectors that are alike, or both stop. -/
theorem alike_storing (hstore : L.store l w.store w.store) (hρ : L.Fixes l ρ)
    (hclosed : V.Closed ρ w.store) (hsize : fs.length ≤ Pool.room) :
    Outcome (fun a w₁ b w₂ => ∃ l' us vs, L.store l' w₁.store w₂.store ∧ L.value l' a b ∧
        V.contents w₁.store.heap a = some us ∧ V.contents w₂.store.heap b = some vs ∧
        L.values l' us vs)
      (evalValue R ρ (.array fs) w) (evalValue R ρ (.storing elem fs) w) := by
  have hint : (fs.length : Int) ≤ Int64.maxValue.toInt := by
    have hmax : Int64.maxValue.toInt = 9223372036854775807 := by decide
    have hroom : Pool.room = 65536 := rfl
    omega
  obtain ⟨b, w₁, hzeros, hmakes, -, hides⟩ := make_zeros elem hint hclosed
  obtain ⟨l₁, hle, hstore₁, hown⟩ :=
    L.make hstore ((evalValue_zeroArray elem fs.length w).symm.trans hzeros) hmakes
  have hfilled := alike_stores [] hstore₁ (hρ.le hle) hown hides hmakes.contents
    (by simpa using hsize)
  have hsecond : evalValue R ρ (.storing elem fs) w = (do
      evalStores R ρ b (numberedFrom 0 fs)
      return b) w₁ := bind_of_ok hzeros _
  rw [hsecond]
  refine hfilled.bind fun us w₂ _ w₃ _ _ h => ?_
  obtain ⟨l', vs, -, hstore', hown', huvs, hcells⟩ := h
  -- only now does the first run make its vector
  obtain ⟨a, s, hcall, hmakes'⟩ := V.vector us w₂.store
  obtain ⟨w₄, hw₄, rfl, -⟩ := hmakes'.call hcall List.mem_cons_self
  obtain ⟨l'', hstore'', hab, hmono⟩ := L.adopt hstore' hown' hcells hw₄ hmakes' huvs
  rw [hw₄]
  exact .ok ⟨l'', us, vs, hstore'', hab, hmakes'.contents, hcells, huvs.imp hmono⟩

/-- Two forms of one literal, whose codes begin at the same assembly, make vectors that are alike up
to where vectors lie, or both raise an error. -/
def MakeAlike (f g : Form) (fs : List Form) (s t s' : Assembly) : Prop :=
  ∀ {R : Runtime} {V : VectorHost R} (L : Likeness V.toVectorView) {l : L.Link}
    {F G : CompiledFunction} {σ : Operands R} {w : World R},
    VectorSetting V F σ f s t w → VectorSetting V G σ g s s' w →
    L.store l w.store w.store → L.Fixes l σ.env →
    (∃ l' a us w₁ b vs w₂, LeavesVector V F σ fs s t w a us w₁ ∧
      LeavesVector V G σ fs s s' w b vs w₂ ∧
      L.store l' w₁.store w₂.store ∧ L.value l' a b ∧ L.values l' us vs) ∨
    ∃ w₁ w₂, RaisesInTurn V F σ fs s w w₁ ∧ RaisesInTurn V G σ fs s w w₂

theorem makeAlike_storing {functions : SignatureTable} {s t s' : Assembly}
    (harray : emitValue functions (.array fs) s = .ok () t)
    (hstoring : emitValue functions (.storing elem fs) s = .ok () s') :
    MakeAlike (.array fs) (.storing elem fs) fs s t s' := by
  intro R V L l F G σ w hF hG hstore hfixes
  have hsize := length_le_room hstoring
  have hdense : V.Denotes σ.env (.array fs) fs (keysBelow fs.length) (elem.initial R) fs.length :=
    denotes_dense _
  have hsparse : V.Denotes σ.env (.storing elem fs) fs (keysBelow fs.length) (elem.initial R)
    fs.length := denotes_storing hsize
  obtain ⟨a, w₁, b, w₂, ha, hb, l', us, vs, hstore', hab, hus, hvs, huvs⟩ | ⟨e, w₁, w₂, ha, hb⟩ :=
    (alike_storing hstore hfixes hF.closed hsize).elim
  · obtain ⟨us', hfirst⟩ := hF.leavesVector harray hdense ha
    obtain ⟨vs', hsecond⟩ := hG.leavesVector hstoring hsparse hb
    obtain rfl : us = us' := Option.some.inj (hus.symm.trans hfirst.contents)
    obtain rfl : vs = vs' := Option.some.inj (hvs.symm.trans hsecond.contents)
    exact .inl ⟨l', a, us, w₁, b, vs, w₂, hfirst, hsecond, hstore', hab, huvs⟩
  · exact .inr ⟨w₁, w₂, hF.raisesInTurn harray hdense ha, hG.raisesInTurn hstoring hsparse hb⟩

end

/-! ### Dense and sparse literals -/

/-- Where the stores of a literal compile, the literal that is made at once compiles as well, unless
it exceeds a bound of the machine. Both leave a new vector of the same values in one new slot, the
elements being evaluated once each and in order, where no read finds a copy of a variable from
before a call and numbers are loaded as they are written. What the codes do otherwise is told by
evaluation on the stack, where a read finds the topmost copy. -/
theorem dense_arrays {functions : SignatureTable} {elem : Scalar} {fs : List Form}
    {s s' : Assembly} (hstoring : emitValue functions (.storing elem fs) s = .ok () s') :
    (∀ {env : Environment} {kind : Kind} {declared : Option Nat}
      {elems : List (Option Int64 × Expr)} {span : Span},
      kind.elements? = some (elem, declared) →
      Form.ofExpr env (.array elems kind span) = .ok (.array fs) →
      ∃ stores, Form.ofElements env declared 0 elems = .ok stores ∧
        .sparseArray (.zeroArray elem (literalLength declared stores)) stores =
          Form.storing elem fs) ∧
    ((∃ t, emitValue functions (.array fs) s = .ok () t) ∨
      (255 < fs.length ∧ ∃ t, emitValue functions (.array fs) s =
        .error (.capacity .callArguments fs.length) t) ∨
      (∃ name offset t, emitValue functions (.array fs) s =
        .error (.capacity .stackOffset offset) t ∧ t.slots.find? name = some offset ∧
          65535 < offset) ∨
      ∃ index t, emitValue functions (.array fs) s = .error (.capacity .constantPool index) t ∧
        65536 ≤ index ∧ 65536 ≤ s'.pool.size ∧
        ∀ i, s'.pool.find? (.symbol Host.vector) = some i → 65536 ≤ i) ∧
    MakesVector (.storing elem fs) fs s s' ∧
    (∀ t, emitValue functions (.array fs) s = .ok () t →
      MakesVector (.array fs) fs s t ∧ MakeAlike (.array fs) (.storing elem fs) fs s t s') ∧
    ∀ {R : Runtime} {F : CompiledFunction} {σ : Operands R} (w : World R),
      s.slots.names = σ.names →
      (F.Contains s' → F.Completes ⟨s.code.size, σ.values, w⟩
        (do
          let a ← stackValue R (F.literal R) σ (.zeroArray elem fs.length)
          stackStores R (F.literal R) σ none a (numberedFrom 0 fs)
          return a)
        (fun a => .point s'.code.size (a :: σ.values))) ∧
      ∀ t, emitValue functions (.array fs) s = .ok () t → F.Contains t →
        F.Completes ⟨s.code.size, σ.values, w⟩
          (do
            let vector := F.literal R (.symbol Host.vector)
            let vs ← stackValues R (F.literal R) ((none, vector) :: σ) fs
            Run.call vector vs)
          (fun a => .point t.code.size (a :: σ.values)) := by
  refine ⟨fun hkind hform => ?_, ?_, makesVector_storing hstoring,
    fun t ht => ⟨makesVector_array ht, makeAlike_storing ht hstoring⟩, fun w hnames => ⟨?_, ?_⟩⟩
  · obtain ⟨stores, hstores, hliteral⟩ := (ofExpr_literal hkind).1 hform
    exact ⟨stores, hstores, storing_of_ofStores hliteral.symm⟩
  · obtain hdense | hmany | hdeep | ⟨index, t, herror, hindex, hlacks⟩ := emitValue_array hstoring
    · exact .inl hdense
    · exact .inr (.inl hmany)
    · exact .inr (.inr (.inl hdeep))
    · exact .inr (.inr (.inr ⟨index, t, herror, hindex, hlacks.full, hlacks.beyond⟩))
  · intro hF
    have hrun := completes_stackValue hstoring hF hnames w
    rwa [Form.storing, stackValue] at hrun
  · intro t ht hF
    have hrun := completes_stackValue ht hF hnames w
    rwa [stackValue] at hrun

theorem Run.Keeps.primitive {R : Runtime} {α : Type} {x : Action R.Value R.Heap α}
    (hx : ∀ s a s', x s = .ok a s' → s'.vars = s.vars) :
    (Run.primitive x).Keeps (World.SameVars (R := R)) := by
  intro w a w' h
  obtain ⟨s, hs, rfl⟩ := Run.primitive_eq_ok.1 h
  exact hx _ _ _ hs

/-- No operation of the host changes a variable. -/
theorem sparesVars_counter : Runtime.counter.SparesVars where
  unary _ _ := .primitive fun _ _ _ h => absurd h throw_ne_ok
  binary _ _ _ := .primitive fun _ _ _ h => absurd h throw_ne_ok
  concat _ := .primitive fun _ _ _ h => absurd h throw_ne_ok
  arrayRef _ _ := .primitive fun s v s' h => by
    obtain ⟨hinner, -⟩ := Cell.get_ok (Counter.lift_ok h).1
    have hvars : (Counter.inner s').vars = (Counter.inner s).vars := by rw [hinner]
    exact hvars
  arraySet _ _ _ _ := .primitive fun s v s' h => by
    obtain ⟨place, n, -, hinner⟩ := Cell.set_ok (Counter.lift_ok h).1
    have hvars : (Counter.inner s').vars = (Counter.inner s).vars := by rw [hinner]
    exact hvars

/-- The elements of `{x, {7}, tick()}`. -/
def nestedElements : List Form :=
  [.var "x", .array [.int 7], .call "tick" []]

def World.counter : World .counter :=
  ⟨⟨fun _ => Cell.constant (.symbol Host.nil), [], 0⟩, []⟩

theorem isCurrent_nested {f : Form}
    (hf : f = .array nestedElements ∨ f = .storing .object nestedElements)
    (F : CompiledFunction) :
    f.IsCurrent (R := .counter) F [(some "x", Cell.constant (.int 5))] where
  float x hx := by
    obtain rfl | rfl := hf <;>
      simp [nestedElements, Form.storing, numberedFrom, Form.zeroArray, Scalar.zero, Form.parts,
        listParts, storeParts] at hx
  reads x hx := by
    have hne : x ≠ "x" := by
      rintro rfl
      cases hx
    obtain rfl | rfl := hf <;>
      simp [nestedElements, Form.storing, numberedFrom, Form.zeroArray, Scalar.zero,
        Form.readsCurrent, readAllCurrent, storesReadCurrent, Ne.symm hne]

/-- No element raises an error. -/
theorem not_raisesInTurn_nested {F : CompiledFunction} {s : Assembly} {w w' : World .counter} :
    ¬RaisesInTurn .counter F [(some "x", Cell.constant (.int 5))] nestedElements s w w' := by
  rintro ⟨-, a, before, f, after, vs, w₁, hfs, -, hf⟩
  have hmem : f ∈ nestedElements := by simp [hfs]
  obtain rfl | rfl | rfl : f = .var "x" ∨ f = .array [.int 7] ∨ f = .call "tick" [] := by
    simpa [nestedElements] using hmem
  · cases hf
  · cases hf
  · cases hf

/-- The inner vector is made first where the outer one is made at once, and last where it is made by
stores, so that they lie at different places. The count is the same. -/
theorem dense_arrays_nested :
    ∃ s' t F G l a us w₁ b vs w₂,
      emitValue .empty (.storing .object nestedElements) (.ofParams ["x"]) = .ok () s' ∧
      emitValue .empty (.array nestedElements) (.ofParams ["x"]) = .ok () t ∧
      LeavesVector .counter F [(some "x", Cell.constant (.int 5))] nestedElements
        (.ofParams ["x"]) t World.counter a us w₁ ∧
      LeavesVector .counter G [(some "x", Cell.constant (.int 5))] nestedElements
        (.ofParams ["x"]) s' World.counter b vs w₂ ∧
      Counter.likeness.value l a b ∧ Counter.likeness.values l us vs ∧
      w₁.store.heap.count = w₂.store.heap.count := by
  obtain ⟨s', G, hstoring, hG⟩ : ∃ s' G,
      emitValue .empty (.storing .object nestedElements) (.ofParams ["x"]) = .ok () s' ∧
        CompiledFunction.Contains G s' := Emit.exists_contains "k" ["x"] (by decide +kernel)
  obtain ⟨t, F, harray, hF⟩ : ∃ t F,
      emitValue .empty (.array nestedElements) (.ofParams ["x"]) = .ok () t ∧
        CompiledFunction.Contains F t := Emit.exists_contains "k" ["x"] (by decide +kernel)
  have hclosed : VectorHost.counter.Closed [("x", Cell.constant (.int 5))] World.counter.store := by
    rintro a (⟨name, ⟨⟩⟩ | ⟨v, hv, hleads⟩)
    rw [List.mem_singleton.1 hv] at hleads
    cases hleads
  have hfirst : VectorSetting .counter F [(some "x", Cell.constant (.int 5))]
      (.array nestedElements) (.ofParams ["x"]) t World.counter :=
    ⟨sparesVars_counter, hF, rfl, isCurrent_nested (.inl rfl) F, hclosed⟩
  have hsecond : VectorSetting .counter G [(some "x", Cell.constant (.int 5))]
      (.storing .object nestedElements) (.ofParams ["x"]) s' World.counter :=
    ⟨sparesVars_counter, hG, rfl, isCurrent_nested (.inr rfl) G, hclosed⟩
  have hjoins : Counter.likeness.store ⟨[], []⟩ World.counter.store World.counter.store :=
    ⟨⟨fun _ => .constant _, by simp, by simp, by simp⟩, rfl⟩
  have hfixes : Counter.likeness.Fixes ⟨[], []⟩ [("x", Cell.constant (.int 5))] := by
    intro v hv
    rw [List.mem_singleton.1 hv]
    exact .constant _
  obtain ⟨l, a, us, w₁, b, vs, w₂, hus, hvs, hstore, hab, huvs⟩ | ⟨w₁, w₂, hraises, -⟩ :=
    ((dense_arrays hstoring).2.2.2.1 t harray).2 Counter.likeness hfirst hsecond hjoins hfixes
  · exact ⟨s', t, F, G, l, a, us, w₁, b, vs, w₂, hstoring, harray, hus, hvs, hab, huvs, hstore.2⟩
  · exact absurd hraises not_raisesInTurn_nested

/-! ### Literals that are lost or changed -/

def manyZeros : List (Option Int64 × Expr) :=
  List.replicate 256 (none, .ofLiteral (.int 0))

theorem ofElements_zeros (n k : Nat) (h : k + n ≤ Pool.room) :
    Form.ofElements {} none (.ofNat k) (List.replicate n (none, .ofLiteral (.int 0))) =
      .ok (numberedFrom k (List.replicate n (.int 0))) := by
  have hroom : Pool.room = 65536 := rfl
  induction n generalizing k with
  | zero => rfl
  | succ n ih =>
      have hkey : (Int64.ofNat k).toInt = k := Int64.toInt_ofNat_of_lt (by omega)
      have hallowed : indexAllowed none (.ofNat k) = true := by
        simp [indexAllowed, hkey]
      have hnext : Int64.ofNat k + 1 = .ofNat (k + 1) := by
        rw [Int64.ofNat_add]
        rfl
      rw [List.replicate_succ, List.replicate_succ, numberedFrom, Form.ofElements]
      simp only [Option.getD_none, hallowed, if_true, hnext, ih (k + 1) (by omega)]
      rfl

theorem ofExpr_manyZeros : Form.ofExpr {} (.array manyZeros (.slice .int) {}) =
    .ok (.array (List.replicate 256 (.int 0))) := by
  refine (ofExpr_literal rfl).2 ⟨_, ofElements_zeros 256 0 (by decide), ?_⟩
  have hdense : (decide (literalLength none (numberedFrom 0 (List.replicate 256 (.int 0))) =
      (numberedFrom 0 (List.replicate 256 (.int 0))).length) &&
        countsUp (numberedFrom 0 (List.replicate 256 (.int 0)))) = true := by decide +kernel
  rw [Form.ofStores, if_pos hdense, map_snd_numberedFrom]

theorem Pool.add_fits {p : Pool} (c : Constant) {n : Nat} (h : p.size < n) :
    (p.add c).1 < n ∧ (p.add c).2.size ≤ p.size + 1 := by
  cases hfind : p.find? c with
  | some i =>
      obtain ⟨d, hd, -⟩ := (Pool.find?_eq_some_iff _ _ _).1 hfind
      have hi : i < p.size := (Array.getElem?_eq_some_iff.1 hd).1
      rw [Pool.add_of_find? hfind]
      exact ⟨Nat.lt_trans hi h, Nat.le_succ _⟩
  | none =>
      obtain ⟨hindex, hentries⟩ := Pool.add_of_find?_eq_none hfind
      refine ⟨by rwa [hindex], ?_⟩
      rw [Pool.size, hentries, Array.size_push]
      exact Nat.le_refl _

theorem Emit.exists_int (v : Int64) {s : Assembly} (h : s.pool.size < Pool.room) :
    ∃ t, Emit.int v s = .ok () t ∧ t.pool.size ≤ s.pool.size + 1 ∧
      t.slots.names = none :: s.slots.names := by
  obtain ⟨hfits, hsize⟩ := Pool.add_fits (.int v) h
  obtain ⟨t, ht⟩ : ∃ t, Emit.int v s = .ok () t :=
    Emit.exists_indexed hfits (fun _ => ⟨rfl, rfl⟩) fun _ => rfl
  obtain ⟨k, -, happ⟩ := Emit.indexed_ok ht
  exact ⟨t, ht, by rwa [happ.pool], happ.names⟩

/-- Numbers can be stored while there is room for them and their places. -/
theorem exists_emitStores_ints (functions : SignatureTable) (vs : List Int64) (k : Nat)
    {s : Assembly} (h : s.pool.size + 2 * vs.length ≤ Pool.room) :
    ∃ s', emitStores functions (numberedFrom k (vs.map .int)) s = .ok () s' := by
  induction vs generalizing k s with
  | nil => exact ⟨s, rfl⟩
  | cons v vs ih =>
      rw [List.length_cons] at h
      obtain ⟨a, ha⟩ := Emit.exists_instr (t := s) (i := .stackRef 0) (Nat.zero_le _)
        (by simp [Instr.label?])
      have hcopy := Emit.instr_ok ha
      obtain ⟨b, hb, hsize_b, hnames_b⟩ :=
        Emit.exists_int (.ofNat k) (s := a) (by rw [hcopy.pool]; omega)
      obtain ⟨c, hc, hsize_c, hnames_c⟩ :=
        Emit.exists_int v (s := b) (by rw [hcopy.pool] at hsize_b; omega)
      obtain ⟨d, hd⟩ := Emit.exists_instr (t := c) (i := .arraySet)
        (by simp [hnames_c, hnames_b, hcopy.names, Instr.pops, Instr.pushes])
        (by simp [Instr.label?])
      have hset := Emit.instr_ok hd
      obtain ⟨s', hs'⟩ := ih (k + 1) (s := d) (by rw [hcopy.pool] at hsize_b; rw [hset.pool]; omega)
      refine ⟨s', ?_⟩
      have hvalue : emitValue functions (.int v) b = .ok () c := hc
      rw [List.map_cons, numberedFrom, emitStores, bind_of_ok ha, bind_of_ok hb,
        bind_of_ok hvalue, bind_of_ok hd, hs']

/-- A host of cells that also has a function which leaves a new text in the variable `g`. -/
def Runtime.renewing : Runtime :=
  { Runtime.makers with
    call := fun (f : Cell) args =>
      if f = Cell.constant (.symbol "h") then do
        modify (·.setVar "g" (.constant (.str "new")))
        return .constant (.str "-")
      else Cell.callMaker f args }

def World.renewing : World .renewing :=
  ⟨⟨fun _ => Cell.constant (.str "old"), []⟩, []⟩

/-- The elements of `{g, h(), g}`. -/
def renewedElements : List Form :=
  [.var "g", .call "h" [], .var "g"]

def onlyTexts (texts : List String) : Cell.Heap :=
  [texts.map fun text => .constant (.str text)]

section

variable {lit : Constant → Runtime.renewing.Value}

theorem stackValue_storing_renewed (hlit : LoadsExactly lit) :
    ∃ w, stackValue .renewing lit [] (.storing .string renewedElements) World.renewing =
      .ok (Cell.vector 0) w ∧ w.store.heap = onlyTexts ["old", "-", "new"] := by
  have hint (n : Int64) : lit (.int n) = Cell.constant (.int n) := hlit _ (by simp)
  have hstr (text : String) : lit (.str text) = Cell.constant (.str text) := hlit _ (by simp)
  have hsymbol (name : String) : lit (.symbol name) = Cell.constant (.symbol name) :=
    hlit _ (by simp)
  simp only [Form.storing, renewedElements, numberedFrom, Form.zeroArray, Scalar.zero, stackValue,
    stackValues, stackStores, hint, hstr, hsymbol]
  exact ⟨_, rfl, rfl⟩

theorem stackValue_array_renewed (hlit : LoadsExactly lit) :
    ∃ w, stackValue .renewing lit [] (.array renewedElements) World.renewing =
      .ok (Cell.vector 0) w ∧ w.store.heap = onlyTexts ["old", "-", "old"] := by
  have hsymbol (name : String) : lit (.symbol name) = Cell.constant (.symbol name) :=
    hlit _ (by simp)
  simp only [renewedElements, stackValue, stackValues, hsymbol]
  exact ⟨_, rfl, rfl⟩

end

/-- The stores of 256 zeros compile, but the vector that the source becomes does not. And where a
variable is read before and after a call that changes it, the vector that is made at once holds what
it held before. -/
theorem dense_arrays_bounds :
    (Form.ofExpr {} (.array manyZeros (.slice .int) {}) =
        .ok (.array (List.replicate 256 (.int 0))) ∧
      (∃ s', emitValue .empty (.storing .int (List.replicate 256 (.int 0))) {} = .ok () s') ∧
      ∀ t, emitValue .empty (.array (List.replicate 256 (.int 0))) {} ≠ .ok () t) ∧
    ∃ s' t F G w w',
      emitValue .empty (.storing .string renewedElements) {} = .ok () s' ∧
      emitValue .empty (.array renewedElements) {} = .ok () t ∧
      CompiledFunction.Contains F s' ∧ CompiledFunction.Contains G t ∧
      F.Reaches (R := .renewing) ⟨0, [], World.renewing⟩ ⟨s'.code.size, [Cell.vector 0], w⟩ ∧
      G.Reaches (R := .renewing) ⟨0, [], World.renewing⟩ ⟨t.code.size, [Cell.vector 0], w'⟩ ∧
      w.store.heap = onlyTexts ["old", "-", "new"] ∧
      w'.store.heap = onlyTexts ["old", "-", "old"] := by
  refine ⟨⟨ofExpr_manyZeros, ?_, fun t ht => ?_⟩, ?_⟩
  · have hbuilt : (Emit.built? (emitValue .empty (.zeroArray .int 256)) {}).map
        (fun s => s.pool.size) = some 3 := by decide +kernel
    obtain ⟨s, hs, hsize⟩ := Option.map_eq_some_iff.1 hbuilt
    have hroom : Pool.room = 65536 := rfl
    obtain ⟨s', hs'⟩ := exists_emitStores_ints .empty (List.replicate 256 0) 0 (s := s)
      (by rw [hsize, List.length_replicate]; omega)
    rw [List.map_replicate] at hs'
    refine ⟨s', ?_⟩
    rw [Form.storing, List.length_replicate, emitValue, bind_of_ok (Emit.built?_eq_some hs), hs']
  · obtain ⟨_, u, -, h⟩ := bind_eq_ok.1 ht
    obtain ⟨_, v, -, hcall⟩ := bind_eq_ok.1 h
    obtain ⟨n, hn, -⟩ := Emit.call_ok hcall
    have hlt := n.toNat_lt
    rw [hn, List.length_replicate] at hlt
    exact absurd hlt (by decide)
  · obtain ⟨s', F, hstoring, hF⟩ : ∃ s' F,
        emitValue .empty (.storing .string renewedElements) {} = .ok () s' ∧
          CompiledFunction.Contains F s' := Emit.exists_contains "k" [] (by decide +kernel)
    obtain ⟨t, G, harray, hG⟩ : ∃ t G,
        emitValue .empty (.array renewedElements) {} = .ok () t ∧
          CompiledFunction.Contains G t := Emit.exists_contains "k" [] (by decide +kernel)
    obtain ⟨w, hw, hheap⟩ := stackValue_storing_renewed (F.literal_loadsExactly _)
    obtain ⟨w', hw', hheap'⟩ := stackValue_array_renewed (G.literal_loadsExactly _)
    have hs := completes_stackValue (σ := []) hstoring hF rfl World.renewing
    have ha := completes_stackValue (σ := []) harray hG rfl World.renewing
    exact ⟨s', t, F, G, w, w', hstoring, harray, hF, hG, hs.1.attains hw, ha.1.attains hw',
      hheap, hheap'⟩

end StackCompiler
