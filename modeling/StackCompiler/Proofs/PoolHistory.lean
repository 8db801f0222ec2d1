import Mathlib.Data.List.Forall2
import StackCompiler.Proofs.Emission

/-!
Pools after any sequence of additions. Constants are compared by value: the two zeros are equal, and
so is all that is not a number. `Pool.addEach_records` says that the constants and the table of
their indices stay inverse to each other whatever is added, and `Pool.addEach_eraseDups` that new
indices are given out in order.
-/

namespace StackCompiler

/-! ### Equality of constants -/

/-- Equality by value, where all that is not a number is one value. -/
def Binary64.equals (x y : Binary64) : Bool :=
  x.numEq y || (x.isNaN && y.isNaN)

/-- Equality of constants. Only floating point numbers can be equal without being the same. -/
def Constant.equals : Constant → Constant → Bool
  | .float x, .float y => x.equals y
  | c, d => c == d

namespace Binary64

theorem isZero_of_isNaN {x : Binary64} (h : x.isNaN = true) : x.isZero = false := by
  simp only [isNaN, Bool.and_eq_true, beq_iff_eq] at h
  simp [isZero, h.1]

theorem isNaN_of_isZero {x : Binary64} (h : x.isZero = true) : x.isNaN = false :=
  eq_false_of_ne_true fun hnan => by simp [isZero_of_isNaN hnan] at h

/-- Different patterns are equal only if both are no numbers, or both are zero. -/
theorem equals_iff (x y : Binary64) : x.equals y = true ↔
    x = y ∨ (x.isNaN = true ∧ y.isNaN = true) ∨ (x.isZero = true ∧ y.isZero = true) := by
  have hbits : x.bits = y.bits ↔ x = y := by
    cases x
    cases y
    simp
  simp only [equals, numEq, Bool.or_eq_true, Bool.and_eq_true, Bool.not_eq_true', beq_iff_eq, hbits]
  constructor
  · rintro (⟨-, rfl | hzero⟩ | hnan)
    · exact .inl rfl
    · exact .inr (.inr hzero)
    · exact .inr (.inl hnan)
  · rintro (rfl | hnan | hzero)
    · cases hx : x.isNaN <;> simp
    · exact .inr hnan
    · exact .inl ⟨⟨isNaN_of_isZero hzero.1, isNaN_of_isZero hzero.2⟩, .inr hzero⟩

theorem isNaN_canonical (x : Binary64) : x.canonical.isNaN = x.isNaN := by
  unfold canonical
  split
  · rename_i h
    rw [h]
    rfl
  · split
    · rename_i h _
      rw [eq_false_of_ne_true h]
      rfl
    · rfl

theorem isZero_canonical (x : Binary64) : x.canonical.isZero = x.isZero := by
  unfold canonical
  split
  · rename_i h
    rw [isZero_of_isNaN h]
    rfl
  · split
    · rename_i h
      rw [h]
      rfl
    · rfl

/-- One pattern stands for all numbers that are equal. -/
theorem canonical_eq_iff (x y : Binary64) : x.canonical = y.canonical ↔ x.equals y = true := by
  rw [equals_iff]
  constructor
  · intro h
    have hnan : x.isNaN = y.isNaN := by rw [← isNaN_canonical, h, isNaN_canonical]
    have hzero : x.isZero = y.isZero := by rw [← isZero_canonical, h, isZero_canonical]
    cases hx : x.isNaN
    · cases hx' : x.isZero
      · simpa [canonical, ← hnan, ← hzero, hx, hx'] using h
      · exact .inr (.inr ⟨rfl, hzero ▸ hx'⟩)
    · exact .inr (.inl ⟨rfl, hnan ▸ hx⟩)
  · rintro (rfl | ⟨hx, hy⟩ | ⟨hx, hy⟩)
    · rfl
    · simp [canonical, hx, hy]
    · simp [canonical, hx, hy, isNaN_of_isZero hx, isNaN_of_isZero hy]

end Binary64

/-- So keys decide equality. -/
theorem Constant.key_eq_iff (c d : Constant) : c.key = d.key ↔ c.equals d = true := by
  cases c <;> cases d <;> simp [key, equals, Binary64.canonical_eq_iff]

/-- A symbol equals only itself. -/
theorem Constant.eq_of_equals_symbol {c : Constant} {name : String}
    (h : c.equals (.symbol name) = true) : c = .symbol name := by
  cases c <;> simp_all [equals]

namespace Pool

/-! ### Additions -/

def addEach (p : Pool) : List Constant → List Nat × Pool
  | [] => ([], p)
  | c :: cs => ((p.add c).1 :: ((p.add c).2.addEach cs).1, ((p.add c).2.addEach cs).2)

theorem addEach_append (p : Pool) (cs ds : List Constant) :
    p.addEach (cs ++ ds) = ((p.addEach cs).1 ++ ((p.addEach cs).2.addEach ds).1,
      ((p.addEach cs).2.addEach ds).2) := by
  induction cs generalizing p with
  | nil => rfl
  | cons c cs ih => simp [addEach, ih]

theorem get?_eq (p : Pool) (i : Nat) : p.get? i = p.entries.toList[i]? := by
  simp [get?]

/-- The table knows the indices of exactly the constants that are there. -/
theorem find?_eq_some_iff (p : Pool) (c : Constant) (i : Nat) :
    p.find? c = some i ↔ ∃ d, p.get? i = some d ∧ d.equals c = true := by
  simp only [find?, p.agree c.key i, get?, Constant.key_eq_iff]

/-- What is added is found from then on. -/
theorem find?_add (p : Pool) (c : Constant) : (p.add c).2.find? c = some (p.add c).1 := by
  obtain ⟨d, hd, hkey⟩ := (p.add_spec c).1
  exact (find?_eq_some_iff _ _ _).2 ⟨d, hd, (Constant.key_eq_iff _ _).1 hkey⟩

/-- A constant that is found gets the index at which it is, and nothing else happens. -/
theorem add_of_find? {p : Pool} {c : Constant} {i : Nat} (h : p.find? c = some i) :
    p.add c = (i, p) := by
  unfold add
  split
  · rename_i j hj
    rw [h] at hj
    cases hj
    rfl
  · rename_i hnone
    rw [h] at hnone
    cases hnone

/-- A constant that is not found is put at the end. -/
theorem add_of_find?_eq_none {p : Pool} {c : Constant} (h : p.find? c = none) :
    (p.add c).1 = p.size ∧ (p.add c).2.entries = p.entries.push c := by
  unfold add
  split
  · rename_i i hi
    rw [h] at hi
    cases hi
  · cases p
    exact ⟨rfl, rfl⟩

/-- No addition changes what was there before. -/
theorem entries_addEach (p : Pool) (cs : List Constant) :
    p.entries.toList <+: (p.addEach cs).2.entries.toList := by
  induction cs generalizing p with
  | nil => exact List.prefix_rfl
  | cons c cs ih => exact (p.add_spec c).2.trans (ih _)

theorem get?_addEach {p : Pool} {i : Nat} {c : Constant} (h : p.get? i = some c)
    (cs : List Constant) : (p.addEach cs).2.get? i = some c := by
  rw [get?_eq] at h ⊢
  obtain ⟨later, hlater⟩ := p.entries_addEach cs
  rw [← hlater, List.getElem?_append_left (List.getElem?_eq_some_iff.1 h).1, h]

theorem find?_addEach {p : Pool} {c : Constant} {i : Nat} (h : p.find? c = some i)
    (cs : List Constant) : (p.addEach cs).2.find? c = some i := by
  obtain ⟨d, hd, heq⟩ := (find?_eq_some_iff _ _ _).1 h
  exact (find?_eq_some_iff _ _ _).2 ⟨d, get?_addEach hd cs, heq⟩

/-- Equal constants are found at the same place. -/
theorem find?_congr (p : Pool) {c d : Constant} (h : c.equals d = true) :
    p.find? c = p.find? d := by
  rw [find?, find?, (Constant.key_eq_iff c d).2 h]

/-- Every addition has returned the index at which its constant is found in the end. -/
theorem forall₂_addEach (p : Pool) (cs : List Constant) :
    List.Forall₂ (fun c i => (p.addEach cs).2.find? c = some i) cs (p.addEach cs).1 := by
  induction cs generalizing p with
  | nil => exact .nil
  | cons c cs ih => exact .cons (find?_addEach (p.find?_add c) cs) (ih _)

theorem length_addEach (p : Pool) (cs : List Constant) : (p.addEach cs).1.length = cs.length :=
  (p.forall₂_addEach cs).length_eq.symm

theorem exists_getElem?_addEach (p : Pool) {cs : List Constant} {k : Nat} {c : Constant}
    (h : cs[k]? = some c) :
    ∃ i, (p.addEach cs).1[k]? = some i ∧ (p.addEach cs).2.find? c = some i := by
  obtain ⟨hk, rfl⟩ := List.getElem?_eq_some_iff.1 h
  have hk' : k < (p.addEach cs).1.length := by rwa [p.length_addEach]
  exact ⟨_, List.getElem?_eq_getElem hk',
    (List.forall₂_iff_get.1 (p.forall₂_addEach cs)).2 k hk hk'⟩

/-- A constant that was not there before is found as the first of its equals that was added. -/
theorem get?_of_find?_addEach {p : Pool} {c : Constant} (hnew : p.find? c = none)
    {cs : List Constant} {i : Nat} (h : (p.addEach cs).2.find? c = some i) :
    (p.addEach cs).2.get? i = cs.find? (·.equals c) := by
  induction cs generalizing p with
  | nil =>
      rw [addEach, hnew] at h
      cases h
  | cons d cs ih =>
      rw [List.find?_cons]
      cases heq : d.equals c with
      | true =>
          have hindex := find?_addEach (p.find?_add d) cs
          rw [find?_congr _ heq] at hindex
          obtain ⟨hsize, hentries⟩ := add_of_find?_eq_none ((p.find?_congr heq).trans hnew)
          have hlast : (p.add d).2.get? (p.add d).1 = some d := by
            simp [get?, hentries, hsize, size]
          rw [addEach, hindex] at h
          cases h
          exact get?_addEach hlast cs
      | false =>
          refine ih ?_ h
          rw [Option.eq_none_iff_forall_ne_some]
          intro j hj
          obtain ⟨e, he, hec⟩ := (find?_eq_some_iff _ _ _).1 hj
          obtain hold | rfl := mem_add (Array.mem_of_getElem? he)
          · obtain ⟨k, hk⟩ := Array.mem_iff_getElem?.1 hold
            have hfound := (find?_eq_some_iff p c k).2 ⟨e, hk, hec⟩
            rw [hnew] at hfound
            cases hfound
          · rw [heq] at hec
            cases hec

/-! ### Histories -/

/-- What a pool knows of the constants that were added to it, and of the indices which the additions
returned. -/
structure Records (p : Pool) (cs : List Constant) (indices : List Nat) : Prop where
  /-- No two of its constants are equal. -/
  distinct : ∀ {i j c d}, p.get? i = some c → p.get? j = some d → c.equals d = true → i = j
  /-- One more addition returns where a constant equal to the added one is. -/
  entry : ∀ c, ∃ d, (p.add c).2.get? (p.add c).1 = some d ∧ d.equals c = true
  /-- An equal constant gets the same index, whatever is added in between. -/
  again : ∀ {c d : Constant}, c.equals d = true →
    ∀ ds, (((p.add c).2.addEach ds).2.add d).1 = (p.add c).1
  /-- No constant moves. -/
  kept : ∀ {i c}, p.get? i = some c → ∀ ds, (p.addEach ds).2.get? i = some c
  /-- No index changes. -/
  found : ∀ {c i}, p.find? c = some i → ∀ ds, (p.addEach ds).2.find? c = some i
  /-- A constant is found exactly where one is that equals it. -/
  find?_iff : ∀ c i, p.find? c = some i ↔ ∃ d, p.get? i = some d ∧ d.equals c = true
  /-- There is an index for every addition, and only equal constants share one. -/
  same_index : ∀ {j k : Nat} {c d : Constant}, cs[j]? = some c → cs[k]? = some d →
    ∃ i i', indices[j]? = some i ∧ indices[k]? = some i' ∧ (i = i' ↔ c.equals d = true)

/-- Whatever is added to the empty pool, in whatever order, it is recorded faithfully. -/
theorem addEach_records (cs : List Constant) :
    (empty.addEach cs).2.Records cs (empty.addEach cs).1 where
  distinct hc hd heq := index_unique _ hc hd ((Constant.key_eq_iff _ _).2 heq)
  entry c := (find?_eq_some_iff _ _ _).1 (find?_add _ c)
  again {c d} heq ds := by
    have hfound := find?_addEach (find?_add (empty.addEach cs).2 c) ds
    rw [find?_congr _ heq] at hfound
    rw [add_of_find? hfound]
  kept := get?_addEach
  found := find?_addEach
  find?_iff := find?_eq_some_iff _
  same_index {j k c d} hj hk := by
    obtain ⟨i, hi, hfound⟩ := exists_getElem?_addEach empty hj
    obtain ⟨i', hi', hfound'⟩ := exists_getElem?_addEach empty hk
    refine ⟨i, i', hi, hi', fun heq => ?_, fun heq => ?_⟩
    · obtain ⟨e, he, hec⟩ := (find?_eq_some_iff _ _ _).1 hfound
      obtain ⟨e', he', hed⟩ := (find?_eq_some_iff _ _ _).1 hfound'
      rw [heq, he'] at he
      cases he
      rw [← Constant.key_eq_iff] at hec hed ⊢
      exact hec.symm.trans hed
    · rw [find?_congr _ heq, hfound'] at hfound
      exact (Option.some.inj hfound).symm

/-! ### The order of new indices -/

theorem lt_size_of_find? {p : Pool} {c : Constant} {i : Nat} (h : p.find? c = some i) :
    i < p.size := by
  obtain ⟨d, hd, -⟩ := (find?_eq_some_iff _ _ _).1 h
  exact (Array.getElem?_eq_some_iff.1 hd).1

/-- If all indices have been given out in order, the next addition returns one of them or the next
one. -/
theorem eraseDups_add (p : Pool) (c : Constant) {given : List Nat}
    (h : given.eraseDups = List.range p.size) :
    (given ++ [(p.add c).1]).eraseDups = List.range (p.add c).2.size := by
  have hmem : ∀ i, i ∈ given ↔ i < p.size := by
    intro i
    rw [← List.mem_eraseDups, h, List.mem_range]
  rw [List.eraseDups_append, h]
  cases hfind : p.find? c with
  | some i =>
      have hi : i ∈ given := (hmem i).2 (lt_size_of_find? hfind)
      simp [add_of_find? hfind, List.removeAll, hi]
  | none =>
      obtain ⟨hindex, hentries⟩ := add_of_find?_eq_none hfind
      have hnew : p.size ∉ given := fun hin => Nat.lt_irrefl _ ((hmem _).1 hin)
      have hsize : (p.add c).2.size = p.size + 1 := by simp [size, hentries]
      simp [hindex, hsize, List.removeAll, hnew, List.range_succ, List.eraseDups_cons]

theorem eraseDups_addEach (p : Pool) (cs : List Constant) {given : List Nat}
    (h : given.eraseDups = List.range p.size) :
    (given ++ (p.addEach cs).1).eraseDups = List.range (p.addEach cs).2.size := by
  induction cs generalizing p given with
  | nil => simpa [addEach] using h
  | cons c cs ih => simpa [addEach] using ih _ (eraseDups_add p c h)

/-- In the order in which they are first returned, the indices are zero, one, two and so on. -/
theorem addEach_eraseDups (cs : List Constant) :
    (empty.addEach cs).1.eraseDups = List.range (empty.addEach cs).2.size := by
  have hnone : ([] : List Nat).eraseDups = List.range empty.size := by simp [size, empty]
  exact eraseDups_addEach empty cs hnone

end Pool

end StackCompiler
