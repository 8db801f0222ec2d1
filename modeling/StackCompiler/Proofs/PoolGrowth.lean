import Mathlib.Data.List.Nodup
import Mathlib.Data.List.Perm.Subperm
import StackCompiler.Proofs.PoolHistory

/-!
Room in pools. Instructions can refer only to the first constants of a pool, so that code which adds
constants has to stay within a bound. `Pool.Grows` is what such code does to a pool. Of two pools
that grow from one, the one that holds nothing of its own stays within the bound if the other does;
`Pool.Within.size_le` counts how much more there can be if it holds some symbols of its own.
-/

namespace StackCompiler.Pool

variable {p q r : Pool} {c : Constant}

/-! ### Counting -/

/-- Different constants stand at different places. -/
theorem length_le_of_found {cs : List Constant} {n : Nat}
    (hdistinct : (cs.map Constant.key).Nodup) (hfound : ∀ c ∈ cs, ∃ i < n, p.find? c = some i) :
    cs.length ≤ n := by
  have hinj : ∀ c ∈ cs, ∀ d ∈ cs, p.find? c = p.find? d → c = d := by
    intro c hc d hd heq
    obtain ⟨i, -, hi⟩ := hfound c hc
    obtain ⟨e, he, hec⟩ := (find?_eq_some_iff _ _ _).1 hi
    obtain ⟨e', he', hed⟩ := (find?_eq_some_iff _ _ _).1 (heq.symm.trans hi)
    rw [he] at he'
    cases he'
    rw [← Constant.key_eq_iff] at hec hed
    exact List.inj_on_of_nodup_map hdistinct hc hd (hec.symm.trans hed)
  have hnodup : (cs.map p.find?).Nodup := List.Nodup.map_on hinj (.of_map _ hdistinct)
  have hsub : cs.map p.find? ⊆ (List.range n).map some := by
    intro o ho
    obtain ⟨c, hc, rfl⟩ := List.mem_map.1 ho
    obtain ⟨i, hlt, hi⟩ := hfound c hc
    rw [hi]
    exact List.mem_map_of_mem (List.mem_range.2 hlt)
  simpa using (List.subperm_of_subset hnodup hsub).length_le

theorem nodup_keys (p : Pool) : (p.entries.toList.map Constant.key).Nodup := by
  rw [List.nodup_iff_injective_getElem]
  intro i j hij
  simp only [List.getElem_map, Array.getElem_toList] at hij
  refine Fin.ext (p.index_unique ?_ ?_ hij) <;> exact Array.getElem?_eq_getElem _

/-- A pool has no more constants than one in which all of them are found. -/
theorem size_le_of_found (h : ∀ c i, q.find? c = some i → ∃ j, p.find? c = some j) :
    q.size ≤ p.size := by
  have hlength := length_le_of_found (p := p) (n := p.size) q.nodup_keys fun c hc => ?_
  · simpa [size] using hlength
  · obtain ⟨i, hi⟩ := Array.mem_iff_getElem?.1 (Array.mem_toList_iff.1 hc)
    obtain ⟨j, hj⟩ := h c i ((q.agree c.key i).2 ⟨c, hi, rfl⟩)
    exact ⟨j, lt_size_of_find? hj, hj⟩

/-- What is found after an addition was there before or equals the added constant. -/
theorem find?_of_find?_add {d : Constant} {i : Nat} (h : (p.add c).2.find? d = some i) :
    (∃ k, p.find? d = some k) ∨ c.equals d = true := by
  obtain ⟨e, he, hed⟩ := (find?_eq_some_iff _ _ _).1 h
  obtain hold | rfl := mem_add (Array.mem_of_getElem? he)
  · obtain ⟨k, hk⟩ := Array.mem_iff_getElem?.1 hold
    exact .inl ⟨k, (find?_eq_some_iff _ _ _).2 ⟨e, hk, hed⟩⟩
  · exact .inr hed

/-! ### Pools that grow -/

/-- How many constants instructions can refer to. -/
def room : Nat :=
  Resource.limit .constantPool + 1

structure Grows (p q : Pool) : Prop where
  found : ∀ {c i}, p.find? c = some i → q.find? c = some i
  size : q = p ∨ q.size ≤ room

namespace Grows

theorem refl (p : Pool) : p.Grows p :=
  ⟨id, .inl rfl⟩

theorem trans (h₁ : p.Grows q) (h₂ : q.Grows r) : p.Grows r where
  found h := h₂.found (h₁.found h)
  size := by
    obtain rfl | hsize := h₂.size
    · exact h₁.size
    · exact .inr hsize

theorem add (h : (p.add c).1 < room) : p.Grows (p.add c).2 where
  found hfind := find?_addEach hfind [c]
  size := by
    cases hfind : p.find? c with
    | some i => exact .inl (by rw [add_of_find? hfind])
    | none =>
        obtain ⟨hindex, hentries⟩ := add_of_find?_eq_none hfind
        rw [hindex] at h
        refine .inr ?_
        rw [Pool.size, hentries, Array.size_push]
        exact h

/-- A constant that is new is in reach. -/
theorem lt_room (h : p.Grows q) {i : Nat} (hq : q.find? c = some i) (hp : p.find? c = none) :
    i < room := by
  obtain rfl | hsize := h.size
  · rw [hp] at hq
    cases hq
  · exact Nat.lt_of_lt_of_le (lt_size_of_find? hq) hsize

/-- Of two pools that have grown from one, the second has room for a constant if the first has,
unless the constant is new and the second is full. -/
theorem lt_room_or_full (hp : r.Grows p) (hq : r.Grows q)
    (hroom : (p.add c).1 < room) : (q.add c).1 < room ∨ q.find? c = none ∧ room ≤ q.size := by
  cases hfind : q.find? c with
  | some i =>
      left
      rw [add_of_find? hfind]
      cases hold : r.find? c with
      | none => exact hq.lt_room hfind hold
      | some k =>
          rw [add_of_find? (hp.found hold)] at hroom
          rwa [← Option.some.inj ((hq.found hold).symm.trans hfind)]
  | none =>
      rw [(add_of_find?_eq_none hfind).1]
      exact (Nat.lt_or_ge q.size room).imp_right fun hfull => ⟨rfl, hfull⟩

end Grows

/-- Everything in reach is taken by other constants. -/
structure Lacks (p : Pool) (c : Constant) : Prop where
  full : room ≤ p.size
  beyond : ∀ i, p.find? c = some i → room ≤ i

/-- A constant that is out of reach stays so. -/
theorem Grows.lacks (h : p.Grows q) (hc : room ≤ (p.add c).1) : q.Lacks c := by
  have hkept : ∀ d i, p.find? d = some i → ∃ j, q.find? d = some j := fun d i hi => ⟨i, h.found hi⟩
  cases hfind : p.find? c with
  | some i =>
      rw [add_of_find? hfind] at hc
      have hfound := h.found hfind
      refine ⟨Nat.le_trans hc (Nat.le_of_lt (lt_size_of_find? hfound)), fun j hj => ?_⟩
      rw [hfound] at hj
      cases hj
      exact hc
  | none =>
      obtain ⟨hindex, hentries⟩ := add_of_find?_eq_none hfind
      rw [hindex] at hc
      refine ⟨Nat.le_trans hc (size_le_of_found hkept), fun j hj => ?_⟩
      obtain rfl | hsize := h.size
      · rw [hfind] at hj
        cases hj
      · -- with this constant the pool would have more than there is room for
        have hmore : (p.add c).2.size ≤ q.size := by
          refine size_le_of_found fun d i hi => ?_
          rcases find?_of_find?_add hi with ⟨k, hk⟩ | hcd
          · exact hkept d k hk
          · exact ⟨j, by rw [← find?_congr q hcd, hj]⟩
        rw [Pool.size, hentries, Array.size_push] at hmore
        exact absurd (Nat.le_trans hmore hsize) (Nat.not_le_of_lt (Nat.lt_succ_of_le hc))

/-! ### Pools beside each other -/

/-- The constants of `q` are found in `p`, or they are symbols among `extra`. -/
def Within (extra : List String) (q p : Pool) : Prop :=
  ∀ c i, q.find? c = some i → (∃ j, p.find? c = some j) ∨ ∃ name ∈ extra, c = .symbol name

namespace Within

variable {extra : List String}

theorem refl (p : Pool) : Within extra p p :=
  fun _ i hi => .inl ⟨i, hi⟩

theorem mono (h : Within extra q p) (hp : p.Grows r) : Within extra q r :=
  fun c i hi => (h c i hi).imp_left (Exists.imp fun _ => hp.found)

/-- A constant is added that is in `p` or one of the symbols. -/
theorem add (h : Within extra q p)
    (hc : (∃ j, p.find? c = some j) ∨ ∃ name ∈ extra, c = .symbol name) :
    Within extra (q.add c).2 p := by
  intro d i hi
  rcases find?_of_find?_add hi with ⟨k, hk⟩ | hcd
  · exact h d k hk
  · rcases hc with ⟨j, hj⟩ | ⟨name, hname, rfl⟩
    · exact .inl ⟨j, by rw [← find?_congr p hcd, hj]⟩
    · refine .inr ⟨name, hname, Constant.eq_of_equals_symbol ?_⟩
      rw [← Constant.key_eq_iff] at hcd ⊢
      exact hcd.symm

/-- There are no more constants than in the other pool with the symbols added. -/
theorem size_le (h : Within extra q p) :
    q.size ≤ (p.addEach (extra.map .symbol)).2.size := by
  refine size_le_of_found fun c i hi => ?_
  rcases h c i hi with ⟨j, hj⟩ | ⟨name, hname, rfl⟩
  · exact ⟨j, find?_addEach hj _⟩
  · obtain ⟨k, hk⟩ := List.getElem?_of_mem (List.mem_map_of_mem (f := Constant.symbol) hname)
    obtain ⟨j, -, hj⟩ := exists_getElem?_addEach p hk
    exact ⟨j, hj⟩

/-- A pool that has become too large with one more symbol was full before, and without it. -/
theorem lacks {name : String} (h : Within [name] q p) (hq : room < q.size) (hp : p.size ≤ room) :
    p.Lacks (.symbol name) := by
  have hle : q.size ≤ (p.add (.symbol name)).2.size := h.size_le
  cases hfind : p.find? (.symbol name) with
  | some i =>
      rw [add_of_find? hfind] at hle
      exact absurd (Nat.le_trans hle hp) (Nat.not_le_of_lt hq)
  | none =>
      have hsize : (p.add (.symbol name)).2.size = p.size + 1 := by
        rw [size, (add_of_find?_eq_none hfind).2, Array.size_push]
        rfl
      rw [hsize] at hle
      refine ⟨Nat.le_of_lt_succ (Nat.lt_of_lt_of_le hq hle), fun i hi => ?_⟩
      rw [hfind] at hi
      cases hi

end Within

end StackCompiler.Pool
