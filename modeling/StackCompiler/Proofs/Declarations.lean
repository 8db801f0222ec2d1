import Mathlib.Data.List.Basic
import Mathlib.Data.List.Induction
import StackCompiler.Signature

/-!
The signature table after any sequence of declarations. A function is known by the hash of its name,
and names themselves are never compared. So the table says of a name what was declared first under
the hash of the name, and it is a map from names as far as their hashes tell them apart.
-/

namespace StackCompiler

/-! ### The hash by positions -/

namespace NameHash

def laneAt (bytes : List UInt8) (position : Nat) : UInt64 :=
  littleEndian ((bytes.drop position).take 8)

/-- An accumulator after it was fed with the lanes at one offset of all full stripes. -/
def accumulate (bytes : List UInt8) (offset : Nat) (start : UInt64) : UInt64 :=
  (List.range (bytes.length / 32)).foldl
    (fun acc i => round acc (laneAt bytes (32 * i + offset))) start

/-- The hash XXH64 with a seed: four accumulators over stripes of 32 bytes, then the lanes and bytes
that are left, each found by its position. -/
def xxh64 (seed : UInt64) (bytes : List UInt8) : UInt64 :=
  let length := bytes.length
  let stripes : Stripes := {
    a := accumulate bytes 0 (seed + prime1 + prime2)
    b := accumulate bytes 8 (seed + prime2)
    c := accumulate bytes 16 seed
    d := accumulate bytes 24 (seed - prime1) }
  let start := if length < 32 then seed + prime5 else stripes.hash
  let left := (List.range (length % 32 / 8)).map fun i => laneAt bytes (32 * (length / 32) + 8 * i)
  avalanche (mixTail (left.foldl mixLane (start + .ofNat length)) (bytes.drop (8 * (length / 8))))

theorem lanes_eq (bytes : List UInt8) :
    lanes bytes = ((List.range (bytes.length / 8)).map fun i => laneAt bytes (8 * i),
      bytes.drop (8 * (bytes.length / 8))) := by
  fun_induction lanes bytes with
  | case1 a b c d e f g h more words rest heq ih =>
      have hlength : (more.length + 8) / 8 = more.length / 8 + 1 := by omega
      rw [heq] at ih
      cases ih
      simp only [List.length_cons, Nat.add_assoc, Nat.reduceAdd, hlength, List.range_succ_eq_map,
        List.map_cons, List.map_map, Nat.mul_add, Prod.mk.injEq]
      exact ⟨rfl, rfl⟩
  | case2 rest hshort =>
      have hlength : rest.length < 8 := by
        rcases rest with
          _ | ⟨a, _ | ⟨b, _ | ⟨c, _ | ⟨d, _ | ⟨e, _ | ⟨f, _ | ⟨g, _ | ⟨h, more⟩⟩⟩⟩⟩⟩⟩⟩
        case cons.cons.cons.cons.cons.cons.cons.cons =>
          exact absurd rfl (hshort a b c d e f g h more)
        all_goals simp
      simp [Nat.div_eq_of_lt hlength]

/-- An accumulator after it took every fourth lane, beginning with lane `j`. -/
def fedFrom (words : List UInt64) (j : Nat) (start : UInt64) : UInt64 :=
  (List.range (words.length / 4)).foldl (fun acc i => round acc (words.getD (4 * i + j) 0)) start

theorem fedFrom_cons (a b c d : UInt64) (more : List UInt64) (j : Nat) (start : UInt64) :
    fedFrom (a :: b :: c :: d :: more) j start =
      fedFrom more j (round start ((a :: b :: c :: d :: more).getD j 0)) := by
  have hlength : (more.length + 4) / 4 = more.length / 4 + 1 := by omega
  have hindex : ∀ i, (a :: b :: c :: d :: more).getD (4 * (i + 1) + j) 0 =
      more.getD (4 * i + j) 0 := by
    intro i
    rw [show 4 * (i + 1) + j = 4 * i + j + 1 + 1 + 1 + 1 by omega]
    rfl
  simp only [fedFrom, List.length_cons, Nat.add_assoc, Nat.reduceAdd, hlength,
    List.range_succ_eq_map, List.foldl_cons, List.foldl_map, Nat.succ_eq_add_one, hindex,
    Nat.mul_zero, Nat.zero_add]

theorem feed_eq (s : Stripes) (words : List UInt64) :
    s.feed words = (⟨fedFrom words 0 s.a, fedFrom words 1 s.b, fedFrom words 2 s.c,
      fedFrom words 3 s.d⟩, words.drop (4 * (words.length / 4))) := by
  fun_induction Stripes.feed s words with
  | case1 s a b c d more ih =>
      have hlength : (more.length + 4) / 4 = more.length / 4 + 1 := by omega
      rw [ih]
      simp only [fedFrom_cons, List.length_cons, Nat.add_assoc, Nat.reduceAdd, hlength, Nat.mul_add]
      rfl
  | case2 s rest hshort =>
      have hlength : rest.length < 4 := by
        rcases rest with _ | ⟨a, _ | ⟨b, _ | ⟨c, _ | ⟨d, more⟩⟩⟩⟩
        case cons.cons.cons.cons => exact absurd rfl (hshort a b c d more)
        all_goals simp
      simp [fedFrom, Nat.div_eq_of_lt hlength]

theorem fedFrom_lanes (bytes : List UInt8) {j : Nat} (hj : j < 4) (start : UInt64) :
    fedFrom ((List.range (bytes.length / 8)).map fun i => laneAt bytes (8 * i)) j start =
      accumulate bytes (8 * j) start := by
  unfold fedFrom accumulate
  rw [List.length_map, List.length_range, Nat.div_div_eq_div_mul]
  refine List.foldl_ext _ _ _ fun acc i hi => ?_
  have hlt : 4 * i + j < bytes.length / 8 := by
    have := List.mem_range.1 hi
    omega
  rw [List.getD_eq_getElem?_getD, List.getElem?_map, List.getElem?_range hlt]
  show round acc (laneAt bytes (8 * (4 * i + j))) = _
  congr 2
  omega

theorem drop_lanes (bytes : List UInt8) :
    ((List.range (bytes.length / 8)).map fun i => laneAt bytes (8 * i)).drop
        (4 * (bytes.length / 32)) =
      (List.range (bytes.length % 32 / 8)).map fun i =>
        laneAt bytes (32 * (bytes.length / 32) + 8 * i) := by
  refine List.ext_getElem (by simp; omega) fun i hi hi' => ?_
  simp only [List.getElem_drop, List.getElem_map, List.getElem_range]
  congr 1
  omega

/-- Feeding lanes one after the other comes to the hash that finds them by position. -/
theorem ofBytes_eq (bytes : List UInt8) : ofBytes bytes = xxh64 0 bytes := by
  unfold ofBytes xxh64
  rw [lanes_eq]
  dsimp only
  rw [feed_eq]
  dsimp only
  have hfed : ∀ j < 4, ∀ start,
      fedFrom ((List.range (bytes.length / 8)).map fun i => laneAt bytes (8 * i)) j start =
        accumulate bytes (8 * j) start := fun j hj => fedFrom_lanes bytes hj
  rw [List.length_map, List.length_range, Nat.div_div_eq_div_mul, drop_lanes]
  rw [hfed 0 (by decide), hfed 1 (by decide), hfed 2 (by decide), hfed 3 (by decide)]
  rfl

end NameHash

/-! ### Histories of declarations -/

namespace SignatureTable

/-- The table after declarations in order. One that is refused changes nothing. -/
def declareEach (t : SignatureTable) : List (String × Flags) → SignatureTable
  | [] => t
  | (name, flags) :: rest =>
    match t.declare name flags with
    | .ok t' => t'.declareEach rest
    | .error _ => t.declareEach rest

/-- The declarations among those made in order that are not refused. -/
def accepted (t : SignatureTable) : List (String × Flags) → List (String × Flags)
  | [] => []
  | (name, flags) :: rest =>
    match t.declare name flags with
    | .ok t' => (name, flags) :: t'.accepted rest
    | .error _ => t.accepted rest

theorem accepted_subset (t : SignatureTable) (history : List (String × Flags)) :
    t.accepted history ⊆ history := by
  fun_induction accepted t history with
  | case1 => exact List.Subset.refl _
  | case2 t name flags rest t' _ ih => exact List.cons_subset_cons _ ih
  | case3 t name flags rest _ _ ih => exact List.Subset.trans ih (List.subset_cons_self _ _)

/-- A declaration puts the name under its hash, where nothing was before. -/
theorem declare_ok {t t' : SignatureTable} {name : String} {flags : Flags}
    (h : t.declare name flags = .ok t') :
    ∃ convention, flags.convention? = some convention ∧ t.get? name = none ∧
      t'.entries = (NameHash.ofName name, ⟨name, convention⟩) :: t.entries := by
  unfold declare at h
  cases hflags : flags.convention? with
  | none =>
      rw [hflags] at h
      cases h
  | some convention =>
      rw [hflags] at h
      dsimp only at h
      by_cases htaken : t.contains name = true
      · rw [if_pos htaken] at h
        cases h
      · rw [if_neg htaken] at h
        cases h
        exact ⟨convention, rfl, by simpa [contains] using htaken, rfl⟩

theorem get?_of_entries {t t' : SignatureTable} {hash : NameHash} {sig : Signature}
    (h : t'.entries = (hash, sig) :: t.entries) (name : String) :
    t'.get? name = if NameHash.ofName name = hash then some sig else t.get? name := by
  unfold get?
  rw [h, List.lookup_cons]
  generalize NameHash.ofName name = key
  by_cases hkey : key = hash
  · simp [hkey]
  · rw [if_neg hkey, beq_eq_false_iff_ne.2 hkey]

/-- A name that is not taken is refused only if the marks contradict each other. -/
theorem declare_duplicate_iff {t : SignatureTable} {name : String} {flags : Flags} :
    t.declare name flags = .error (.duplicateFunction name) ↔
      flags.convention?.isSome ∧ (t.get? name).isSome := by
  unfold declare contains
  cases flags.convention? with
  | none => simp
  | some convention => cases t.get? name <;> simp

theorem get?_congr {t : SignatureTable} {name other : String}
    (h : NameHash.ofName name = NameHash.ofName other) : t.get? name = t.get? other := by
  simp only [get?, h]

/-- What is known of a name was known before, or was accepted under the same hash. -/
theorem get?_declareEach {t : SignatureTable} {history : List (String × Flags)} {name : String}
    {sig : Signature} :
    (t.declareEach history).get? name = some sig ↔ t.get? name = some sig ∨
      ∃ flags, (sig.name, flags) ∈ t.accepted history ∧
        flags.convention? = some sig.convention ∧
        NameHash.ofName sig.name = NameHash.ofName name := by
  fun_induction declareEach t history with
  | case1 t => simp [accepted]
  | case2 t first marks rest t' hdeclare ih =>
      obtain ⟨convention, hmarks, hfree, hentries⟩ := declare_ok hdeclare
      simp only [accepted, hdeclare, ih, get?_of_entries hentries, List.mem_cons, Prod.mk.injEq]
      by_cases hname : NameHash.ofName name = NameHash.ofName first
      · have hnone : t.get? name = none := (get?_congr hname).trans hfree
        constructor
        · rintro (h | ⟨flags, hmem, hflags, hhash⟩)
          · rw [if_pos hname] at h
            cases h
            exact .inr ⟨marks, .inl ⟨rfl, rfl⟩, hmarks, hname.symm⟩
          · exact .inr ⟨flags, .inr hmem, hflags, hhash⟩
        · rintro (h | ⟨flags, ⟨hfirst, rfl⟩ | hmem, hflags, hhash⟩)
          · rw [hnone] at h
            cases h
          · rw [hmarks] at hflags
            cases hflags
            rw [if_pos hname, ← hfirst]
            exact .inl rfl
          · exact .inr ⟨flags, hmem, hflags, hhash⟩
      · rw [if_neg hname]
        constructor
        · rintro (h | ⟨flags, hmem, hflags, hhash⟩)
          · exact .inl h
          · exact .inr ⟨flags, .inr hmem, hflags, hhash⟩
        · rintro (h | ⟨flags, ⟨hfirst, rfl⟩ | hmem, hflags, hhash⟩)
          · exact .inl h
          · rw [hfirst] at hhash
            exact absurd hhash.symm hname
          · exact .inr ⟨flags, hmem, hflags, hhash⟩
  | case3 t first marks rest e hdeclare ih => rw [ih, accepted, hdeclare]

/-- Declarations are accepted only with marks that ask for a convention. -/
theorem convention?_of_accepted {t : SignatureTable} {history : List (String × Flags)}
    {d : String × Flags} (h : d ∈ t.accepted history) : ∃ c, d.2.convention? = some c := by
  fun_induction accepted t history with
  | case1 => cases h
  | case2 t name flags rest t' hdeclare ih =>
      obtain ⟨convention, hflags, -⟩ := declare_ok hdeclare
      obtain rfl | h := List.mem_cons.1 h
      · exact ⟨convention, hflags⟩
      · exact ih h
  | case3 t name flags rest e hdeclare ih => exact ih h

/-- After any declarations the table has for a name the signature that was accepted under the hash
of the name, and it refuses a name as a duplicate exactly if one was. Names whose hashes differ from
those of all others are told apart. -/
theorem declareEach_spec (history : List (String × Flags)) (name : String) :
    let t := empty.declareEach history
    (∀ sig, t.get? name = some sig ↔ ∃ flags, (sig.name, flags) ∈ empty.accepted history ∧
      flags.convention? = some sig.convention ∧
      NameHash.ofName sig.name = NameHash.ofName name) ∧
    (∀ flags, t.declare name flags = .error (.duplicateFunction name) ↔
      flags.convention?.isSome ∧
        ∃ d ∈ empty.accepted history, NameHash.ofName d.1 = NameHash.ofName name) ∧
    (NameHash.ofName name).value =
      NameHash.xxh64 0 name.toUTF8.data.toList ^^^ NameHash.functionMark ∧
    ((∀ d ∈ history, NameHash.ofName d.1 = NameHash.ofName name → d.1 = name) →
      (∀ sig, t.get? name = some sig ↔ sig.name = name ∧
        ∃ flags, (name, flags) ∈ empty.accepted history ∧
          flags.convention? = some sig.convention) ∧
      ∀ flags, t.declare name flags = .error (.duplicateFunction name) ↔
        flags.convention?.isSome ∧ ∃ d ∈ empty.accepted history, d.1 = name) := by
  intro t
  have hget : ∀ sig, t.get? name = some sig ↔ ∃ flags,
      (sig.name, flags) ∈ empty.accepted history ∧ flags.convention? = some sig.convention ∧
        NameHash.ofName sig.name = NameHash.ofName name := by
    intro sig
    rw [get?_declareEach]
    simp [get?, empty]
  have hduplicate : ∀ flags, t.declare name flags = .error (.duplicateFunction name) ↔
      flags.convention?.isSome ∧
        ∃ d ∈ empty.accepted history, NameHash.ofName d.1 = NameHash.ofName name := by
    intro flags
    rw [declare_duplicate_iff, Option.isSome_iff_exists (x := t.get? name)]
    refine and_congr_right fun _ => ⟨?_, ?_⟩
    · rintro ⟨sig, hsig⟩
      obtain ⟨marks, hmem, -, hhash⟩ := (hget sig).1 hsig
      exact ⟨_, hmem, hhash⟩
    · rintro ⟨⟨other, marks⟩, hmem, hhash⟩
      obtain ⟨convention, hmarks⟩ := convention?_of_accepted hmem
      exact ⟨⟨other, convention⟩, (hget _).2 ⟨marks, hmem, hmarks, hhash⟩⟩
  refine ⟨hget, hduplicate, ?_, fun hdistinct => ?_⟩
  · rw [← NameHash.ofBytes_eq]
    exact UInt64.xor_comm _ _
  · -- an accepted name with the hash of `name` is `name` itself
    have hsame : ∀ d ∈ empty.accepted history,
        NameHash.ofName d.1 = NameHash.ofName name ↔ d.1 = name := fun d hd =>
      ⟨hdistinct d (accepted_subset _ _ hd), fun h => by rw [h]⟩
    constructor
    · intro sig
      rw [hget]
      constructor
      · rintro ⟨flags, hmem, hflags, hhash⟩
        obtain rfl : sig.name = name := (hsame _ hmem).1 hhash
        exact ⟨rfl, flags, hmem, hflags⟩
      · rintro ⟨rfl, flags, hmem, hflags⟩
        exact ⟨flags, hmem, hflags, rfl⟩
    · intro flags
      rw [hduplicate]
      refine and_congr_right fun _ => exists_congr fun d => ?_
      exact and_congr_right fun hmem => hsame d hmem

def sampleHistory : List (String × Flags) :=
  [("main.add", {}), ("main.log", { void := true }), ("main.add", { never := true })]

theorem declareEach_spec_sampleHistory :
    (∀ d ∈ sampleHistory, NameHash.ofName d.1 = NameHash.ofName "main.add" → d.1 = "main.add") ∧
      (empty.declareEach sampleHistory).get? "main.add" = some ⟨"main.add", .value⟩ ∧
      (empty.declareEach sampleHistory).declare "main.add" { void := true } =
        .error (.duplicateFunction "main.add") := by
  have hdistinct : ∀ d ∈ sampleHistory,
      NameHash.ofName d.1 = NameHash.ofName "main.add" → d.1 = "main.add" := by decide +kernel
  have haccepted : ("main.add", {}) ∈ empty.accepted sampleHistory := by decide +kernel
  obtain ⟨hget, hduplicate⟩ := (declareEach_spec sampleHistory "main.add").2.2.2 hdistinct
  exact ⟨hdistinct, (hget _).2 ⟨rfl, {}, haccepted, rfl⟩, (hduplicate _).2 ⟨rfl, _, haccepted, rfl⟩⟩

/-- Two names may have the same hash. Then a name that was never declared has the signature of the
other one and cannot be declared. -/
theorem declare_confuses_names :
    ∃ t, empty.declare "main.addnodfonvg" { void := true } = .ok t ∧
      t.get? "main.getpcjrzved" = some ⟨"main.addnodfonvg", .void⟩ ∧
      t.declare "main.getpcjrzved" {} = .error (.duplicateFunction "main.getpcjrzved") ∧
      "main.getpcjrzved" ≠ "main.addnodfonvg" := by
  have hhash : NameHash.ofName "main.getpcjrzved" = NameHash.ofName "main.addnodfonvg" := by
    decide +kernel
  have hget : ∀ t, empty.declare "main.addnodfonvg" { void := true } = .ok t →
      t.get? "main.getpcjrzved" = some ⟨"main.addnodfonvg", .void⟩ := by
    intro t ht
    obtain ⟨convention, hflags, -, hentries⟩ := declare_ok ht
    cases hflags
    rw [get?_of_entries hentries, if_pos hhash]
  refine ⟨_, rfl, hget _ rfl, declare_duplicate_iff.2 ⟨rfl, ?_⟩, by decide⟩
  rw [hget _ rfl]
  rfl

end SignatureTable

end StackCompiler
