import Mathlib.Data.List.Forall2
import StackCompiler.Proofs.Growth
import StackCompiler.Proofs.PoolHistory

/-!
How finished code uses its constants. Constants get into the pool one by one, each just before the
instruction that refers to it, so that the code is a history of the pool. `pool_operands` reads off
this history that every operand is valid, that no constant is left over, and that constants stand in
the order of their first use.

A literal that is loaded gets the first constant of the code that equals it. For floating point
numbers this may be another one than the literal itself: `float_literals` says when.
-/

namespace StackCompiler

def Instr.loadIndex? : Instr → Option UInt16
  | .constRef n => some n
  | _ => none

/-! ### Code as a history of the pool -/

def pooled (code : Array Instr) : List Instr :=
  code.toList.filter (·.poolIndex?.isSome)

theorem pooled_push (code : Array Instr) (i : Instr) :
    pooled (code.push i) = pooled code ++ if i.poolIndex?.isSome then [i] else [] := by
  unfold pooled
  rw [Array.toList_push, List.filter_append, List.filter_cons, List.filter_nil]

/-- Constants have been added in the order of the references to them, and each reference has become
an instruction with the index that was returned. -/
structure Refers (us : List Reference) (s s' : Assembly) : Prop where
  pool : s'.pool = (s.pool.addEach (us.map Reference.constant)).2
  code : ∃ ns : List UInt16,
    ns.map UInt16.toNat = (s.pool.addEach (us.map Reference.constant)).1 ∧
      pooled s'.code = pooled s.code ++ List.zipWith Reference.instr us ns

namespace Refers

theorem of_eq {s s' : Assembly} (hpool : s'.pool = s.pool)
    (hcode : pooled s'.code = pooled s.code) : Refers [] s s' :=
  ⟨hpool, [], rfl, by simpa using hcode⟩

theorem trans {us vs : List Reference} {s t u : Assembly} (h₁ : Refers us s t)
    (h₂ : Refers vs t u) : Refers (us ++ vs) s u := by
  obtain ⟨hpool₁, ns, hns, hcode₁⟩ := h₁
  obtain ⟨hpool₂, ms, hms, hcode₂⟩ := h₂
  rw [hpool₁] at hpool₂ hms
  have hlength : us.length = ns.length := by
    rw [← List.length_map UInt16.toNat, hns, Pool.length_addEach, List.length_map]
  refine ⟨by rw [List.map_append, Pool.addEach_append, hpool₂], ns ++ ms, ?_, ?_⟩
  · rw [List.map_append, List.map_append, Pool.addEach_append, hns, hms]
  · rw [hcode₂, hcode₁, List.zipWith_append hlength, List.append_assoc]

theorem appends {i : Instr} {s s' : Assembly} (hi : i.poolIndex? = none) (h : Appends i s s') :
    Refers [] s s' :=
  of_eq h.pool (by rw [h.code, pooled_push, hi]; simp)

theorem indexed (u : Reference) {s s' : Assembly} (h : AppendsIndexed u.instr u.constant s s') :
    Refers [u] s s' := by
  obtain ⟨n, hn, happ⟩ := h
  exact ⟨happ.pool, [n], by simp [Pool.addEach, hn], by simp [happ.code, pooled_push]⟩

theorem logs : Logs Refers where
  refl _ := of_eq rfl rfl
  trans := trans
  appends := appends
  discard s n := of_eq rfl (by simp [pooled_push, Instr.poolIndex?])
  indexed := indexed
  forgets h := by
    obtain ⟨slots, rfl, -⟩ := h
    exact of_eq rfl rfl
  relabels h := by
    obtain ⟨slots, old, rest, rfl, -⟩ := h
    exact of_eq rfl rfl
  creates h := by
    obtain ⟨name, -, rfl⟩ := h
    exact of_eq rfl rfl
  places h := by
    obtain ⟨labels, rfl, -⟩ := h
    exact of_eq rfl rfl
  finds _ h := by
    obtain ⟨-, rfl⟩ | ⟨-, -, rfl⟩ := h <;> exact of_eq rfl rfl
  loop h hclose := by
    obtain ⟨c, rest, -, ⟨-, rfl⟩ | ⟨l, -, labels, rfl, -⟩⟩ := hclose <;> exact ⟨h.pool, h.code⟩

end Refers

/-- The constants that the code of a body loads, in the order of the code. -/
def Block.loads (body : Block) : List Constant :=
  listLoads body.withReturn

namespace CompiledFunction

/-- The references of a function's code, with the indices that they got. -/
structure History (f : CompiledFunction) (us : List Reference) (ns : List UInt16) : Prop where
  constants : f.constants = (Pool.empty.addEach (us.map Reference.constant)).2.entries
  indices : ns.map UInt16.toNat = (Pool.empty.addEach (us.map Reference.constant)).1
  code : pooled f.chunk.code = List.zipWith Reference.instr us ns

/-- The code of a body is such a history. -/
theorem exists_history {functions : SignatureTable} {name : String} {params : List String}
    {body : Block} {f : CompiledFunction} (h : ofBlock functions name params body = .ok f) :
    ∃ us ns, f.History us ns ∧ us.filterMap Reference.load? = body.loads := by
  obtain ⟨s, hcode, hfinish⟩ := ofBlock_ok h
  obtain ⟨us, ⟨hpool, ns, hns, hpooled⟩, hloads⟩ := Refers.logs.code hcode
  exact ⟨us, ns, ⟨by rw [hfinish.constants, hpool]; rfl, hns, by rw [hfinish.code, hpooled]; rfl⟩,
    hloads⟩

theorem exists_of_mem_zipWith {P : Reference → UInt16 → Prop} {us : List Reference}
    {ns : List UInt16} (h : List.Forall₂ P us ns) {i : Instr}
    (hi : i ∈ List.zipWith Reference.instr us ns) : ∃ u n, i = u.instr n ∧ P u n := by
  induction h with
  | nil => cases hi
  | cons hun _ ih =>
      rcases List.mem_cons.1 hi with rfl | hi
      · exact ⟨_, _, rfl, hun⟩
      · exact ih hi

namespace History

variable {f : CompiledFunction} {us : List Reference} {ns : List UInt16} (h : f.History us ns)
include h

/-- Every reference has got the index at which its constant is found. -/
theorem forall₂ : List.Forall₂ (fun u n =>
    (Pool.empty.addEach (us.map Reference.constant)).2.find? u.constant = some n.toNat) us ns := by
  have hfound := Pool.empty.forall₂_addEach (us.map Reference.constant)
  rw [← h.indices, List.forall₂_map_left_iff, List.forall₂_map_right_iff] at hfound
  exact hfound

/-- What an instruction refers to that loads nothing is a symbol. -/
theorem exists_symbol {i : Instr} (hi : i ∈ f.chunk.code) {n : UInt16}
    (hindex : i.poolIndex? = some n) (hload : i ≠ .constRef n) :
    ∃ x, f.constants[n.toNat]? = some (.symbol x) := by
  have hpooled : i ∈ pooled f.chunk.code := List.mem_filter.2 ⟨hi.val, by rw [hindex]; rfl⟩
  rw [h.code] at hpooled
  obtain ⟨u, m, rfl, hfound⟩ := exists_of_mem_zipWith h.forall₂ hpooled
  rw [Reference.poolIndex?_instr] at hindex
  cases hindex
  obtain ⟨x, hx⟩ : ∃ x, u.constant = .symbol x := by
    cases u with
    | load c => exact absurd rfl hload
    | read x | write x => exact ⟨x, rfl⟩
  rw [hx] at hfound
  obtain ⟨d, hd, heq⟩ := (Pool.find?_eq_some_iff _ _ _).1 hfound
  rw [Pool.get?, ← h.constants] at hd
  exact ⟨x, by rw [hd, Constant.eq_of_equals_symbol heq]⟩

end History

/-! ### Operands -/

def poolOperands (f : CompiledFunction) : List Nat :=
  (f.chunk.code.toList.filterMap Instr.poolIndex?).map UInt16.toNat

theorem filterMap_poolIndex? {us : List Reference} {ns : List UInt16}
    (h : us.length = ns.length) :
    (List.zipWith Reference.instr us ns).filterMap Instr.poolIndex? = ns := by
  induction us generalizing ns with
  | nil =>
      cases ns with
      | nil => rfl
      | cons n ns => cases h
  | cons u us ih =>
      cases ns with
      | nil => cases h
      | cons n ns =>
          rw [List.zipWith_cons_cons, List.filterMap_cons, Reference.poolIndex?_instr,
            ih (Nat.succ.inj h)]

/-- The operands are the indices that were returned when the constants were added. -/
theorem History.poolOperands {f : CompiledFunction} {us : List Reference} {ns : List UInt16}
    (h : f.History us ns) :
    f.poolOperands = (Pool.empty.addEach (us.map Reference.constant)).1 := by
  have hpooled : f.chunk.code.toList.filterMap Instr.poolIndex? =
      (pooled f.chunk.code).filterMap Instr.poolIndex? := by
    rw [pooled, List.filterMap_filter]
    congr
    funext i
    cases i.poolIndex? <;> rfl
  rw [CompiledFunction.poolOperands, hpooled, h.code, filterMap_poolIndex? h.forall₂.length_eq,
    h.indices]

/-- The operands of finished code are valid, those of variables are symbols, every constant is one
of them, and in the order of their first occurrence they are zero, one, two and so on. -/
theorem pool_operands {functions : SignatureTable} {name : String} {params : List String}
    {body : Block} {f : CompiledFunction} (h : ofBlock functions name params body = .ok f) :
    (∀ n ∈ f.poolOperands, n < f.constants.size) ∧
    (∀ n : UInt16, .varRef n ∈ f.chunk.code ∨ .varSet n ∈ f.chunk.code →
      ∃ x, f.constants[n.toNat]? = some (.symbol x)) ∧
    (∀ i < f.constants.size, i ∈ f.poolOperands) ∧
    f.poolOperands.eraseDups = List.range f.constants.size := by
  obtain ⟨us, ns, hhistory, -⟩ := exists_history h
  have horder : f.poolOperands.eraseDups = List.range f.constants.size := by
    rw [hhistory.poolOperands, hhistory.constants]
    exact Pool.addEach_eraseDups _
  have hmem : ∀ n, n ∈ f.poolOperands ↔ n < f.constants.size := by
    intro n
    rw [← List.mem_eraseDups, horder, List.mem_range]
  refine ⟨fun n hn => (hmem n).1 hn, fun n hn => ?_, fun i hi => (hmem i).2 hi, horder⟩
  rcases hn with hn | hn
  · exact hhistory.exists_symbol hn rfl (by simp)
  · exact hhistory.exists_symbol hn rfl (by simp)

/-- Calls through a dynamic variable that is read twice, and sets another one. -/
def callsTwiceBody : Block :=
  [.rebind "total" (.call "add" [.var "base", .int 1]), .ret [.call "add" [.int 1, .float .one]]]

theorem pool_operands_callsTwiceBody :
    ∃ f, ofBlock .empty "f" [] callsTwiceBody = .ok f ∧ f.constants.size = 5 ∧
      f.poolOperands = [0, 1, 2, 3, 0, 2, 4] ∧ f.poolOperands.eraseDups = List.range 5 := by
  have hcompiled : (ofBlock .empty "f" [] callsTwiceBody).toOption.map
      (fun f => (f.constants.size, f.poolOperands)) = some (5, [0, 1, 2, 3, 0, 2, 4]) := by
    decide +kernel
  cases hcompile : ofBlock .empty "f" [] callsTwiceBody with
  | error e =>
      rw [hcompile] at hcompiled
      cases hcompiled
  | ok f =>
      rw [hcompile] at hcompiled
      obtain ⟨hsize, hoperands⟩ := Prod.mk.inj (Option.some.inj hcompiled)
      have horder := (pool_operands hcompile).2.2.2
      rw [hsize] at horder
      exact ⟨f, rfl, hsize, hoperands, horder⟩

/-! ### Literals -/

def loaded (f : CompiledFunction) : List (Option Constant) :=
  f.chunk.code.toList.filterMap fun i => i.loadIndex?.map fun n => f.constants[n.toNat]?

theorem filterMap_loadIndex? {α : Type} (entry : UInt16 → α) (pick : Constant → α)
    {us : List Reference} {ns : List UInt16}
    (h : List.Forall₂ (fun u n => entry n = pick u.constant) us ns) :
    (List.zipWith Reference.instr us ns).filterMap (fun i => i.loadIndex?.map entry) =
      (us.filterMap Reference.load?).map pick := by
  induction h with
  | nil => rfl
  | @cons u n us ns hun _ ih =>
      cases u with
      | load c => exact congr (congrArg List.cons hun) ih
      | read _ | write _ => exact ih

/-- Every load gets the first constant of the code that equals it. -/
theorem History.loaded {f : CompiledFunction} {us : List Reference} {ns : List UInt16}
    (h : f.History us ns) :
    f.loaded = (us.filterMap Reference.load?).map fun c =>
      (us.map Reference.constant).find? (·.equals c) := by
  have hpooled : f.loaded =
      (pooled f.chunk.code).filterMap fun i => i.loadIndex?.map fun n => f.constants[n.toNat]? := by
    rw [CompiledFunction.loaded, pooled, List.filterMap_filter]
    congr
    funext i
    cases i <;> rfl
  have hentries : List.Forall₂ (fun u (n : UInt16) => f.constants[n.toNat]? =
      (us.map Reference.constant).find? (·.equals u.constant)) us ns := by
    refine h.forall₂.imp fun u n hfound => ?_
    rw [h.constants]
    exact Pool.get?_of_find?_addEach (by simp [Pool.find?, Pool.empty]) hfound
  rw [hpooled, h.code]
  exact filterMap_loadIndex? _ (fun c => (us.map Reference.constant).find? (·.equals c)) hentries

end CompiledFunction

def Block.floats (body : Block) : List Binary64 :=
  body.loads.filterMap Constant.float?

/-- They are the literals that are written in the body. -/
theorem Block.floats_perm (body : Block) :
    body.floats.Perm ((listParts body).filterMap Form.float?) := by
  have hparts : (listParts body.withReturn).filterMap Form.float? =
      (listParts body).filterMap Form.float? := by
    unfold withReturn
    split
    · rfl
    · rw [listParts_append, List.filterMap_append]
      exact List.append_nil _
  rw [← hparts]
  exact floats_perm_list body.withReturn

/-- Only a number equals a number, so that other constants make no difference. -/
theorem find?_equals_float (cs : List Constant) (x : Binary64) :
    cs.find? (·.equals (.float x)) =
      ((cs.filterMap Constant.float?).find? (·.equals x)).map Constant.float := by
  induction cs with
  | nil => rfl
  | cons c cs ih =>
      cases c with
      | float y =>
          have hhead : (Constant.float y).equals (.float x) = y.equals x := rfl
          have hfloats : (Constant.float y :: cs).filterMap Constant.float? =
              y :: cs.filterMap Constant.float? := rfl
          rw [hfloats, List.find?_cons, List.find?_cons, hhead, ih]
          cases y.equals x <;> rfl
      | symbol _ | int _ | str _ =>
          simpa [List.find?_cons, Constant.equals, Constant.float?] using ih

/-- The numbers among the constants that are referred to are those that are loaded. -/
theorem filterMap_float?_constant (us : List Reference) :
    (us.map Reference.constant).filterMap Constant.float? =
      (us.filterMap Reference.load?).filterMap Constant.float? := by
  rw [List.filterMap_map, List.filterMap_filterMap]
  congr
  funext u
  cases u <;> rfl

/-- The first literal that equals `x` has the pattern of `x`, unless it is the other zero. -/
theorem Binary64.first_equal_same {xs : List Binary64} {x y : Binary64}
    (h : xs.find? (·.equals x) = some y) :
    (y = x ∨ y.isNaN = true ∧ x.isNaN = true) ↔
      (x.isZero = true → xs.find? (·.isZero) = some x) := by
  have hequal : y.equals x = true := by simpa using List.find?_some h
  cases hzero : x.isZero with
  | false =>
      rcases (equals_iff y x).1 hequal with rfl | hnan | ⟨-, hx⟩
      · simp
      · simp [hnan]
      · rw [hzero] at hx
        cases hx
  | true =>
      -- exactly the zeros equal a zero, so both searches stop at the same literal
      have hsame : ∀ z : Binary64, z.equals x = z.isZero := by
        intro z
        rw [Bool.eq_iff_iff, equals_iff]
        constructor
        · rintro (rfl | ⟨-, hx⟩ | ⟨hz, -⟩)
          · exact hzero
          · rw [isNaN_of_isZero hzero] at hx
            cases hx
          · exact hz
        · exact fun hz => .inr (.inr ⟨hz, hzero⟩)
      simp only [hsame] at h
      simp [h, isNaN_of_isZero hzero]

namespace CompiledFunction

/-- Every floating point literal of a body is loaded by an instruction of its own. What it loads has
the bits of the literal, all that is not a number being the same, except where the literal is a zero
and the first zero of the code is the other one. -/
theorem float_literals {functions : SignatureTable} {name : String} {params : List String}
    {body : Block} {f : CompiledFunction} (h : ofBlock functions name params body = .ok f) :
    body.floats.Perm ((listParts body).filterMap Form.float?) ∧
    f.loaded.length = body.loads.length ∧
    ∀ (k : Nat) (x : Binary64), body.loads[k]? = some (.float x) →
      ∃ y, f.loaded[k]? = some (some (.float y)) ∧
        ((y = x ∨ y.isNaN = true ∧ x.isNaN = true) ↔
          (x.isZero = true → body.floats.find? (·.isZero) = some x)) := by
  obtain ⟨us, ns, hhistory, hloads⟩ := exists_history h
  refine ⟨body.floats_perm, by rw [hhistory.loaded, hloads, List.length_map], fun k x hk => ?_⟩
  have hfloats : (us.map Reference.constant).filterMap Constant.float? = body.floats := by
    rw [filterMap_float?_constant, hloads, Block.floats]
  have hmem : x ∈ body.floats :=
    List.mem_filterMap.2 ⟨_, List.mem_of_getElem? hk, rfl⟩
  obtain ⟨y, hy⟩ : ∃ y, body.floats.find? (·.equals x) = some y := by
    refine Option.isSome_iff_exists.1 (List.find?_isSome.2 ⟨x, hmem, ?_⟩)
    exact (Binary64.equals_iff x x).2 (.inl rfl)
  refine ⟨y, ?_, Binary64.first_equal_same hy⟩
  rw [hhistory.loaded, hloads, List.getElem?_map, hk, Option.map_some, find?_equals_float, hfloats,
    hy, Option.map_some]

/-- Two zeros behind another number. -/
def signedZeros : Block :=
  [.ret [.float .one, .float .zero, .float (-.zero)]]

/-- The first zero keeps its sign. -/
theorem float_literals_signedZeros :
    ∃ f, ofBlock .empty "f" [] signedZeros = .ok f ∧ signedZeros.floats = [.one, .zero, -.zero] ∧
      ∃ y, f.loaded[1]? = some (some (.float y)) ∧
        (y = .zero ∨ y.isNaN = true ∧ Binary64.zero.isNaN = true) := by
  have hcompiled : (ofBlock .empty "f" [] signedZeros).toOption.isSome = true := by
    decide +kernel
  cases hcompile : ofBlock .empty "f" [] signedZeros with
  | error e =>
      rw [hcompile] at hcompiled
      cases hcompiled
  | ok f =>
      obtain ⟨-, -, hliterals⟩ := float_literals hcompile
      obtain ⟨y, hy, hsame⟩ := hliterals 1 .zero (by decide +kernel)
      exact ⟨f, rfl, by decide +kernel, y, hy, hsame.2 fun _ => by decide +kernel⟩

/-- The second one does not. -/
theorem loaded_loses_sign :
    ∃ f, ofBlock .empty "f" [] signedZeros = .ok f ∧
      signedZeros.loads[2]? = some (.float (-.zero)) ∧
      f.loaded[2]? = some (some (.float .zero)) ∧
      Binary64.zero ≠ -.zero ∧ Binary64.zero.isNaN = false := by
  have hcompiled : (ofBlock .empty "f" [] signedZeros).toOption.map (·.loaded[2]?) =
      some (some (some (.float .zero))) := by
    decide +kernel
  cases hcompile : ofBlock .empty "f" [] signedZeros with
  | error e =>
      rw [hcompile] at hcompiled
      cases hcompiled
  | ok f =>
      rw [hcompile] at hcompiled
      exact ⟨f, rfl, by decide +kernel, Option.some.inj hcompiled, by decide, by decide +kernel⟩

end CompiledFunction

end StackCompiler
