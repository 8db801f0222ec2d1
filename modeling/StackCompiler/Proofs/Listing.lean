import Std.Data.String.ToNat
import StackCompiler.Proofs.EmissionHistory

/-!
What finished code shows of itself. A listing has one line for each instruction, after the labels
that stand there, so that lines can be told apart by their first character and what they say can be
read off them: `Assembly.finish_listing_inj` shows that two pieces of finished code with the same
listing have the same instructions and the same labels. The search for opcodes takes each of them as
early as it can, and `Chunk.missing?_spec` shows that it misses none by this.
-/

namespace StackCompiler

/-! ### Texts that come apart in one way -/

/-- A list comes apart in one way before the first element of a kind. -/
theorem append_cons_inj_of_forall {α : Type} {P : α → Prop} {l m : List α} {a b : α}
    {l' m' : List α} (hl : ∀ x ∈ l, ¬P x) (hm : ∀ x ∈ m, ¬P x) (ha : P a) (hb : P b)
    (h : l ++ a :: l' = m ++ b :: m') : l = m ∧ a = b ∧ l' = m' := by
  induction l generalizing m with
  | nil =>
      cases m with
      | nil => simpa using h
      | cons y m =>
          obtain ⟨rfl, -⟩ := List.cons.inj h
          exact absurd ha (hm _ List.mem_cons_self)
  | cons x l ih =>
      cases m with
      | nil =>
          obtain ⟨rfl, -⟩ := List.cons.inj h
          exact absurd hb (hl _ List.mem_cons_self)
      | cons y m =>
          obtain ⟨rfl, htail⟩ := List.cons.inj h
          obtain ⟨rfl, hrest⟩ := ih (fun x hx => hl x (List.mem_cons_of_mem _ hx))
            (fun x hx => hm x (List.mem_cons_of_mem _ hx)) htail
          exact ⟨rfl, hrest⟩

/-- A text that ends with its only line break. -/
def IsLine (s : String) : Prop :=
  ∃ body, s.toList = body ++ ['\n'] ∧ '\n' ∉ body

/-- Lines that are joined can be told apart again. -/
theorem join_inj_of_isLine {l m : List String} (hl : ∀ s ∈ l, IsLine s) (hm : ∀ s ∈ m, IsLine s)
    (h : String.join l = String.join m) : l = m := by
  induction l generalizing m with
  | nil =>
      cases m with
      | nil => rfl
      | cons t m =>
          obtain ⟨body, hbody, -⟩ := hm t List.mem_cons_self
          have h := congrArg String.toList h
          simp [hbody] at h
  | cons s l ih =>
      obtain ⟨body, hbody, hfree⟩ := hl s List.mem_cons_self
      cases m with
      | nil =>
          have h := congrArg String.toList h
          simp [hbody] at h
      | cons t m =>
          obtain ⟨body', hbody', hfree'⟩ := hm t List.mem_cons_self
          have h := congrArg String.toList h
          rw [String.join_cons, String.join_cons, String.toList_append, String.toList_append, hbody,
            hbody', List.append_assoc, List.append_assoc] at h
          obtain ⟨rfl, -, h⟩ := append_cons_inj_of_forall (P := (· = '\n'))
            (fun x hx heq => hfree (heq ▸ hx)) (fun x hx heq => hfree' (heq ▸ hx)) rfl rfl h
          rw [String.ext (hbody.trans hbody'.symm),
            ih (fun s hs => hl s (List.mem_cons_of_mem _ hs))
              (fun s hs => hm s (List.mem_cons_of_mem _ hs)) (String.ext h)]

/-- Digits are no other characters. -/
theorem not_mem_repr {c : Char} (hc : c.isDigit = false) (n : Nat) : c ∉ n.repr.toList := by
  intro hmem
  rw [Nat.repr_eq_ofList_toDigits, String.toList_ofList] at hmem
  rw [Nat.isDigit_of_mem_toDigits (by decide) (by decide) hmem] at hc
  cases hc

/-! ### Instructions -/

namespace Opcode

/-- A mnemonic names its instruction and no other. -/
theorem ofMnemonic?_mnemonic (op : Opcode) : ofMnemonic? op.mnemonic = some op := by
  cases op with
  | jump kind => cases kind <;> decide
  | binary i => cases i <;> decide
  | unary i => cases i <;> decide
  | _ => decide

theorem mnemonic_injective : Function.Injective mnemonic := by
  intro op op' h
  have hname := ofMnemonic?_mnemonic op
  rw [h, ofMnemonic?_mnemonic] at hname
  exact (Option.some.inj hname).symm

/-- Mnemonics are words: they have neither blanks nor line breaks. -/
theorem not_mem_mnemonic (op : Opcode) {c : Char} (hc : c = ' ' ∨ c = '\n') :
    c ∉ op.mnemonic.toList := by
  have hwords : ∀ op ∈ all, ' ' ∉ op.mnemonic.toList ∧ '\n' ∉ op.mnemonic.toList := by
    decide +kernel
  have hop : op ∈ all := List.mem_of_find?_eq_some (ofMnemonic?_mnemonic op)
  obtain rfl | rfl := hc
  · exact (hwords op hop).1
  · exact (hwords op hop).2

end Opcode

theorem Label.toList_text (l : Label) : l.text.toList = 'L' :: l.id.repr.toList := by
  show ("L" ++ l.id.repr).toList = _
  rw [String.toList_append]
  rfl

theorem Label.text_injective : Function.Injective Label.text := by
  intro l l' h
  have h := congrArg String.toList h
  rw [Label.toList_text, Label.toList_text, List.cons.injEq, String.toList_inj, Nat.repr_inj] at h
  exact congrArg Label.mk h.2

namespace Instr

variable {i j : Instr}

/-- An instruction is known by its opcode and the text of its operand. -/
theorem eq_of_opcode (hop : i.opcode = j.opcode) (htext : i.operandText? = j.operandText?) :
    i = j := by
  cases i <;> cases j <;>
    simp_all [opcode, operandText?, Nat.repr_inj, UInt16.toNat_inj, UInt8.toNat_inj,
      Label.text_injective.eq_iff]

theorem text_of_some {operand : String} (h : i.operandText? = some operand) :
    i.text = i.opcode.mnemonic ++ " " ++ operand := by
  simp only [text, h]

theorem text_of_none (h : i.operandText? = none) : i.text = i.opcode.mnemonic := by
  simp only [text, h]

theorem toList_text_of_some {operand : String} (h : i.operandText? = some operand) :
    i.text.toList = i.opcode.mnemonic.toList ++ ' ' :: operand.toList := by
  simp [text_of_some h]

/-- What an instruction shows tells which one it is. The blank before the operand is the first one,
and an instruction without a blank has no operand. -/
theorem text_injective : Function.Injective text := by
  intro i j h
  have h := congrArg String.toList h
  have hwords : ∀ op : Opcode, ∀ c ∈ op.mnemonic.toList, ¬c = ' ' :=
    fun op c hc heq => op.not_mem_mnemonic (.inl heq) hc
  cases hi : i.operandText? with
  | some operand =>
      rw [toList_text_of_some hi] at h
      cases hj : j.operandText? with
      | some operand' =>
          rw [toList_text_of_some hj] at h
          obtain ⟨hname, -, hoperand⟩ :=
            append_cons_inj_of_forall (P := (· = ' ')) (hwords _) (hwords _) rfl rfl h
          refine eq_of_opcode (Opcode.mnemonic_injective (String.ext hname)) ?_
          rw [hi, hj, String.ext hoperand]
      | none =>
          rw [text_of_none hj] at h
          exact absurd rfl (hwords j.opcode ' ' (h ▸ by simp))
  | none =>
      rw [text_of_none hi] at h
      cases hj : j.operandText? with
      | some operand' =>
          rw [toList_text_of_some hj] at h
          exact absurd rfl (hwords i.opcode ' ' (h ▸ by simp))
      | none =>
          rw [text_of_none hj] at h
          exact eq_of_opcode (Opcode.mnemonic_injective (String.ext h)) (hi.trans hj.symm)

/-- Operands are digits, after the letter of a label. -/
theorem not_mem_operandText {operand : String} (h : i.operandText? = some operand) :
    '\n' ∉ operand.toList := by
  have hdigits : ∀ n : Nat, '\n' ∉ n.repr.toList := not_mem_repr (by decide)
  cases i with
  | jump kind target =>
      cases h
      rw [Label.toList_text]
      simpa using hdigits target.id
  | ret | arrayRef | arraySet | binary _ | unary _ => cases h
  | _ =>
      cases h
      exact hdigits _

theorem not_mem_text (i : Instr) : '\n' ∉ i.text.toList := by
  have hname : '\n' ∉ i.opcode.mnemonic.toList := i.opcode.not_mem_mnemonic (.inr rfl)
  cases h : i.operandText? with
  | some operand =>
      rw [toList_text_of_some h]
      simpa [hname] using not_mem_operandText h
  | none =>
      rw [text_of_none h]
      exact hname

end Instr

/-! ### Listings -/

namespace Chunk

/-- The lines of instructions from an index on, each after the labels that stand there. The labels
behind the last instruction end them. -/
def linesFrom (labelsAt : Nat → List String) : Nat → List Instr → List String
  | index, [] => labelsAt index
  | index, i :: code => labelsAt index ++ instrLine index i :: linesFrom labelsAt (index + 1) code

theorem listing_eq (c : Chunk) :
    c.listing = String.join (linesFrom c.labelLines 0 c.code.toList) := by
  have hlines : ∀ (code : List Instr) (index : Nat),
      (code.zipIdx index).flatMap (fun p => c.labelLines p.2 ++ [instrLine p.2 p.1]) ++
        c.labelLines (index + code.length) = linesFrom c.labelLines index code := by
    intro code
    induction code with
    | nil => simp [linesFrom]
    | cons i code ih =>
        intro index
        rw [linesFrom, ← ih (index + 1)]
        simp [List.zipIdx_cons, Nat.add_assoc, Nat.add_comm 1]
  have hjoin := hlines c.code.toList 0
  rw [Nat.zero_add, Array.length_toList] at hjoin
  rw [← hjoin, String.join_append]
  rfl

def labelLine (id : Nat) : String :=
  (Label.mk id).text ++ ":\n"

theorem mem_labelLines {c : Chunk} {position : Nat} {line : String} :
    line ∈ c.labelLines position ↔ ∃ id, c.labels[id]? = some position ∧ labelLine id = line := by
  simp only [labelLines, List.mem_filterMap, Prod.exists, List.mem_zipIdx_iff_getElem?,
    Array.getElem?_toList]
  constructor
  · rintro ⟨p, id, hid, hline⟩
    split at hline
    · rename_i heq
      exact ⟨id, heq ▸ hid, Option.some.inj hline⟩
    · cases hline
  · rintro ⟨id, hid, rfl⟩
    exact ⟨position, id, hid, if_pos rfl⟩

theorem toList_labelLine (id : Nat) :
    (labelLine id).toList = 'L' :: id.repr.toList ++ [':'] ++ ['\n'] := by
  rw [labelLine, String.toList_append, Label.toList_text, List.append_assoc]
  rfl

theorem labelLine_injective : Function.Injective labelLine := by
  intro id id' h
  exact Label.mk.inj (Label.text_injective ((String.append_left_inj _).1 h))

theorem isLine_labelLine (id : Nat) : IsLine (labelLine id) := by
  refine ⟨_, toList_labelLine id, ?_⟩
  simpa using not_mem_repr (c := '\n') (by decide) id

theorem toList_instrLine (index : Nat) (i : Instr) : (instrLine index i).toList =
    ' ' :: ' ' :: (Text.decimalPadded 4 index).toList ++ [' ', ' '] ++ i.text.toList ++ ['\n'] := by
  simp only [instrLine, String.toList_append]
  rfl

theorem instrLine_injective (index : Nat) : Function.Injective (instrLine index) := by
  intro i j h
  have h := congrArg String.toList h
  simp only [toList_instrLine, List.append_cancel_left_eq, List.append_cancel_right_eq,
    String.toList_inj] at h
  exact Instr.text_injective h

theorem isLine_instrLine (index : Nat) (i : Instr) : IsLine (instrLine index i) := by
  refine ⟨_, toList_instrLine index i, ?_⟩
  have hindex : '\n' ∉ Nat.toDigits 10 index := by
    have hdigits := not_mem_repr (c := '\n') (by decide) index
    rwa [Nat.repr_eq_ofList_toDigits, String.toList_ofList] at hdigits
  simp [Text.decimalPadded, hindex, i.not_mem_text]

def IsIndented (line : String) : Prop :=
  line.toList.head? = some ' '

theorem isIndented_instrLine (index : Nat) (i : Instr) : IsIndented (instrLine index i) := by
  rw [IsIndented, toList_instrLine]
  rfl

theorem not_isIndented_labelLine (id : Nat) : ¬IsIndented (labelLine id) := by
  rw [IsIndented, toList_labelLine]
  simp

theorem isLine_linesFrom (c : Chunk) {index : Nat} {code : List Instr} :
    ∀ line ∈ linesFrom c.labelLines index code, IsLine line := by
  have hlabels : ∀ position, ∀ line ∈ c.labelLines position, IsLine line := by
    intro position line hline
    obtain ⟨id, -, rfl⟩ := mem_labelLines.1 hline
    exact isLine_labelLine id
  induction code generalizing index with
  | nil => exact hlabels index
  | cons i code ih =>
      simp only [linesFrom, List.mem_append, List.mem_cons]
      rintro line (hline | rfl | hline)
      · exact hlabels index line hline
      · exact isLine_instrLine index i
      · exact ih line hline

/-- The lines tell the instructions and, for each of them and for the end, the labels before it. -/
theorem linesFrom_inj {labels labels' : Nat → List String}
    (hlabels : ∀ position, ∀ line ∈ labels position, ¬IsIndented line)
    (hlabels' : ∀ position, ∀ line ∈ labels' position, ¬IsIndented line)
    {code code' : List Instr} {index : Nat}
    (h : linesFrom labels index code = linesFrom labels' index code') :
    code = code' ∧ ∀ position, index ≤ position → position ≤ index + code.length →
      labels position = labels' position := by
  induction code generalizing code' index with
  | nil =>
      cases code' with
      | nil =>
          refine ⟨rfl, fun position hlow hhigh => ?_⟩
          rw [Nat.le_antisymm hhigh hlow]
          exact h
      | cons j code' =>
          -- the second listing has an instruction where the first has labels only
          refine absurd (isIndented_instrLine index j) (hlabels index _ ?_)
          rw [linesFrom, linesFrom] at h
          simp [h]
  | cons i code ih =>
      cases code' with
      | nil =>
          refine absurd (isIndented_instrLine index i) (hlabels' index _ ?_)
          rw [linesFrom, linesFrom] at h
          simp [← h]
      | cons j code' =>
          obtain ⟨hhere, hinstr, hrest⟩ := append_cons_inj_of_forall (P := IsIndented)
            (hlabels index) (hlabels' index) (isIndented_instrLine index i)
            (isIndented_instrLine index j) h
          obtain ⟨rfl, hbehind⟩ := ih hrest
          refine ⟨by rw [instrLine_injective index hinstr], fun position hlow hhigh => ?_⟩
          rcases hlow.eq_or_lt with rfl | hlt
          · exact hhere
          · refine hbehind position hlt ?_
            rw [List.length_cons] at hhigh
            omega

/-- A listing tells the code if no label stands behind its end. -/
theorem listing_inj {c d : Chunk} (hc : ∀ id p : Nat, c.labels[id]? = some p → p ≤ c.code.size)
    (hd : ∀ id p : Nat, d.labels[id]? = some p → p ≤ d.code.size) (h : c.listing = d.listing) :
    c.code = d.code ∧ c.labels = d.labels := by
  have hindent : ∀ (c : Chunk) position, ∀ line ∈ c.labelLines position, ¬IsIndented line := by
    intro c position line hline
    obtain ⟨id, -, rfl⟩ := mem_labelLines.1 hline
    exact not_isIndented_labelLine id
  rw [listing_eq, listing_eq] at h
  have hlines := join_inj_of_isLine c.isLine_linesFrom d.isLine_linesFrom h
  obtain ⟨hcode, hlabels⟩ := linesFrom_inj (hindent c) (hindent d) hlines
  have hsame : ∀ id p : Nat,
      p ≤ c.code.size → (c.labels[id]? = some p ↔ d.labels[id]? = some p) := by
    intro id p hp
    have hmem : ∀ c : Chunk, c.labels[id]? = some p ↔ labelLine id ∈ c.labelLines p := by
      intro c
      simp [mem_labelLines, labelLine_injective.eq_iff]
    rw [hmem, hmem, hlabels p (Nat.zero_le p) (by simpa using hp)]
  have hcode : c.code = d.code := Array.toList_inj.1 hcode
  refine ⟨hcode, Array.ext_getElem? fun id => Option.ext fun p => ⟨fun hp => ?_, fun hp => ?_⟩⟩
  · exact (hsame id p (hc id p hp)).1 hp
  · exact (hsame id p (hcode ▸ hd id p hp)).2 hp

end Chunk

namespace Assembly

/-- Labels of finished code stand at instructions or at the end. -/
theorem labels_le_of_finish {history : List Request} {chunk : Chunk}
    (h : (afterAll {} history).finish = .ok chunk) {id p : Nat}
    (hp : chunk.labels[id]? = some p) : p ≤ chunk.code.size := by
  unfold finish at h
  split at h
  · cases h
  · split at h
    · cases h
    · rename_i ps hresolve
      cases h
      obtain ⟨-, hplaces⟩ := LabelTable.resolve_ok hresolve
      refine (isBuilt_afterAll history).place_le ⟨id⟩ p ?_
      rw [← hplaces]
      simpa using hp

/-- The listing of finished code loses nothing: whatever was asked for, and whether or not it
succeeded, code with the same listing has the same instructions and the same labels. -/
theorem finish_listing_inj {history history' : List Request} {chunk chunk' : Chunk}
    (h : (afterAll {} history).finish = .ok chunk)
    (h' : (afterAll {} history').finish = .ok chunk') (hlisting : chunk.listing = chunk'.listing) :
    chunk.code = chunk'.code ∧ chunk.labels = chunk'.labels ∧
      ∀ l, chunk.labelPosition? l = chunk'.labelPosition? l := by
  obtain ⟨hcode, hlabels⟩ := Chunk.listing_inj (fun id p => labels_le_of_finish h)
    (fun id p => labels_le_of_finish h') hlisting
  refine ⟨hcode, hlabels, fun l => ?_⟩
  rw [Chunk.labelPosition?, Chunk.labelPosition?, hlabels]

/-- Two labels at the end of the code, of which the second is placed first. Some requests fail: a
label is placed again, and values are dropped that are not there. -/
def twoEnds (depth : Nat) : List Request :=
  List.replicate depth (.param "a") ++
    [.newLabel "first", .newLabel "second", .varRef "a", .jump .ifNil ⟨1⟩, .int 1,
      .discard 9, .jump .always ⟨0⟩, .bindLabel ⟨1⟩, .bindLabel ⟨1⟩, .bindLabel ⟨0⟩]

theorem finish_listing_inj_twoEnds :
    ∃ chunk chunk', (afterAll {} (twoEnds 1)).finish = .ok chunk ∧
      (afterAll {} (twoEnds 2)).finish = .ok chunk' ∧ chunk.maxDepth ≠ chunk'.maxDepth ∧
      chunk.listing = chunk'.listing ∧ chunk.code = chunk'.code ∧ chunk.labels = chunk'.labels ∧
      chunk.labels = #[4, 4] := by
  have hcode : ∀ depth, depth = 1 ∨ depth = 2 → (afterAll {} (twoEnds depth)).finish.toOption =
      some ⟨#[.stackRef 0, .jump .ifNil ⟨1⟩, .constRef 0, .jump .always ⟨0⟩], #[4, 4],
        depth + 1⟩ := by
    rintro depth (rfl | rfl) <;> decide +kernel
  cases hone : (afterAll {} (twoEnds 1)).finish with
  | error e => simpa [hone, Except.toOption] using hcode 1 (.inl rfl)
  | ok chunk =>
      cases htwo : (afterAll {} (twoEnds 2)).finish with
      | error e => simpa [htwo, Except.toOption] using hcode 2 (.inr rfl)
      | ok chunk' =>
          have hchunk := hcode 1 (.inl rfl)
          have hchunk' := hcode 2 (.inr rfl)
          rw [hone] at hchunk
          rw [htwo] at hchunk'
          cases hchunk
          cases hchunk'
          obtain ⟨hsame, hlabels, -⟩ := finish_listing_inj hone htwo rfl
          exact ⟨_, _, rfl, rfl, by decide, rfl, hsame, hlabels, rfl⟩

end Assembly

/-! ### Opcodes in order -/

/-- The longest part at the start of `expected` that occurs in `actual` in the same order. -/
structure IsLongestMatch (expected actual found : List Opcode) : Prop where
  start : found <+: expected
  sublist : found.Sublist actual
  longest : ∀ part, part <+: expected → part.Sublist actual → part <+: found

/-- Taking each opcode as early as it occurs finds as many of them as possible. -/
theorem isLongestMatch_missingOpcodes (expected actual : List Opcode) :
    ∃ found, expected = found ++ missingOpcodes expected actual ∧
      IsLongestMatch expected actual found := by
  fun_induction missingOpcodes expected actual with
  | case1 actual => exact ⟨[], rfl, List.nil_prefix, List.nil_sublist _, fun _ hstart _ => hstart⟩
  | case2 expected =>
      refine ⟨[], rfl, List.nil_prefix, List.nil_sublist _, fun part _ hsub => ?_⟩
      exact List.sublist_nil.1 hsub ▸ List.prefix_rfl
  | case3 expected a actual ih =>
      obtain ⟨found, hfound, hmatch⟩ := ih
      refine ⟨a :: found, by rw [List.cons_append, ← hfound], ?_, ?_, fun part hstart hsub => ?_⟩
      · exact List.cons_prefix_cons.2 ⟨rfl, hmatch.start⟩
      · exact hmatch.sublist.cons_cons a
      · obtain rfl | ⟨rest, rfl, hrest⟩ := List.prefix_cons_iff.1 hstart
        · exact List.nil_prefix
        · exact List.cons_prefix_cons.2
            ⟨rfl, hmatch.longest rest hrest (List.cons_sublist_cons.1 hsub)⟩
  | case4 e expected a actual hne ih =>
      obtain ⟨found, hfound, hmatch⟩ := ih
      refine ⟨found, hfound, hmatch.start, hmatch.sublist.cons a, fun part hstart hsub => ?_⟩
      obtain rfl | ⟨rest, rfl, -⟩ := List.prefix_cons_iff.1 hstart
      · exact List.nil_prefix
      · -- the first opcode that is looked for is another one than the one that comes now
        obtain hsub | ⟨_, heq, -⟩ := List.sublist_cons_iff.1 hsub
        · exact hmatch.longest _ hstart hsub
        · exact absurd (List.cons.inj heq).1 hne

/-- The search for opcodes succeeds exactly if the code has them in order. Otherwise it tells what
is left of them without the longest part at their start that the code has in order. -/
theorem Chunk.missing?_spec (c : Chunk) (expected : List Opcode) :
    (c.missing? expected = none ↔ expected.Sublist c.opcodes) ∧
    (¬expected.Sublist c.opcodes → ∃ found, IsLongestMatch expected c.opcodes found ∧
      c.missing? expected = some (expected.drop found.length)) := by
  obtain ⟨found, hfound, hmatch⟩ := isLongestMatch_missingOpcodes expected c.opcodes
  cases hmissing : missingOpcodes expected c.opcodes with
  | nil =>
      rw [hmissing, List.append_nil] at hfound
      have hsub : expected.Sublist c.opcodes := hfound ▸ hmatch.sublist
      have hnone : c.missing? expected = none := by simp only [missing?, hmissing]
      exact ⟨iff_of_true hnone hsub, fun hnot => absurd hsub hnot⟩
  | cons op rest =>
      rw [hmissing] at hfound
      have hsome : c.missing? expected = some (op :: rest) := by simp only [missing?, hmissing]
      have hnot : ¬expected.Sublist c.opcodes := by
        intro hsub
        have hlength := (hmatch.longest expected List.prefix_rfl hsub).length_le
        rw [hfound, List.length_append, List.length_cons] at hlength
        omega
      refine ⟨iff_of_false (by simp [hsome]) hnot, fun _ => ⟨found, hmatch, ?_⟩⟩
      rw [hsome, hfound, List.drop_left]

/-- A test, a jump over a load, and the end of the code, to which the jump leads. -/
def guardedLoad : Chunk :=
  ⟨#[.stackRef 0, .jump .ifNil ⟨0⟩, .constRef 1, .ret], #[4], 1⟩

/-- The return is found, but there is no jump behind it. -/
theorem missing?_spec_guardedLoad :
    guardedLoad.missing? [.jump .ifNil, .ret] = none ∧
    (∃ found, IsLongestMatch [.ret, .jump .ifNil] guardedLoad.opcodes found ∧
      guardedLoad.missing? [.ret, .jump .ifNil] = some ([.ret, .jump .ifNil].drop found.length)) ∧
    guardedLoad.missing? [.ret, .jump .ifNil] = some [.jump .ifNil] :=
  ⟨(Chunk.missing?_spec _ _).1.2 (by decide), (Chunk.missing?_spec _ _).2 (by decide), by decide⟩

end StackCompiler
