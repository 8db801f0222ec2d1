import StackCompiler.Binary64
import StackCompiler.Text.Quoted

/-!
Constants of compiled code, and an order on them by which they are looked up.
-/

namespace StackCompiler

/-- A value that instructions refer to by its index. -/
inductive Constant where
  | symbol (name : String)
  | int (value : Int64)
  | float (value : Binary64)
  | str (value : String)
  deriving DecidableEq, Inhabited

namespace Constant

/-- The constant that stands for all those equal to it: floating point numbers are equal by value,
and everything that is not a number is equal. -/
def key : Constant → Constant
  | float x => float x.canonical
  | c => c

def text : Constant → String
  | symbol name => name
  | int v => toString v.toInt
  | float x => x.text
  | str s => Text.quote s

def rank : Constant → Nat
  | symbol _ => 0
  | int _ => 1
  | float _ => 2
  | str _ => 3

def word : Constant → UInt64
  | int v => v.toUInt64
  | float x => x.bits
  | symbol _ | str _ => 0

def letters : Constant → String
  | symbol s | str s => s
  | int _ | float _ => ""

/-- Constants by kind, then by bits, then by characters. -/
def order : Constant → Constant → Ordering :=
  compareLex (compareOn rank) (compareLex (compareOn word) (compareOn letters))

instance : Std.TransCmp order :=
  inferInstanceAs (Std.TransCmp (compareLex _ _))

/-- Only a constant itself is at the same place in the order. -/
theorem order_eq_iff {c d : Constant} : order c d = .eq ↔ c = d := by
  constructor
  · intro h
    simp only [order, compareLex_eq_eq, compareOn, Std.LawfulEqCmp.compare_eq_iff_eq] at h
    obtain ⟨hrank, hword, hletters⟩ := h
    cases c <;> cases d <;> simp_all [rank, word, letters]
    · exact congrArg Int64.ofUInt64 hword
    · exact congrArg Binary64.mk hword
  · rintro rfl
    exact Std.ReflCmp.compare_self

end Constant

end StackCompiler
