import StackCompiler.Decimal

/-!
Binary floating point numbers of 64 bits, held as their bit pattern: a sign bit, eleven exponent
bits and 52 bits of fraction. Kept as bits, two patterns can be told apart even where arithmetic
calls them equal.
-/

namespace StackCompiler

/-- A floating point number, by its bit pattern. -/
structure Binary64 where
  bits : UInt64
  deriving DecidableEq, Hashable, Inhabited

namespace Binary64

def zero : Binary64 := ⟨0⟩

def one : Binary64 := ⟨0x3FF0000000000000⟩

/-- The pattern that stands for every value that is not a number. -/
def nan : Binary64 := ⟨0x7FF8000000000000⟩

def negative (x : Binary64) : Bool :=
  x.bits.toNat / Nat.pow 2 63 == 1

def exponent (x : Binary64) : Nat :=
  x.bits.toNat / Nat.pow 2 52 % Nat.pow 2 11

def fraction (x : Binary64) : Nat :=
  x.bits.toNat % Nat.pow 2 52

/-- Not a number: all exponent bits set and a fraction. -/
def isNaN (x : Binary64) : Bool :=
  x.exponent == 2047 && x.fraction != 0

def isZero (x : Binary64) : Bool :=
  x.exponent == 0 && x.fraction == 0

/-- Flips the sign, also of zeros and of values that are not numbers. -/
def neg (x : Binary64) : Binary64 :=
  ⟨x.bits ^^^ 0x8000000000000000⟩

instance : Neg Binary64 := ⟨neg⟩

/-- Equality of the numbers themselves: the zeros are equal, and what is not a number differs even
from itself. -/
def numEq (x y : Binary64) : Bool :=
  !x.isNaN && !y.isNaN && (x.bits == y.bits || (x.isZero && y.isZero))

/-- One pattern for each value: positive zero for both zeros and one pattern for all that is not a
number. -/
def canonical (x : Binary64) : Binary64 :=
  if x.isNaN then nan else if x.isZero then zero else x

/-- The magnitude of an integer rounded to 53 significant bits, as the pattern of a positive
number. A half goes to the even neighbour; a carry out of the fraction raises the exponent. -/
def magnitudeBits (n : Nat) : Nat :=
  if n = 0 then 0
  else
    let top := n.log2
    if top ≤ 52 then (top + 1023) * Nat.pow 2 52 + (n * Nat.pow 2 (52 - top) - Nat.pow 2 52)
    else
      let unit := Nat.pow 2 (top - 52)
      let kept := n / unit
      let rest := n % unit
      let up := unit < 2 * rest || (2 * rest == unit && kept % 2 == 1)
      (top + 1023) * Nat.pow 2 52 + (kept + (if up then 1 else 0) - Nat.pow 2 52)

def ofInt64 (v : Int64) : Binary64 :=
  let pattern := UInt64.ofNat (magnitudeBits v.toInt.natAbs)
  if v.toInt < 0 then ⟨pattern ^^^ 0x8000000000000000⟩ else ⟨pattern⟩

/-- The reals that round to a finite number other than zero. At a power of two the neighbour below
is only half as far as the one above. -/
def interval (x : Binary64) : Decimal.Interval :=
  let closed := x.fraction % 2 == 0
  if x.exponent = 0 then ⟨2 * x.fraction, 1, 1, -1075, closed⟩
  else
    let significand := Nat.pow 2 52 + x.fraction
    let scale : Int := (x.exponent : Int) - 1075
    if x.fraction = 0 then ⟨4 * significand, 1, 2, scale - 2, closed⟩
    else ⟨2 * significand, 1, 1, scale - 1, closed⟩

/-- How floating point numbers are written: positional from a ten-thousandth up to ten to the
sixteenth, with at least one place after the point, and scientific elsewhere. -/
def style : Decimal.Style where
  leastPositional := -4
  greatestPositional := 15

/-- The shortest text that reads back as the same number. -/
def text (x : Binary64) : String :=
  if x.isNaN then "NaN"
  else
    let sign := if x.negative then "-" else ""
    if x.exponent = 2047 then sign ++ "inf"
    else if x.isZero then sign ++ "0.0"
    else sign ++ style.write x.interval.shortest

end Binary64

end StackCompiler
