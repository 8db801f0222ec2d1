/-!
Decimal texts of numbers given by the interval of reals that stand for them. The decimal chosen has
the fewest digits of all in the interval and, of those, lies nearest to the number.
-/

namespace StackCompiler.Decimal

/-- A positive number `mid * 2 ^ scale` with the reals around it that stand for it: those from
`(mid - below) * 2 ^ scale` to `(mid + above) * 2 ^ scale`, the ends included when `closed`. -/
structure Interval where
  mid : Nat
  below : Nat
  above : Nat
  scale : Int
  closed : Bool

/-- The decimal `digits * 10 ^ exponent`. -/
structure Digits where
  digits : Nat
  exponent : Int

namespace Interval

/-- The multiple of `10 ^ grid` in the interval that is nearest to the number, if there is one.
A tie goes to the larger. -/
def onGrid? (i : Interval) (grid : Int) : Option Nat :=
  let num := Nat.pow 2 i.scale.toNat * Nat.pow 10 (-grid).toNat
  let den := Nat.pow 2 (-i.scale).toNat * Nat.pow 10 grid.toNat
  let floor := i.mid * num / den
  let rest := i.mid * num % den
  let reaches (small large : Nat) : Bool := if i.closed then small ≤ large else small < large
  let down := reaches ((i.mid - i.below) * num) (floor * den)
  let up := reaches ((floor + 1) * den) ((i.mid + i.above) * num)
  if rest = 0 then some floor
  else if up && (!down || den ≤ 2 * rest) then some (floor + 1)
  else if down then some floor
  else none

/-- Tries ever finer grids, `steps` of them. -/
def search (i : Interval) : Nat → Int → Digits
  | 0, grid => ⟨i.mid * Nat.pow 2 i.scale.toNat * Nat.pow 10 (-grid).toNat /
      (Nat.pow 2 (-i.scale).toNat * Nat.pow 10 grid.toNat), grid⟩
  | steps + 1, grid =>
    match i.onGrid? grid with
    | some digits => ⟨digits, grid⟩
    | none => search i steps (grid - 1)

/-- A power of ten above every real of the interval; 0.30103 stands for the decimal logarithm of
two. -/
def firstGrid (i : Interval) : Int :=
  let bits : Int := ((i.mid + i.above).log2 : Int) + 1 + i.scale
  (bits * 30103).fdiv 100000 + 1

/-- The shortest decimal of the interval. A grid as fine as the interval is wide meets it, and that
is less than forty powers of ten below the first. -/
def shortest (i : Interval) : Digits :=
  i.search 40 i.firstGrid

end Interval

/-- Which decimal exponents of the leading digit are written without an exponent part. -/
structure Style where
  leastPositional : Int
  greatestPositional : Int

/-- Places the point `point` digits after the start, filling up with zeros on either side. -/
def positional (digits : List Char) (point : Int) : String :=
  if point ≤ 0 then
    "0." ++ String.ofList (List.replicate (-point).toNat '0' ++ digits)
  else
    let whole := point.toNat
    if digits.length ≤ whole then
      String.ofList (digits ++ List.replicate (whole - digits.length) '0') ++ ".0"
    else String.ofList (digits.take whole) ++ "." ++ String.ofList (digits.drop whole)

/-- One digit before the point, the others after it, and the exponent of the first. -/
def scientific (digits : List Char) (exponent : Int) : String :=
  let mantissa := match digits with
    | first :: second :: rest => String.ofList (first :: '.' :: second :: rest)
    | short => String.ofList short
  mantissa ++ "e" ++ toString exponent

/-- Writes a decimal in the notation that the style picks for its size. -/
def Style.write (style : Style) (d : Digits) : String :=
  let digits := Nat.toDigits 10 d.digits
  let exponent := d.exponent + digits.length - 1
  if style.leastPositional ≤ exponent ∧ exponent ≤ style.greatestPositional then
    positional digits (exponent + 1)
  else scientific digits exponent

end StackCompiler.Decimal
