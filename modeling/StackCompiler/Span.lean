/-!
Places in source text. Spans on one line are joined into the smallest span that covers them; of two
spans on different lines the earlier one stands for both.
-/

namespace StackCompiler

/-- Where a piece of source text starts and how many columns it takes. Lines and columns count from
one; line zero marks a node that stands for no source text. -/
structure Span where
  line : Nat := 0
  column : Nat := 0
  length : Nat := 0
  deriving DecidableEq, Inhabited

namespace Span

def isSynthetic (s : Span) : Bool :=
  s.line == 0

/-- The column after the last one. -/
def stop (s : Span) : Nat :=
  s.column + s.length

def startsBefore (s t : Span) : Bool :=
  s.line < t.line || (s.line == t.line && s.column < t.column)

/-- The smallest span that covers both, or the earlier one if they are on different lines. -/
def cover (s t : Span) : Span :=
  let (first, second) := if t.startsBefore s then (t, s) else (s, t)
  if first.line = second.line then
    ⟨first.line, first.column, max first.stop second.stop - first.column⟩
  else first

def text (s : Span) : String :=
  if s.isSynthetic then "<generated>" else s!"{s.line}:{s.column}"

def fullText (s : Span) : String :=
  s!"{s.line}:{s.column}+{s.length}"

end Span

end StackCompiler
