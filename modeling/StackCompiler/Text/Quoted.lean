import StackCompiler.Text.Hidden

/-!
Text inside quotes and characters after a question mark, as forms, constants and messages show
them.
-/

namespace StackCompiler.Text

def hex (n : Nat) : String :=
  String.ofList (Nat.toDigits 16 n)

/-- Hexadecimal digits, padded with zeros on the left to at least `width` places. -/
def hexPadded (width n : Nat) : String :=
  let digits := Nat.toDigits 16 n
  String.ofList (List.replicate (width - digits.length) '0' ++ digits)

/-- A number in decimal, padded with blanks on the left to at least `width` places. -/
def decimalPadded (width n : Nat) : String :=
  let digits := Nat.toDigits 10 n
  String.ofList (List.replicate (width - digits.length) ' ' ++ digits)

def scalarEscape (c : Char) : String :=
  "\\u\x7b" ++ hex c.toNat ++ "\x7d"

def quotedChar (c : Char) : String :=
  match c with
  | '\x00' => "\\0"
  | '\t' => "\\t"
  | '\n' => "\\n"
  | '\r' => "\\r"
  | '"' => "\\\""
  | '\\' => "\\\\"
  | c => if isHidden c then scalarEscape c else String.singleton c

/-- Text in double quotes, with every character that would not show itself escaped. -/
def quote (s : String) : String :=
  "\"" ++ String.join (s.toList.map quotedChar) ++ "\""

/-- A character after its question mark: printable ASCII as it is, all else escaped. -/
def questionChar (c : Char) : String :=
  "?" ++ match c with
    | '\t' => "\\t"
    | '\r' => "\\r"
    | '\n' => "\\n"
    | '\'' => "\\'"
    | '"' => "\\\""
    | '\\' => "\\\\"
    | c => if 0x20 ≤ c.toNat && c.toNat ≤ 0x7E then String.singleton c else scalarEscape c

def quotedList (texts : List String) : String :=
  "[" ++ String.intercalate ", " (texts.map quote) ++ "]"

end StackCompiler.Text
