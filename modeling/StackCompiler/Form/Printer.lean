import StackCompiler.Text.Quoted
import StackCompiler.Form.Basic

/-!
The Lisp notation of forms.
-/

namespace StackCompiler

/-- A parenthesised list: its head and, after blanks, its items. -/
def parenthesised (head : String) (items : List String) : String :=
  "(" ++ head ++ String.join (items.map (" " ++ ·)) ++ ")"

namespace Form

mutual
/-- The form in Lisp notation. -/
def text : Form → String
  | bool true => Host.truth
  | bool false => Host.nil
  | char c => Text.questionChar c
  | int v => toString v.toInt
  | float x => x.text
  | str s => Text.quote s
  | symbol name => "'" ++ name
  | var name => name
  | array elems => "[" ++ String.intercalate " " (texts elems) ++ "]"
  | sparseArray ctor stores => parenthesised "sparse-array" (ctor.text :: storeTexts stores)
  | block body => parenthesised "block" (texts body)
  | branch cond body els =>
    parenthesised "if" (cond.text :: parenthesised "block" (texts body) :: optionalTexts els)
  | loop cond body post =>
    parenthesised "while" (cond.text :: parenthesised "block" (texts body) :: optionalTexts post)
  | ret results => parenthesised "return" (texts results)
  | breakLoop => "(break)"
  | continueLoop => "(continue)"
  | bind name init => parenthesised "bind" [name, init.text]
  | rebind name value => parenthesised "rebind" [name, value.text]
  | op kind family args => parenthesised (family.text ++ kind.text) (texts args)
  | unary kind family arg => parenthesised (family.text ++ "-" ++ kind.text) [arg.text]
  | not arg => parenthesised "not" [arg.text]
  | and left right => parenthesised "and" [left.text, right.text]
  | or left right => parenthesised "or" [left.text, right.text]
  | call name args => parenthesised name (texts args)
  | dynCall callee args => parenthesised Host.funcall (callee.text :: texts args)
  | resultRef index => parenthesised "multi-value-ref" [toString index]
  | copy source => parenthesised "copy-array" [source.text]
  | get source index => parenthesised "aref" [source.text, index.text]
  | set target index value => parenthesised "aset" [target.text, index.text, value.text]

def texts : List Form → List String
  | [] => []
  | f :: fs => f.text :: texts fs

def optionalTexts : Option Form → List String
  | none => []
  | some f => [f.text]

/-- The index and the value of each store, as dotted pairs. -/
def storeTexts : List (Int64 × Form) → List String
  | [] => []
  | (index, value) :: rest =>
    ("(" ++ toString index.toInt ++ " . " ++ value.text ++ ")") :: storeTexts rest
end

end Form

def Block.text (b : Block) : String :=
  (Form.block b).text

end StackCompiler
