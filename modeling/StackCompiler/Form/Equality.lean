import StackCompiler.Form.Basic

/-!
Equality of forms as values: floating point literals are compared as numbers, so that the zeros are
equal and what is not a number differs even from itself.
-/

namespace StackCompiler.Form

mutual
/-- Equality of forms as values. -/
def same : Form → Form → Bool
  | bool v, bool w => v == w
  | char v, char w => v == w
  | int v, int w => v == w
  | float v, float w => v.numEq w
  | str v, str w => v == w
  | symbol v, symbol w => v == w
  | var v, var w => v == w
  | array es, array es' => sameList es es'
  | sparseArray c ss, sparseArray c' ss' => c.same c' && sameStores ss ss'
  | block b, block b' => sameList b b'
  | branch c b els, branch c' b' els' => c.same c' && sameList b b' && sameOptional els els'
  | loop c b post, loop c' b' post' => c.same c' && sameList b b' && sameOptional post post'
  | ret rs, ret rs' => sameList rs rs'
  | breakLoop, breakLoop => true
  | continueLoop, continueLoop => true
  | bind n f, bind n' f' => n == n' && f.same f'
  | rebind n f, rebind n' f' => n == n' && f.same f'
  | op k m args, op k' m' args' => k == k' && m == m' && sameList args args'
  | unary k m f, unary k' m' f' => k == k' && m == m' && f.same f'
  | not f, not f' => f.same f'
  | and f g, and f' g' => f.same f' && g.same g'
  | or f g, or f' g' => f.same f' && g.same g'
  | call n args, call n' args' => n == n' && sameList args args'
  | dynCall f args, dynCall f' args' => f.same f' && sameList args args'
  | resultRef n, resultRef n' => n == n'
  | copy f, copy f' => f.same f'
  | get f i, get f' i' => f.same f' && i.same i'
  | set f i v, set f' i' v' => f.same f' && i.same i' && v.same v'
  | _, _ => false

def sameList : List Form → List Form → Bool
  | [], [] => true
  | f :: fs, g :: gs => f.same g && sameList fs gs
  | _, _ => false

def sameOptional : Option Form → Option Form → Bool
  | none, none => true
  | some f, some g => f.same g
  | _, _ => false

def sameStores : List (Int64 × Form) → List (Int64 × Form) → Bool
  | [], [] => true
  | (i, f) :: fs, (j, g) :: gs => i == j && f.same g && sameStores fs gs
  | _, _ => false
end

end StackCompiler.Form

namespace StackCompiler

def Block.same (b c : Block) : Bool :=
  Form.sameList b c

end StackCompiler
