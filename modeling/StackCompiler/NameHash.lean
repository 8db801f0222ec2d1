import StackCompiler.Text.Quoted

/-!
A 64-bit hash of names. The UTF-8 bytes of a name are read as little-endian lanes of eight bytes.
Full stripes of four lanes feed four accumulators, which are then merged; the lanes and bytes left
over are mixed in one after the other, and a final avalanche spreads every bit.
-/

namespace StackCompiler

namespace NameHash

def prime1 : UInt64 := 0x9E3779B185EBCA87
def prime2 : UInt64 := 0xC2B2AE3D27D4EB4F
def prime3 : UInt64 := 0x165667B19E3779F9
def prime4 : UInt64 := 0x85EBCA77C2B2AE63
def prime5 : UInt64 := 0x27D4EB2F165667C5

/-- Turns the bits of a word to the left by `k`, for `0 < k < 64`. -/
def rotate (x : UInt64) (k : UInt64) : UInt64 :=
  (x <<< k) ||| (x >>> (64 - k))

def littleEndian (bytes : List UInt8) : UInt64 :=
  bytes.foldr (fun b n => n <<< 8 ||| b.toUInt64) 0

/-- Splits bytes into full lanes and the rest, which has fewer than eight bytes. -/
def lanes : List UInt8 → List UInt64 × List UInt8
  | a :: b :: c :: d :: e :: f :: g :: h :: more =>
    let (words, rest) := lanes more
    (littleEndian [a, b, c, d, e, f, g, h] :: words, rest)
  | rest => ([], rest)

def round (acc lane : UInt64) : UInt64 :=
  rotate (acc + lane * prime2) 31 * prime1

def merge (hash acc : UInt64) : UInt64 :=
  (hash ^^^ round 0 acc) * prime1 + prime4

structure Stripes where
  a : UInt64 := prime1 + prime2
  b : UInt64 := prime2
  c : UInt64 := 0
  d : UInt64 := 0 - prime1

/-- Feeds all full stripes and returns the lanes left over, fewer than four. -/
def Stripes.feed (s : Stripes) : List UInt64 → Stripes × List UInt64
  | a :: b :: c :: d :: more =>
    Stripes.feed ⟨round s.a a, round s.b b, round s.c c, round s.d d⟩ more
  | rest => (s, rest)

def Stripes.hash (s : Stripes) : UInt64 :=
  let h := rotate s.a 1 + rotate s.b 7 + rotate s.c 12 + rotate s.d 18
  merge (merge (merge (merge h s.a) s.b) s.c) s.d

def mixLane (hash lane : UInt64) : UInt64 :=
  rotate (hash ^^^ round 0 lane) 27 * prime1 + prime4

def mixByte (hash : UInt64) (byte : UInt8) : UInt64 :=
  rotate (hash ^^^ (byte.toUInt64 * prime5)) 11 * prime1

/-- Mixes in the bytes after the last lane: four at once if there are as many, the others one by
one. -/
def mixTail (hash : UInt64) : List UInt8 → UInt64
  | a :: b :: c :: d :: more =>
    let mixed := rotate (hash ^^^ (littleEndian [a, b, c, d] * prime1)) 23 * prime2 + prime3
    more.foldl mixByte mixed
  | short => short.foldl mixByte hash

def avalanche (hash : UInt64) : UInt64 :=
  let hash := (hash ^^^ (hash >>> 33)) * prime2
  let hash := (hash ^^^ (hash >>> 29)) * prime3
  hash ^^^ (hash >>> 32)

def ofBytes (bytes : List UInt8) : UInt64 :=
  let (words, tail) := lanes bytes
  let (stripes, left) := Stripes.feed {} words
  let start := if bytes.length < 32 then prime5 else stripes.hash
  avalanche (mixTail (left.foldl mixLane (start + UInt64.ofNat bytes.length)) tail)

end NameHash

/-- The hash by which a function name is known. -/
structure NameHash where
  value : UInt64
  deriving DecidableEq, Inhabited

namespace NameHash

/-- Sets the hashes of function names apart from other uses of the same hash. -/
def functionMark : UInt64 := 0x5EA77FFBCDF5F302

def ofName (name : String) : NameHash :=
  ⟨functionMark ^^^ ofBytes name.toUTF8.data.toList⟩

def isEmpty (h : NameHash) : Bool :=
  h.value == 0

def hex (h : NameHash) : String :=
  Text.hexPadded 16 h.value.toNat

def text (h : NameHash) : String :=
  "SymbolHash(0x" ++ h.hex ++ ")"

end NameHash

end StackCompiler
