/-!
# Streams of random words

A tape is an unbounded sequence of 64-bit words with a position. The tape of a seed is the key stream of the
ChaCha cipher with eight rounds, its key being grown from the seed by a linear congruence with permuted output.
Each word is a function of the seed and its position alone.
-/

namespace Symex

namespace Random

/-! ### The cipher -/

/-- Four words of the cipher's state, worked on side by side. -/
structure Row where
  w0 : UInt32
  w1 : UInt32
  w2 : UInt32
  w3 : UInt32
  deriving DecidableEq, Inhabited

namespace Row

def zip (f : UInt32 → UInt32 → UInt32) (x y : Row) : Row := ⟨f x.w0 y.w0, f x.w1 y.w1, f x.w2 y.w2, f x.w3 y.w3⟩

/-- Rotates every word by `n` bits to the left. -/
def rotateBits (n : UInt32) (x : Row) : Row :=
  let r (w : UInt32) := (w <<< n) ||| (w >>> (32 - n))
  ⟨r x.w0, r x.w1, r x.w2, r x.w3⟩

/-- Moves the words by one place to the left. -/
def shift (x : Row) : Row := ⟨x.w1, x.w2, x.w3, x.w0⟩

def toList (x : Row) : List UInt32 := [x.w0, x.w1, x.w2, x.w3]

end Row

/-- The sixteen words of the cipher's state. -/
structure Block where
  a : Row
  b : Row
  c : Row
  d : Row
  deriving DecidableEq, Inhabited

namespace Block

/-- Mixes the four columns. -/
def mix (s : Block) : Block :=
  let half (m n : UInt32) (s : Block) : Block :=
    let a := s.a.zip (· + ·) s.b
    let d := (s.d.zip (· ^^^ ·) a).rotateBits m
    let c := s.c.zip (· + ·) d
    let b := (s.b.zip (· ^^^ ·) c).rotateBits n
    ⟨a, b, c, d⟩
  half 8 7 (half 16 12 s)

/-- Mixes the columns and then the diagonals. -/
def doubleRound (s : Block) : Block :=
  let s := s.mix
  let s := mix ⟨s.a, s.b.shift, s.c.shift.shift, s.d.shift.shift.shift⟩
  ⟨s.a, s.b.shift.shift.shift, s.c.shift.shift, s.d.shift⟩

/-- The state before the rounds of block number `n`. -/
def start (key : Row × Row) (n : Nat) : Block :=
  { a := ⟨0x61707865, 0x3320646e, 0x79622d32, 0x6b206574⟩
    b := key.1
    c := key.2
    d := ⟨n.toUInt32, (n >>> 32).toUInt32, 0, 0⟩ }

/-- Block number `n` of the key stream: four double rounds, and the state they began with added. -/
def keyStream (key : Row × Row) (n : Nat) : List UInt32 :=
  let s := start key n
  let t := s.doubleRound.doubleRound.doubleRound.doubleRound
  (t.a.zip (· + ·) s.a).toList ++ (t.b.zip (· + ·) s.b).toList ++
    (t.c.zip (· + ·) s.c).toList ++ (t.d.zip (· + ·) s.d).toList

end Block

/-! ### Keys -/

/-- One step of the congruence that grows a key. -/
def keyStep (s : UInt64) : UInt64 := s * 6364136223846793005 + 11634580027462260723

/-- The key word that a state of the congruence gives. -/
def keyWord (s : UInt64) : UInt32 :=
  let x := (((s >>> 18) ^^^ s) >>> 27).toUInt32
  let n := (s >>> 59).toUInt32
  (x >>> n) ||| (x <<< (32 - n))

/-- The eight key words of a seed. -/
def keyOf (seed : UInt64) : Row × Row :=
  let s1 := keyStep seed
  let s2 := keyStep s1
  let s3 := keyStep s2
  let s4 := keyStep s3
  let s5 := keyStep s4
  let s6 := keyStep s5
  let s7 := keyStep s6
  let s8 := keyStep s7
  (⟨keyWord s1, keyWord s2, keyWord s3, keyWord s4⟩, ⟨keyWord s5, keyWord s6, keyWord s7, keyWord s8⟩)

/-- Word number `i` of the stream of a key, made of two words of the cipher, the low one first. -/
def wordOf (key : Row × Row) (i : Nat) : UInt64 :=
  let block := Block.keyStream key (i / 8)
  let k := 2 * (i % 8)
  (block.getD k 0).toUInt64 + ((block.getD (k + 1) 0).toUInt64 <<< 32)

end Random

/-! ### Tapes -/

/-- Random words, of which those before `position` are used up. -/
structure Tape where
  word : Nat → UInt64
  position : Nat := 0

namespace Tape

instance : Inhabited Tape := ⟨{ word := fun _ => 0 }⟩

/-- The tape of a seed. Without a seed any tape will do. -/
def ofSeed (seed : Option Nat) : Tape :=
  let key := Random.keyOf (seed.getD 0).toUInt64
  { word := Random.wordOf key }

/-- The next word. -/
def draw (t : Tape) : UInt64 × Tape := (t.word t.position, { t with position := t.position + 1 })

end Tape

end Symex
