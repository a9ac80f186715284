/-!
The pseudo-random words behind initial weights: the key stream of ChaCha with twelve rounds. The
64-bit seed is stretched to the 256-bit key by a linear congruential generator with permuted output.
-/

namespace TensorCompiler.Random

abbrev Block := Vector UInt32 16

def rotl (x k : UInt32) : UInt32 := (x <<< k) ||| (x >>> (32 - k))

def rotr (x k : UInt32) : UInt32 := (x >>> k) ||| (x <<< (32 - k))

def quarterRound (s : Block) (a b c d : Fin 16) : Block :=
  let s := s.set a (s[a] + s[b])
  let s := s.set d (rotl (s[d] ^^^ s[a]) 16)
  let s := s.set c (s[c] + s[d])
  let s := s.set b (rotl (s[b] ^^^ s[c]) 12)
  let s := s.set a (s[a] + s[b])
  let s := s.set d (rotl (s[d] ^^^ s[a]) 8)
  let s := s.set c (s[c] + s[d])
  s.set b (rotl (s[b] ^^^ s[c]) 7)

/-- One round over the columns and one over the diagonals. -/
def doubleRound (s : Block) : Block :=
  let s := quarterRound s 0 4 8 12
  let s := quarterRound s 1 5 9 13
  let s := quarterRound s 2 6 10 14
  let s := quarterRound s 3 7 11 15
  let s := quarterRound s 0 5 10 15
  let s := quarterRound s 1 6 11 12
  let s := quarterRound s 2 7 8 13
  quarterRound s 3 4 9 14

/-- The key of the stream, in 32-bit words. -/
abbrev Key := Vector UInt32 8

/-- The cipher's input: constants, key, a 64-bit block counter and a zero stream number. -/
def input (key : Key) (counter : Nat) : Block :=
  #v[0x61707865, 0x3320646e, 0x79622d32, 0x6b206574,
     key[0], key[1], key[2], key[3], key[4], key[5], key[6], key[7],
     UInt32.ofNat counter, UInt32.ofNat (counter / UInt32.size), 0, 0]

def block (key : Key) (counter : Nat) : Block :=
  let start := input key counter
  Vector.zipWith (· + ·) (Nat.repeat doubleRound 6 start) start

/-- One step of the seed's congruential generator. -/
def stretch (state : UInt64) : UInt64 := state * 6364136223846793005 + 11634580027462260723

/-- The word that a state of the seed's generator gives. -/
def permuted (state : UInt64) : UInt32 :=
  rotr ((((state >>> 18) ^^^ state) >>> 27).toUInt32) ((state >>> 59).toUInt32)

def keyOfSeed (seed : UInt64) : Key :=
  Vector.ofFn fun i : Fin 8 => permuted (Nat.repeat stretch (i.val + 1) seed)

/-- A point in a key stream: how many words have been taken. -/
structure Generator where
  key : Key
  taken : Nat
deriving DecidableEq

namespace Generator

def ofSeed (seed : UInt64) : Generator := ⟨keyOfSeed seed, 0⟩

/-- The word at the given place of the stream. -/
def word (g : Generator) (i : Nat) : UInt32 :=
  (block g.key (i / 16)).get ⟨i % 16, Nat.mod_lt _ (by decide)⟩

/-- The next `n` words, and the generator after them. -/
def take (g : Generator) (n : Nat) : List UInt32 × Generator :=
  ((List.range n).map fun i => g.word (g.taken + i), { g with taken := g.taken + n })

end Generator

end TensorCompiler.Random
