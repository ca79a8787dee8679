/-!
# A reproducible stream of random words

The stream of the ChaCha cipher with eight rounds, under a key expanded from a 64-bit seed. The
same seed always gives the same words.
-/

namespace BinaryCsp.Chance

abbrev Block := Vector UInt32 16

/-- `word` rotated left by `amount`, for amounts between 1 and 31. -/
def rotateLeft (word amount : UInt32) : UInt32 := (word <<< amount) ||| (word >>> (32 - amount))

def quarterRound (s : Block) (a b c d : Fin 16) : Block :=
  let s := s.set a (s[a] + s[b])
  let s := s.set d (rotateLeft (s[d] ^^^ s[a]) 16)
  let s := s.set c (s[c] + s[d])
  let s := s.set b (rotateLeft (s[b] ^^^ s[c]) 12)
  let s := s.set a (s[a] + s[b])
  let s := s.set d (rotateLeft (s[d] ^^^ s[a]) 8)
  let s := s.set c (s[c] + s[d])
  s.set b (rotateLeft (s[b] ^^^ s[c]) 7)

/-- A round over the columns followed by one over the diagonals. -/
def doubleRound (s : Block) : Block :=
  let s := quarterRound s 0 4 8 12
  let s := quarterRound s 1 5 9 13
  let s := quarterRound s 2 6 10 14
  let s := quarterRound s 3 7 11 15
  let s := quarterRound s 0 5 10 15
  let s := quarterRound s 1 6 11 12
  let s := quarterRound s 2 7 8 13
  quarterRound s 3 4 9 14

/-- The block that the rounds start from: the constants, the key, the block counter with its low
word first, and an empty nonce. -/
def initialBlock (key : Vector UInt32 8) (counter : UInt64) : Block :=
  #v[0x61707865, 0x3320646e, 0x79622d32, 0x6b206574,
    key[0], key[1], key[2], key[3], key[4], key[5], key[6], key[7],
    counter.toUInt32, (counter >>> 32).toUInt32, 0, 0]

def outputBlock (key : Vector UInt32 8) (counter : UInt64) : Block :=
  let start := initialBlock key counter
  (doubleRound (doubleRound (doubleRound (doubleRound start)))).zipWith (· + ·) start

/-- One step of the generator that expands a seed into a key. -/
def advanceSeed (state : UInt64) : UInt64 := state * 6364136223846793005 + 11634580027462260723

def seedWord (state : UInt64) : UInt32 :=
  let word := (((state >>> 18) ^^^ state) >>> 27).toUInt32
  let amount := (state >>> 59).toUInt32
  (word >>> amount) ||| (word <<< ((32 - amount) &&& 31))

def seedStates : (count : Nat) → UInt64 → List UInt64
  | 0, _ => []
  | count + 1, state => advanceSeed state :: seedStates count (advanceSeed state)

def keyOf (seed : UInt64) : Vector UInt32 8 :=
  Vector.ofFn fun i => seedWord (((seedStates 8 seed)[i.val]?).getD 0)

structure Stream where
  key : Vector UInt32 8
  /-- The number of the next block to be made. -/
  counter : UInt64
  /-- The words of the last block that have not been taken. -/
  pending : List UInt32
deriving DecidableEq

namespace Stream

def ofSeed (seed : UInt64) : Stream := ⟨keyOf seed, 0, []⟩

def next (s : Stream) : UInt32 × Stream :=
  match s.pending with
  | word :: rest => (word, { s with pending := rest })
  | [] =>
    let block := outputBlock s.key s.counter
    (block[0], { s with counter := s.counter + 1, pending := block.toList.drop 1 })

def wordValues : Nat := 0x100000000

/-- The number of words after which the stream repeats: sixteen for each value of the counter. -/
def period : Nat := 16 * 0x10000000000000000

/-- The largest low half of a product that is accepted when drawing below `bound`: the acceptance
zone is the largest multiple of `bound` by a power of two that fits a word. -/
def zone (bound : Nat) : Nat := bound <<< (31 - bound.log2) - 1

/-- Draws words until one is accepted. The index is the high half of the product of the word and
`bound`; a word whose product has a low half beyond the zone is passed over. A stream whose whole
period is passed over gives zero. -/
def drawBelow (bound : Nat) : (tries : Nat) → Stream → Nat × Stream
  | 0, s => (0, s)
  | tries + 1, s =>
    let (word, s) := s.next
    let product := word.toNat * bound
    if product % wordValues ≤ zone bound then (product / wordValues, s) else drawBelow bound tries s

def below (s : Stream) (bound : Nat) : Nat × Stream := drawBelow bound period s

end Stream

end BinaryCsp.Chance
