import BinaryCsp.Fault

/-!
# Sets of ids packed into words

A `BitSet` holds natural numbers as bits of 64-bit words, with its cardinality cached so that the
size of a domain is read in one step. The number of words is part of the value: it is fixed when
the set is made, grows when a larger id is inserted, and never shrinks.
-/

namespace BinaryCsp

/-- A set of ids. Bit `b` of word `w` says whether `64 * w + b` is a member. -/
structure BitSet where
  words : Array UInt64
  /-- The number of members. -/
  size : Nat
deriving DecidableEq

namespace BitSet

def wordBits : Nat := 64

def mask (bit : Nat) : UInt64 := 1 <<< UInt64.ofNat bit

def hasBit (word : UInt64) (bit : Nat) : Bool := word &&& mask bit != 0

/-- The number of clear bits below the lowest set one, among the lowest `width` bits of `word`. -/
def trailingZeros : (width : Nat) → (word : UInt64) → Nat
  | 0, _ => 0
  | width + 1, word => if word &&& 1 = 1 then 0 else trailingZeros width (word >>> 1) + 1

/-- The lowest `count` set bits of `word`, ascending, numbered from `base`. Each is read off and
cleared in turn, until none is left. -/
def bitsFrom (base : Nat) : (count : Nat) → (word : UInt64) → List Nat
  | 0, _ => []
  | count + 1, word =>
    if word = 0 then []
    else (base + trailingZeros wordBits word) :: bitsFrom base count (word &&& (word - 1))

def countBits : (width : Nat) → (word : UInt64) → Nat
  | 0, _ => 0
  | width + 1, word =>
    if word = 0 then 0
    else (if word &&& 1 = 1 then 1 else 0) + countBits width (word >>> 1)

def empty (bound : Nat) : BitSet :=
  ⟨Array.replicate ((bound + (wordBits - 1)) / wordBits) 0, 0⟩

/-- The word at a position. Beyond the last word there are no members. -/
@[inline] def word (s : BitSet) (position : Nat) : UInt64 := s.words.getD position 0

def contains (s : BitSet) (id : Nat) : Bool := hasBit (s.word (id / wordBits)) (id % wordBits)

def padded (s : BitSet) (count : Nat) : Array UInt64 :=
  s.words ++ Array.replicate (count - s.words.size) 0

def insert (s : BitSet) (id : Nat) : Bool × BitSet :=
  if s.contains id then (false, s)
  else
    let words := s.padded (id / wordBits + 1)
    (true, ⟨words.modify (id / wordBits) (· ||| mask (id % wordBits)), s.size + 1⟩)

def remove (s : BitSet) (id : Nat) : Checked (Bool × BitSet) :=
  if s.contains id then do
    let size ← Checked.sub s.size 1
    return (true, ⟨s.words.modify (id / wordBits) (· &&& ~~~ mask (id % wordBits)), size⟩)
  else return (false, s)

def ofList (bound : Nat) (ids : List Nat) : BitSet :=
  ids.foldl (fun s id => (s.insert id).2) (empty bound)

/-- The members held in the first `count` words, ascending, in front of `rest`. -/
def membersBelow (s : BitSet) : (count : Nat) → (rest : List Nat) → List Nat
  | 0, rest => rest
  | count + 1, rest =>
    let word := s.word count
    if word = 0 then s.membersBelow count rest
    else s.membersBelow count (bitsFrom (wordBits * count) wordBits word ++ rest)

def toList (s : BitSet) : List Nat := s.membersBelow s.words.size []

def isEmpty (s : BitSet) : Bool := s.size == 0

def isSingleton (s : BitSet) : Bool := s.size == 1

def singleton? (s : BitSet) : Option Nat := if s.isSingleton then s.toList.head? else none

def intersectsBelow (s t : BitSet) : (count : Nat) → Bool
  | 0 => false
  | count + 1 => s.word count &&& t.word count != 0 || intersectsBelow s t count

def intersects (s t : BitSet) : Bool := intersectsBelow s t (min s.words.size t.words.size)

/-- The number of members held in the first `count` words that the two sets share, added to
`total`. -/
def interSizeBelow (s t : BitSet) : (count : Nat) → (total : Nat) → Nat
  | 0, total => total
  | count + 1, total =>
    interSizeBelow s t count (total + countBits wordBits (s.word count &&& t.word count))

def interSize (s t : BitSet) : Nat := interSizeBelow s t (min s.words.size t.words.size) 0

end BitSet

end BinaryCsp
