/-!
# Quotients with two decimal places

A quotient of counters is taken in binary floating point and its exact binary value is then rounded
to hundredths, a tie going to the even neighbour.
-/

namespace BinaryCsp.Text.Fixed

/-- The natural number nearest to `num / den`, of two equally near ones the even one. -/
def roundHalfEven (num den : Nat) : Nat :=
  let quotient := num / den
  let twice := 2 * (num % den)
  if twice < den || (twice == den && quotient % 2 == 0) then quotient else quotient + 1

def significand (bits : UInt64) : Nat :=
  let fraction := (bits &&& 0xFFFFFFFFFFFFF).toNat
  if bits >>> 52 = 0 then fraction else fraction + 0x10000000000000

/-- The exponent that belongs to the significand, raised by 1075 so as not to be negative. -/
def raisedExponent (bits : UInt64) : Nat := max (bits >>> 52).toNat 1

def hundredths (x : Float) : Nat :=
  let bits := x.toBits
  roundHalfEven ((100 * significand bits) <<< raisedExponent bits) (1 <<< 1075)

def renderHundredths (n : Nat) : String :=
  let places := toString (n % 100)
  let places := if n % 100 < 10 then "0" ++ places else places
  toString (n / 100) ++ "." ++ places

def quotient (num den : Nat) : String :=
  renderHundredths (hundredths ((UInt64.ofNat num).toFloat / (UInt64.ofNat den).toFloat))

end BinaryCsp.Text.Fixed
