import BinaryCsp.Json.Value

/-!
# Reading JSON text

A strict reader: one value, with blanks around it and between its parts, and nothing else. Numbers
have no leading zeros and no bare point; strings have no raw control characters.
-/

namespace BinaryCsp.Json

def isBlank (c : Char) : Bool := c = ' ' || c = '\n' || c = '\t' || c = '\r'

def skipBlanks (cs : List Char) : List Char := cs.dropWhile isBlank

def skipWord : List Char → List Char → Option (List Char)
  | [], cs => some cs
  | _ :: _, [] => none
  | w :: ws, c :: cs => if w = c then skipWord ws cs else none

def hexDigit? (c : Char) : Option Nat :=
  if '0' ≤ c ∧ c ≤ '9' then some (c.toNat - '0'.toNat)
  else if 'a' ≤ c ∧ c ≤ 'f' then some (c.toNat - 'a'.toNat + 10)
  else if 'A' ≤ c ∧ c ≤ 'F' then some (c.toNat - 'A'.toNat + 10)
  else none

/-- What a string literal is made of: characters, and 16-bit units given by number. -/
inductive Piece where
  | char (c : Char)
  | unit (value : Nat)

def shortEscape? : Char → Option Char
  | '"' => some '"'
  | '\\' => some '\\'
  | '/' => some '/'
  | 'b' => some '\x08'
  | 'f' => some '\x0c'
  | 'n' => some '\n'
  | 'r' => some '\r'
  | 't' => some '\t'
  | _ => none

def unit? (a b c d : Char) : Option Nat := do
  return (((← hexDigit? a) * 16 + (← hexDigit? b)) * 16 + (← hexDigit? c)) * 16 + (← hexDigit? d)

def readPieces : List Char → Option (List Piece × List Char)
  | [] => none
  | '"' :: rest => some ([], rest)
  | '\\' :: 'u' :: a :: b :: c :: d :: rest => do
    let unit ← unit? a b c d
    let (pieces, rest) ← readPieces rest
    return (.unit unit :: pieces, rest)
  | '\\' :: c :: rest => do
    let c ← shortEscape? c
    let (pieces, rest) ← readPieces rest
    return (.char c :: pieces, rest)
  | c :: rest => do
    if c.toNat < 0x20 || c = '\\' then none
    let (pieces, rest) ← readPieces rest
    return (.char c :: pieces, rest)

/-- Whether a unit is the first half of a surrogate pair. -/
def isHigh (unit : Nat) : Bool := 0xD800 ≤ unit && unit < 0xDC00

def isLow (unit : Nat) : Bool := 0xDC00 ≤ unit && unit < 0xE000

/-- The characters of the pieces, if each half of a surrogate pair has its other half. -/
def assemble : List Piece → Option (List Char)
  | [] => some []
  | .char c :: rest => do return c :: (← assemble rest)
  | .unit high :: .unit low :: rest =>
    if isHigh high then
      if isLow low then do
        return Char.ofNat (0x10000 + (high - 0xD800) * 0x400 + (low - 0xDC00)) :: (← assemble rest)
      else none
    else if isLow high then none
    else do return Char.ofNat high :: (← assemble (.unit low :: rest))
  | .unit unit :: rest =>
    if isHigh unit || isLow unit then none else do return Char.ofNat unit :: (← assemble rest)

def readString (cs : List Char) : Option (Option String × List Char) := do
  let (pieces, rest) ← readPieces cs
  return ((assemble pieces).map String.ofList, rest)

def readDigits (cs : List Char) : Option (List Char × List Char) :=
  match cs.span Char.isDigit with
  | ([], _) => none
  | result => some result

/-- The whole part of a number, which has no leading zeros. -/
def readWhole : List Char → Option (List Char × List Char)
  | '0' :: c :: rest => if c.isDigit then none else some (['0'], c :: rest)
  | cs => readDigits cs

def readPlaces : List Char → Option (List Char × List Char)
  | '.' :: rest => do
    let (digits, rest) ← readDigits rest
    return ('.' :: digits, rest)
  | cs => some ([], cs)

def readSign : List Char → List Char × List Char
  | '-' :: rest => (['-'], rest)
  | '+' :: rest => (['+'], rest)
  | cs => ([], cs)

def readExponent : List Char → Option (List Char × List Char)
  | [] => some ([], [])
  | c :: rest =>
    if c = 'e' || c = 'E' then do
      let (sign, rest) := readSign rest
      let (digits, rest) ← readDigits rest
      return (c :: sign ++ digits, rest)
    else some ([], c :: rest)

def readNumber (cs : List Char) : Option (Json × List Char) := do
  let (sign, cs) := match cs with
    | '-' :: rest => (['-'], rest)
    | cs => ([], cs)
  let (whole, cs) ← readWhole cs
  let (places, cs) ← readPlaces cs
  let (exponent, cs) ← readExponent cs
  return (.number (String.ofList (sign ++ whole ++ places ++ exponent)), cs)

mutual

/-- A value and the text after it. Each level of `depth` allows one more call. -/
def readValue : (depth : Nat) → List Char → Option (Json × List Char)
  | 0, _ => none
  | depth + 1, cs =>
    match skipBlanks cs with
    | 'n' :: rest => do return (.null, ← skipWord "ull".toList rest)
    | 't' :: rest => do return (.bool true, ← skipWord "rue".toList rest)
    | 'f' :: rest => do return (.bool false, ← skipWord "alse".toList rest)
    | '"' :: rest => do
      let (text, rest) ← readString rest
      return (.string text, rest)
    | '[' :: rest =>
      match skipBlanks rest with
      | ']' :: rest => some (.array [], rest)
      | rest => do
        let (items, rest) ← readItems depth rest
        return (.array items, rest)
    | '\x7b' :: rest =>
      match skipBlanks rest with
      | '\x7d' :: rest => some (.object [], rest)
      | rest => do
        let (fields, rest) ← readFields depth rest
        return (.object fields, rest)
    | cs => readNumber cs

def readItems : (depth : Nat) → List Char → Option (List Json × List Char)
  | 0, _ => none
  | depth + 1, cs => do
    let (item, rest) ← readValue depth cs
    match skipBlanks rest with
    | ']' :: rest => return ([item], rest)
    | ',' :: rest =>
      let (items, rest) ← readItems depth rest
      return (item :: items, rest)
    | _ => none

def readFields : (depth : Nat) → List Char → Option (List (Option String × Json) × List Char)
  | 0, _ => none
  | depth + 1, cs => do
    let '"' :: rest := skipBlanks cs | none
    let (name, rest) ← readString rest
    let ':' :: rest := skipBlanks rest | none
    let (value, rest) ← readValue depth rest
    match skipBlanks rest with
    | '\x7d' :: rest => return ([(name, value)], rest)
    | ',' :: rest =>
      let (fields, rest) ← readFields depth rest
      return ((name, value) :: fields, rest)
    | _ => none

end

/-- The value that a text holds. Every second call passes at least one character, which bounds
the depth. -/
def ofText? (text : String) : Option Json := do
  let cs := text.toList
  let (value, rest) ← readValue (2 * cs.length + 2) cs
  if (skipBlanks rest).isEmpty then some value else none

end BinaryCsp.Json
