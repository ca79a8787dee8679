import BinaryCsp.Json.Value

/-!
# Reading data out of JSON values

A decoder accepts the values that stand for its kind of data. Records may be written as objects,
by field name, or as arrays, by position.
-/

namespace BinaryCsp.Json

abbrev Decoder (α : Type) := Json → Option α

namespace Decoder

variable {α β : Type}

def text : Decoder String
  | .string text => text
  | _ => none

def bool : Decoder Bool
  | .bool value => some value
  | _ => none

def digitsValue (digits : List Char) : Nat :=
  digits.foldl (fun n c => 10 * n + (c.toNat - '0'.toNat)) 0

/-- A natural number below `limit`, written with digits only. -/
def natBelow (limit : Nat) : Decoder Nat
  | .number digits =>
    let cs := digits.toList
    if cs.all Char.isDigit && digitsValue cs < limit then some (digitsValue cs) else none
  | _ => none

def limit32 : Nat := 0x100000000

def limit64 : Nat := 0x10000000000000000

def nat32 : Decoder Nat := natBelow limit32

def nat64 : Decoder Nat := natBelow limit64

def list (item : Decoder α) : Decoder (List α)
  | .array items => items.mapM item
  | _ => none

def pair (first : Decoder α) (second : Decoder β) : Decoder (α × β)
  | .array [a, b] => do return (← first a, ← second b)
  | _ => none

def entries (item : Decoder α) : Decoder (List (String × α))
  | .object fields => fields.mapM fun (name, value) => do return (← name, ← item value)
  | _ => none

/-- The values of the named fields of a record, as far as it has them. An object may have other
fields, but none of these twice; an array gives the fields in the order of their names and has no
further items. -/
def record (names : List String) : Decoder (List (Option Json))
  | .object fields => do
    let fields ← entries some (.object fields)
    names.mapM fun name =>
      match fields.filter (·.1 == name) with
      | [] => some none
      | [(_, value)] => some (some value)
      | _ => none
  | .array items =>
    if items.length ≤ names.length then
      some (items.map some ++ List.replicate (names.length - items.length) none)
    else none
  | _ => none

def required (item : Decoder α) (value : Option Json) : Option α := value.bind item

def optional (default : α) (item : Decoder α) : Option Json → Option α
  | none => some default
  | some value => item value

end Decoder

end BinaryCsp.Json
