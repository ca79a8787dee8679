/-!
# JSON values

A value as it was written: numbers keep their digits, and objects keep their fields in order, with
repetitions. Which of these matter is for the reader of the value to say.
-/

namespace BinaryCsp

/-- A JSON value. A string is `none` if it has an escape for one half of a surrogate pair without
the other half, so that it stands for no text. -/
inductive Json where
  | null
  | bool (value : Bool)
  | number (digits : String)
  | string (text : Option String)
  | array (items : List Json)
  | object (fields : List (Option String × Json))

namespace Json

def ofNat (n : Nat) : Json := .number (toString n)

def ofString (text : String) : Json := .string (some text)

def ofFields (fields : List (String × Json)) : Json :=
  .object (fields.map fun (name, value) => (some name, value))

/-- The value of a field, the last one if it is repeated. -/
def field? (name : String) : Json → Option Json
  | .object fields => (fields.reverse.find? fun field => field.1 == some name).map (·.2)
  | _ => none

def hex4 (n : Nat) : String :=
  let digits := String.ofList (Nat.toDigits 16 n)
  String.ofList (List.replicate (4 - digits.length) '0') ++ digits

def escapeChar (c : Char) : String :=
  if c = '"' then "\\\""
  else if c = '\\' then "\\\\"
  else if c.toNat < 0x20 then "\\u" ++ hex4 c.toNat
  else String.singleton c

/-- A string literal. A string that stands for no text is written as half a surrogate pair. -/
def renderString : Option String → String
  | some text => "\"" ++ String.join (text.toList.map escapeChar) ++ "\""
  | none => "\"\\ud800\""

mutual

def render : Json → String
  | .null => "null"
  | .bool value => if value then "true" else "false"
  | .number digits => digits
  | .string text => renderString text
  | .array items => "[" ++ ",".intercalate (renderItems items) ++ "]"
  | .object fields => "\x7b" ++ ",".intercalate (renderFields fields) ++ "\x7d"

def renderItems : List Json → List String
  | [] => []
  | item :: rest => item.render :: renderItems rest

def renderFields : List (Option String × Json) → List String
  | [] => []
  | (name, value) :: rest => (renderString name ++ ":" ++ value.render) :: renderFields rest

end

mutual

/-- The value in which, of the fields of an object with one name, only the last is kept. -/
def lastFields : Json → Json
  | .array items => .array (lastItems items)
  | .object fields => .object (keepLast fields)
  | value => value

def lastItems : List Json → List Json
  | [] => []
  | item :: rest => item.lastFields :: lastItems rest

def keepLast : List (Option String × Json) → List (Option String × Json)
  | [] => []
  | (name, value) :: rest =>
    if rest.any fun field => field.1 == name then keepLast rest
    else (name, value.lastFields) :: keepLast rest

end

end Json

end BinaryCsp
