import BinaryCsp.Text.Dependent

/-!
# Quoted text

Text between double quotes, in which every character can be told from its neighbours: quotes,
backslashes and the common controls have a short escape, and characters that cannot stand by
themselves are given by number.
-/

namespace BinaryCsp.Text.Quoted

def hex (n : Nat) : String := String.ofList (Nat.toDigits 16 n)

def escape (c : Char) : String :=
  match c with
  | '"' => "\\\""
  | '\\' => "\\\\"
  | '\n' => "\\n"
  | '\r' => "\\r"
  | '\t' => "\\t"
  | '\x00' => "\\0"
  | c =>
    if Dependent.isDependent c then "\\u\x7b" ++ hex c.toNat ++ "\x7d" else String.singleton c

def quote (text : String) : String := "\"" ++ String.join (text.toList.map escape) ++ "\""

end BinaryCsp.Text.Quoted
