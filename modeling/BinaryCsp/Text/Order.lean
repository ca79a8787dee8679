/-!
# The order of texts

Texts are compared by their code points, from the first on, a text before its extensions.
-/

namespace BinaryCsp.Text

def charsBefore : List Char → List Char → Bool
  | _, [] => false
  | [], _ :: _ => true
  | a :: as, b :: bs => a.toNat < b.toNat || (a.toNat == b.toNat && charsBefore as bs)

def before (s t : String) : Bool := charsBefore s.toList t.toList

end BinaryCsp.Text
