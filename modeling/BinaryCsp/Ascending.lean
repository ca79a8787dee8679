/-!
# Ascending lists as sets and maps

Sets and maps whose order is observable are kept as lists in strictly ascending order of their
keys, for a strict comparison given as a function. Insertion is by structural recursion.
-/

namespace BinaryCsp.Ascending

variable {κ β : Type}

def insert (lt : κ → κ → Bool) (key : κ) : List κ → List κ
  | [] => [key]
  | head :: rest =>
    if lt key head then key :: head :: rest
    else if lt head key then head :: insert lt key rest
    else head :: rest

def ofList (lt : κ → κ → Bool) (keys : List κ) : List κ := keys.foldr (insert lt) []

/-- Sets the entry of `key` to `f` of its present entry, if it has one. -/
def alter (lt : κ → κ → Bool) (key : κ) (f : Option β → β) : List (κ × β) → List (κ × β)
  | [] => [(key, f none)]
  | (head, entry) :: rest =>
    if lt key head then (key, f none) :: (head, entry) :: rest
    else if lt head key then (head, entry) :: alter lt key f rest
    else (head, f (some entry)) :: rest

/-- The map of the given entries. Of two entries with one key the later one counts. -/
def mapOf (lt : κ → κ → Bool) (entries : List (κ × β)) : List (κ × β) :=
  entries.foldr (fun (key, entry) => alter lt key (·.getD entry)) []

/-- The map from each key to the list of its entries, in the order given. -/
def group (lt : κ → κ → Bool) (entries : List (κ × β)) : List (κ × List β) :=
  entries.foldr (fun (key, entry) => alter lt key fun later => entry :: later.getD []) []

def natLt (a b : Nat) : Bool := a < b

def pairLt (p q : Nat × Nat) : Bool := natLt p.1 q.1 || (p.1 == q.1 && natLt p.2 q.2)

end BinaryCsp.Ascending
