import BinaryCsp.Ascending
import Mathlib.Data.List.Forall2
import Mathlib.Data.List.Nodup

/-! # Ascending lists as sets and maps

For a strict total comparison, insertion keeps a list ascending and adds exactly its key, and
`group` maps each key that occurs to all of its entries in the order given.
-/

namespace BinaryCsp.Ascending

variable {κ β : Type} {lt : κ → κ → Bool}

structure Strict (lt : κ → κ → Bool) : Prop where
  irrefl : ∀ a, lt a a = false
  trans : ∀ {a b c}, lt a b = true → lt b c = true → lt a c = true
  eq_of_not : ∀ {a b}, lt a b = false → lt b a = false → a = b

theorem Strict.ne (hlt : Strict lt) {a b : κ} (h : lt a b = true) : a ≠ b := by
  rintro rfl
  rw [hlt.irrefl] at h
  cases h

theorem Strict.comap (hlt : Strict lt) {α : Type} {f : α → κ} (hf : ∀ {a b}, f a = f b → a = b) :
    Strict fun a b => lt (f a) (f b) where
  irrefl a := hlt.irrefl (f a)
  trans := hlt.trans
  eq_of_not hab hba := hf (hlt.eq_of_not hab hba)

theorem Strict.flip (hlt : Strict lt) : Strict fun a b => lt b a where
  irrefl := hlt.irrefl
  trans hab hbc := hlt.trans hbc hab
  eq_of_not hab hba := hlt.eq_of_not hba hab

theorem natLt_strict : Strict natLt where
  irrefl := by simp [natLt]
  trans := by
    intro a b c hab hbc
    simp only [natLt, decide_eq_true_eq] at hab hbc ⊢
    omega
  eq_of_not := by
    intro a b hab hba
    simp only [natLt, decide_eq_false_iff_not] at hab hba
    omega

theorem pairLt_strict : Strict pairLt where
  irrefl := by simp [pairLt, natLt]
  trans := by
    intro p q r hpq hqr
    simp only [pairLt, natLt, Bool.or_eq_true, decide_eq_true_eq, Bool.and_eq_true,
      beq_iff_eq] at hpq hqr ⊢
    lia
  eq_of_not := by
    intro p q hpq hqp
    simp only [pairLt, natLt, Bool.or_eq_false_iff, decide_eq_false_iff_not,
      Bool.and_eq_false_iff, beq_eq_false_iff_ne] at hpq hqp
    exact Prod.ext (by lia) (by lia)

/-! ## Sets -/

theorem mem_insert (hlt : Strict lt) {key other : κ} {keys : List κ} :
    other ∈ insert lt key keys ↔ other = key ∨ other ∈ keys := by
  induction keys with
  | nil => simp [insert]
  | cons head rest ih =>
      rw [insert]
      split
      · simp
      · split
        · rw [List.mem_cons, ih, List.mem_cons, or_left_comm]
        · next hkh hhk =>
            obtain rfl := hlt.eq_of_not (Bool.eq_false_iff.2 hkh) (Bool.eq_false_iff.2 hhk)
            rw [List.mem_cons, ← or_assoc, or_self]

theorem mem_ofList (hlt : Strict lt) {key : κ} {keys : List κ} :
    key ∈ ofList lt keys ↔ key ∈ keys := by
  induction keys with
  | nil => simp [ofList]
  | cons head rest ih =>
      rw [ofList, List.foldr_cons, mem_insert hlt, ← ofList, ih, List.mem_cons]

theorem insert_ascending (hlt : Strict lt) (key : κ) {keys : List κ}
    (h : keys.Pairwise fun a b => lt a b = true) :
    (insert lt key keys).Pairwise fun a b => lt a b = true := by
  induction keys with
  | nil => simp [insert]
  | cons head rest ih =>
      obtain ⟨hhead, hrest⟩ := List.pairwise_cons.1 h
      rw [insert]
      split
      next hkh =>
        refine List.pairwise_cons.2 ⟨fun other hother => ?_, h⟩
        rcases List.mem_cons.1 hother with rfl | hother
        · exact hkh
        · exact hlt.trans hkh (hhead other hother)
      next =>
        split
        next hhk =>
          refine List.pairwise_cons.2 ⟨fun other hother => ?_, ih hrest⟩
          rcases (mem_insert hlt).1 hother with rfl | hother
          · exact hhk
          · exact hhead other hother
        next => exact h

theorem ofList_ascending (hlt : Strict lt) (keys : List κ) :
    (ofList lt keys).Pairwise fun a b => lt a b = true := by
  induction keys with
  | nil => simp [ofList]
  | cons head rest ih => exact insert_ascending hlt head ih

theorem eq_of_mem_iff (hlt : Strict lt) {keys others : List κ}
    (h : keys.Pairwise fun a b => lt a b = true) (h' : others.Pairwise fun a b => lt a b = true)
    (hmem : ∀ key, key ∈ keys ↔ key ∈ others) : keys = others := by
  have hperm := (List.perm_ext_iff_of_nodup (h.imp hlt.ne) (h'.imp hlt.ne)).2 hmem
  refine hperm.eq_of_pairwise (fun a b _ _ hab hba => ?_) h h'
  exact absurd rfl (hlt.ne (hlt.trans hab hba))

/-! ## Maps -/

def Sorted (lt : κ → κ → Bool) (map : List (κ × β)) : Prop :=
  map.Pairwise fun p q => lt p.1 q.1 = true

theorem Sorted.nodup_keys (hlt : Strict lt) {map : List (κ × β)} (hmap : Sorted lt map) :
    (map.map (·.1)).Nodup :=
  List.pairwise_map.2 (hmap.imp hlt.ne)

theorem keys_alter (key : κ) (f : Option β → β) (map : List (κ × β)) :
    (alter lt key f map).map (·.1) = insert lt key (map.map (·.1)) := by
  induction map with
  | nil => rfl
  | cons first rest ih =>
      obtain ⟨head, entry⟩ := first
      rw [alter, List.map_cons, insert]
      by_cases hkh : lt key head = true
      · rw [if_pos hkh, if_pos hkh]
        rfl
      · by_cases hhk : lt head key = true
        · rw [if_neg hkh, if_neg hkh, if_pos hhk, if_pos hhk, List.map_cons, ih]
        · rw [if_neg hkh, if_neg hkh, if_neg hhk, if_neg hhk]
          rfl

theorem alter_sorted (hlt : Strict lt) {key : κ} {f : Option β → β} {map : List (κ × β)}
    (hmap : Sorted lt map) : Sorted lt (alter lt key f map) := by
  have hkeys := insert_ascending hlt key (List.pairwise_map.2 hmap)
  rw [← keys_alter key f] at hkeys
  exact List.pairwise_map.1 hkeys

theorem lookup_cons_of_ne [BEq κ] [LawfulBEq κ] {k key : κ} (h : k ≠ key) (entry : β)
    (map : List (κ × β)) : ((key, entry) :: map).lookup k = map.lookup k := by
  rw [List.lookup_cons, beq_false_of_ne h]

theorem Sorted.lookup_eq_some [BEq κ] [LawfulBEq κ] (hlt : Strict lt) {map : List (κ × β)}
    (hmap : Sorted lt map) {key : κ} {value : β} :
    map.lookup key = some value ↔ (key, value) ∈ map := by
  induction map with
  | nil => simp
  | cons first rest ih =>
      obtain ⟨head, entry⟩ := first
      obtain ⟨hfirst, hrest⟩ := List.pairwise_cons.1 hmap
      rw [List.mem_cons, Prod.mk.injEq]
      by_cases hkey : key = head
      · subst hkey
        have hhead : (key, value) ∉ rest := fun hin => hlt.ne (hfirst _ hin) rfl
        simp [hhead, eq_comm]
      · rw [lookup_cons_of_ne hkey, ih hrest]
        simp [hkey]

theorem lookup_eq_none_of_lt [BEq κ] [LawfulBEq κ] (hlt : Strict lt) {key : κ}
    {map : List (κ × β)} (h : ∀ entry ∈ map, lt key entry.1 = true) : map.lookup key = none :=
  List.lookup_eq_none_iff.2 fun entry hentry => bne_iff_ne.2 (hlt.ne (h entry hentry))

/-- The key that is altered gets its new entry, and every other key keeps what it has. -/
theorem lookup_alter [DecidableEq κ] (hlt : Strict lt) {key : κ} {f : Option β → β}
    {map : List (κ × β)} (hmap : Sorted lt map) (k : κ) :
    (alter lt key f map).lookup k =
      if k = key then some (f (map.lookup key)) else map.lookup k := by
  induction map with
  | nil =>
      rw [alter]
      by_cases hk : k = key
      · simp [hk]
      · simp [hk, lookup_cons_of_ne]
  | cons first rest ih =>
      obtain ⟨head, entry⟩ := first
      obtain ⟨hfirst, hrest⟩ := List.pairwise_cons.1 hmap
      rw [alter]
      by_cases hkh : lt key head = true
      · have hnone : ((head, entry) :: rest).lookup key = none := by
          refine lookup_eq_none_of_lt hlt (List.forall_mem_cons.2 ⟨hkh, fun q hq => ?_⟩)
          exact hlt.trans hkh (hfirst q hq)
        rw [if_pos hkh, hnone]
        by_cases hk : k = key
        · simp [hk]
        · rw [lookup_cons_of_ne hk, if_neg hk]
      · by_cases hhk : lt head key = true
        · have hne : head ≠ key := hlt.ne hhk
          rw [if_neg hkh, if_pos hhk, lookup_cons_of_ne hne.symm]
          by_cases hk : k = head
          · simp [hk, hne]
          · rw [lookup_cons_of_ne hk, lookup_cons_of_ne hk, ih hrest]
        · obtain rfl := hlt.eq_of_not (Bool.eq_false_iff.2 hkh) (Bool.eq_false_iff.2 hhk)
          rw [if_neg hkh, if_neg hhk]
          by_cases hk : k = key
          · simp [hk]
          · rw [if_neg hk, lookup_cons_of_ne hk, lookup_cons_of_ne hk]

theorem alter_map {γ : Type} {g : β → γ} {key : κ} {f : Option β → β} {f' : Option γ → γ}
    (hf : ∀ present, f' (present.map g) = g (f present)) (map : List (κ × β)) :
    alter lt key f' (map.map (Prod.map id g)) = (alter lt key f map).map (Prod.map id g) := by
  have hnone : f' none = g (f none) := hf none
  have hsome : ∀ entry, f' (some (g entry)) = g (f (some entry)) := fun entry => hf (some entry)
  induction map with
  | nil => simp [alter, hnone]
  | cons first rest ih =>
      obtain ⟨head, entry⟩ := first
      simp only [List.map_cons, Prod.map_apply, id_eq, alter]
      by_cases hkh : lt key head = true
      · simp [hkh, hnone]
      · by_cases hhk : lt head key = true
        · simp [hkh, hhk, ih]
        · simp [hkh, hhk, hsome]

/-- The keys alone decide how entries are grouped. -/
theorem group_map {γ : Type} (g : β → γ) (entries : List (κ × β)) :
    group lt (entries.map (Prod.map id g)) =
      (group lt entries).map (Prod.map id (List.map g)) := by
  induction entries with
  | nil => rfl
  | cons first rest ih =>
      obtain ⟨head, entry⟩ := first
      have hstep : group lt ((head, entry) :: rest) =
          alter lt head (fun later => entry :: later.getD []) (group lt rest) := rfl
      have hstep' : group lt (((head, entry) :: rest).map (Prod.map id g)) =
          alter lt head (fun later => g entry :: later.getD [])
            (group lt (rest.map (Prod.map id g))) := rfl
      rw [hstep, hstep', ih]
      refine alter_map (fun later => ?_) (group lt rest)
      cases later <;> rfl

def entriesOf [DecidableEq κ] (entries : List (κ × β)) (key : κ) : List β :=
  (entries.filter (·.1 = key)).map (·.2)

theorem mem_entriesOf [DecidableEq κ] {entries : List (κ × β)} {key : κ} {entry : β} :
    entry ∈ entriesOf entries key ↔ (key, entry) ∈ entries := by
  simp only [entriesOf, List.mem_map, List.mem_filter, decide_eq_true_eq]
  constructor
  · rintro ⟨⟨k, v⟩, ⟨hin, rfl⟩, rfl⟩
    exact hin
  · intro h
    exact ⟨_, ⟨h, rfl⟩, rfl⟩

theorem group_sorted (hlt : Strict lt) (entries : List (κ × β)) : Sorted lt (group lt entries) := by
  induction entries with
  | nil => exact List.Pairwise.nil
  | cons first rest ih => exact alter_sorted hlt ih

theorem lookup_group [DecidableEq κ] (hlt : Strict lt) (entries : List (κ × β)) (key : κ) :
    (group lt entries).lookup key =
      if entriesOf entries key = [] then none else some (entriesOf entries key) := by
  induction entries with
  | nil => rfl
  | cons first rest ih =>
      obtain ⟨head, entry⟩ := first
      have hstep : group lt ((head, entry) :: rest) =
          alter lt head (fun later => entry :: later.getD []) (group lt rest) := rfl
      rw [hstep, lookup_alter hlt (group_sorted hlt rest)]
      by_cases hkey : key = head
      · subst hkey
        have hentries : entriesOf ((key, entry) :: rest) key = entry :: entriesOf rest key := by
          simp [entriesOf]
        rw [if_pos rfl, hentries, if_neg (List.cons_ne_nil _ _), ih]
        split
        next hnil => rw [hnil, Option.getD_none]
        next => rw [Option.getD_some]
      · have hentries : entriesOf ((head, entry) :: rest) key = entriesOf rest key := by
          simp [entriesOf, Ne.symm hkey]
        rw [if_neg hkey, ih, hentries]

/-- The keys of a grouping ascend, and each key that occurs has all of its entries. -/
theorem group_spec [DecidableEq κ] (hlt : Strict lt) (entries : List (κ × β)) :
    Sorted lt (group lt entries) ∧ ∀ key values,
      (key, values) ∈ group lt entries ↔ values = entriesOf entries key ∧ values ≠ [] := by
  refine ⟨group_sorted hlt entries, fun key values => ?_⟩
  rw [← (group_sorted hlt entries).lookup_eq_some hlt, lookup_group hlt]
  split
  next hnil =>
    refine iff_of_false nofun ?_
    rintro ⟨rfl, hne⟩
    exact hne hnil
  next hne =>
    rw [Option.some.injEq]
    constructor
    · rintro rfl
      exact ⟨rfl, hne⟩
    · exact fun h => h.1.symm

def last? [DecidableEq κ] (entries : List (κ × β)) (key : κ) : Option β :=
  (entriesOf entries key).getLast?

theorem last?_eq_some_iff_mem [DecidableEq κ] {entries : List (κ × β)}
    (hkeys : (entries.map (·.1)).Nodup) {key : κ} {value : β} :
    last? entries key = some value ↔ (key, value) ∈ entries := by
  constructor
  · exact fun h => mem_entriesOf.1 (List.mem_of_getLast? h)
  · intro h
    have hne := List.ne_nil_of_mem (mem_entriesOf.2 h)
    have hlast : last? entries key = some ((entriesOf entries key).getLast hne) :=
      List.getLast?_eq_some_getLast hne
    have hin := mem_entriesOf.1 (List.getLast_mem hne)
    rw [hlast, (Prod.mk.inj (List.inj_on_of_nodup_map hkeys hin h rfl)).2]

/-- Where no key has two entries, their order does not matter. -/
theorem last?_perm [DecidableEq κ] {entries others : List (κ × β)}
    (hkeys : (entries.map (·.1)).Nodup) (hperm : others.Perm entries) (key : κ) :
    last? others key = last? entries key := by
  have hkeys' := ((hperm.map (·.1)).nodup_iff).2 hkeys
  refine Option.ext fun value => ?_
  rw [last?_eq_some_iff_mem hkeys, last?_eq_some_iff_mem hkeys', hperm.mem_iff]

theorem mapOf_sorted (hlt : Strict lt) (entries : List (κ × β)) : Sorted lt (mapOf lt entries) := by
  induction entries with
  | nil => exact List.Pairwise.nil
  | cons first rest ih => exact alter_sorted hlt ih

theorem lookup_mapOf [DecidableEq κ] (hlt : Strict lt) (entries : List (κ × β)) (key : κ) :
    (mapOf lt entries).lookup key = last? entries key := by
  induction entries with
  | nil => rfl
  | cons first rest ih =>
      obtain ⟨head, entry⟩ := first
      have hstep : mapOf lt ((head, entry) :: rest) =
          alter lt head (·.getD entry) (mapOf lt rest) := rfl
      rw [hstep, lookup_alter hlt (mapOf_sorted hlt rest)]
      by_cases hkey : key = head
      · subst hkey
        rw [if_pos rfl, ih]
        simp [last?, entriesOf, List.getLast?_cons]
      · rw [if_neg hkey, ih]
        simp [last?, entriesOf, Ne.symm hkey]

theorem mapOf_spec [DecidableEq κ] (hlt : Strict lt) (entries : List (κ × β)) :
    Sorted lt (mapOf lt entries) ∧ ∀ key value,
      (key, value) ∈ mapOf lt entries ↔ last? entries key = some value := by
  refine ⟨mapOf_sorted hlt entries, fun key value => ?_⟩
  rw [← (mapOf_sorted hlt entries).lookup_eq_some hlt, lookup_mapOf hlt]

theorem Sorted.mem_keys [BEq κ] [LawfulBEq κ] (hlt : Strict lt) {map : List (κ × β)}
    (hmap : Sorted lt map) {key : κ} : key ∈ map.map (·.1) ↔ (map.lookup key).isSome := by
  simp only [List.mem_map, Prod.exists, Option.isSome_iff_exists,
    hmap.lookup_eq_some hlt]
  constructor
  · rintro ⟨_, value, hin, rfl⟩
    exact ⟨value, hin⟩
  · rintro ⟨value, hin⟩
    exact ⟨key, value, hin, rfl⟩

/-! ## Maps with related entries -/

section Matched

variable {R : β → β → Prop}

def Matched (R : β → β → Prop) : List (κ × β) → List (κ × β) → Prop :=
  List.Forall₂ fun p q => p.1 = q.1 ∧ R p.2 q.2

theorem alter_matched {key : κ} {f g : Option β → β} (hnone : R (f none) (g none))
    (hsome : ∀ {x y}, R x y → R (f (some x)) (g (some y))) {map other : List (κ × β)}
    (h : Matched R map other) : Matched R (alter lt key f map) (alter lt key g other) := by
  induction h with
  | nil => exact .cons ⟨rfl, hnone⟩ .nil
  | @cons p q map other hpq hrest ih =>
      obtain ⟨head, entry⟩ := p
      obtain ⟨head', entry'⟩ := q
      obtain ⟨hkey, hentry⟩ := hpq
      dsimp only at hkey hentry
      subst hkey
      rw [alter, alter]
      split
      · exact .cons ⟨rfl, hnone⟩ (.cons ⟨rfl, hentry⟩ hrest)
      · split
        · exact .cons ⟨rfl, hentry⟩ ih
        · exact .cons ⟨rfl, hsome hentry⟩ hrest

theorem group_matched {entries others : List (κ × β)} (h : Matched R entries others) :
    Matched (List.Forall₂ R) (group lt entries) (group lt others) := by
  induction h with
  | nil => exact .nil
  | @cons p q _ _ hpq _ ih =>
      obtain ⟨head, entry⟩ := p
      obtain ⟨head', entry'⟩ := q
      obtain ⟨hkey, hentry⟩ := hpq
      dsimp only at hkey hentry
      subst hkey
      exact alter_matched (.cons hentry .nil) (fun hrest => .cons hentry hrest) ih

theorem isSome_iff_of_rel {x y : Option β} (h : Option.Rel R x y) : x.isSome ↔ y.isSome := by
  cases h <;> simp

theorem mapOf_matched [DecidableEq κ] (hlt : Strict lt) {entries others : List (κ × β)}
    (h : ∀ key, Option.Rel R (last? entries key) (last? others key)) :
    Matched R (mapOf lt entries) (mapOf lt others) := by
  obtain ⟨hsorted, hmem⟩ := mapOf_spec hlt entries
  obtain ⟨hsorted', hmem'⟩ := mapOf_spec hlt others
  have hiff : ∀ key, (last? entries key).isSome ↔ (last? others key).isSome :=
    fun key => isSome_iff_of_rel (h key)
  have hkeys : (mapOf lt entries).map (·.1) = (mapOf lt others).map (·.1) := by
    refine eq_of_mem_iff hlt (List.pairwise_map.2 hsorted) (List.pairwise_map.2 hsorted') ?_
    simpa [hmem, hmem', Option.isSome_iff_exists] using hiff
  have hlength : (mapOf lt entries).length = (mapOf lt others).length := by
    simpa using congrArg List.length hkeys
  refine List.forall₂_iff_get.2 ⟨hlength, fun i hi hi' => ?_⟩
  have hkey : ((mapOf lt entries).get ⟨i, hi⟩).1 = ((mapOf lt others).get ⟨i, hi'⟩).1 := by
    simpa [hi, hi'] using congrArg (·[i]?) hkeys
  have hfirst := (hmem _ _).1 (List.get_mem (mapOf lt entries) ⟨i, hi⟩)
  have hsecond := (hmem' _ _).1 (List.get_mem (mapOf lt others) ⟨i, hi'⟩)
  have hrel := h ((mapOf lt entries).get ⟨i, hi⟩).1
  rw [hfirst, hkey, hsecond] at hrel
  cases hrel with
  | some hvalues => exact ⟨hkey, hvalues⟩

theorem Matched.keys_eq {map other : List (κ × β)} (h : Matched R map other) :
    map.map (·.1) = other.map (·.1) := by
  induction h with
  | nil => rfl
  | cons hpq _ ih => rw [List.map_cons, List.map_cons, hpq.1, ih]

end Matched

end BinaryCsp.Ascending
