import BinaryCsp.Proofs.Puzzle.Named
import BinaryCsp.Proofs.Representation
import BinaryCsp.Proofs.Text.Order
import BinaryCsp.Puzzle.MapColouring

/-! # The map problem is the map

A map is turned into calls whose solutions are its colourings, region by region. Each listed border
becomes a relation, seen from the region that lists it. A border that is listed again, from the same
side or the other, asks for nothing new.
-/

namespace BinaryCsp.Puzzle

/-! ## Maps -/

namespace MapInput

variable (input : MapInput)

def bordersOf? (region : String) : Option (List String) := Ascending.last? input.borders region

def HasRegion (region : String) : Prop := ∃ others, input.bordersOf? region = some others

def Lists (region border : String) : Prop :=
  ∃ others, input.bordersOf? region = some others ∧ border ∈ others

structure Acceptable : Prop where
  known : ∀ region border, input.Lists region border → input.HasRegion border
  distinct : ∀ region, ¬ input.Lists region region

/-- A way to colour a map: every region has a colour of the list, and two regions of which one
lists the other have different ones. -/
structure Colours (colour : String → String) : Prop where
  listed : ∀ region, input.HasRegion region → colour region ∈ input.colours
  differ : ∀ region other, input.Lists region other ∨ input.Lists other region →
    colour region ≠ colour other

/-! ### The entries that count -/

def entries : List (String × List String) := Ascending.mapOf Text.before input.borders

def regions : List String := input.entries.map (·.1)

variable {region : String}

theorem mem_entries {others : List String} :
    (region, others) ∈ input.entries ↔ input.bordersOf? region = some others :=
  (Ascending.mapOf_spec Text.before_strict input.borders).2 region others

theorem mem_regions : region ∈ input.regions ↔ input.HasRegion region := by
  simp [regions, HasRegion, mem_entries]

theorem nodup_regions : input.regions.Nodup :=
  (Ascending.mapOf_spec Text.before_strict input.borders).1.nodup_keys Text.before_strict

end MapInput

theorem ColouredMap.colourOf?_of_get {c : ColouredMap} {assignment : Assignment String}
    (hassignment : c.report.assignment = some assignment) {region colour : String} {id : VarId}
    (hid : c.map.regions.idxOf? region = some id) (hcolour : assignment.get id = .ok colour) :
    c.colourOf? region = .ok (some colour) := by
  simp only [colourOf?, hid, hassignment, hcolour, Checked.ok_bind, Checked.pure_eq_ok]

namespace MapColouring

/-! ## The calls -/

theorem mem_differentPairs {V : Type} [DecidableEq V] {values : List V} {x y : V} :
    (x, y) ∈ differentPairs values ↔ x ∈ values ∧ y ∈ values ∧ x ≠ y := by
  simp only [differentPairs, List.mem_flatMap, List.mem_map, List.mem_filter, decide_eq_true_eq,
    Prod.mk.injEq]
  constructor
  · rintro ⟨_, hx, _, ⟨hy, hne⟩, rfl, rfl⟩
    exact ⟨hx, hy, Ne.symm hne⟩
  · rintro ⟨hx, hy, hne⟩
    exact ⟨x, hx, y, ⟨hy, Ne.symm hne⟩, rfl, rfl⟩

def Adjoins (borders : List (String × List String)) (a b : VarId) : Prop :=
  ∃ region others border, borders[a]? = some (region, others) ∧ border ∈ others ∧
    (borders.map (·.1)).idxOf? border = some b

section Calls

variable {borders : List (String × List String)} {colours : List String}
  {found : List (Call String)}

theorem borderCall_eq_ok {regions : List String} {region border : String} {a : VarId}
    {call : Call String} :
    borderCall regions colours region a border = .ok call ↔
      ∃ b, regions.idxOf? border = some b ∧ a ≠ b ∧
        call = .relation a b (differentPairs colours) := by
  unfold borderCall
  cases hborder : regions.idxOf? border with
  | none => simp
  | some b =>
      by_cases hself : a = b
      · simp [hself]
      · simp [hself, eq_comm]

theorem exists_calls_iff :
    (∃ found, calls borders colours = .ok found) ↔
      ∀ (a : VarId) region others, borders[a]? = some (region, others) → ∀ border ∈ others,
        ∃ b, (borders.map (·.1)).idxOf? border = some b ∧ a ≠ b := by
  simp only [calls, Checked.bind_eq_ok, Checked.pure_eq_ok]
  rw [exists_comm]
  simp only [exists_and_left, Except.ok.injEq, exists_eq', and_true,
    Checked.exists_mapM_eq_ok_iff, borderCall_eq_ok, Prod.forall, List.mem_zipIdx_iff_getElem?]
  constructor
  · intro h a region others hentry border hborder
    obtain ⟨_, b, hb, hne, _⟩ := h region others a hentry border hborder
    exact ⟨b, hb, hne⟩
  · intro h region others a hentry border hborder
    obtain ⟨b, hb, hne⟩ := h a region others hentry border hborder
    exact ⟨_, b, hb, hne, rfl⟩

theorem calls_eq_ok (h : calls borders colours = .ok found) :
    ∃ relations, found = (borders.map fun _ => colours).map .newVariable ++ relations ∧
      ∀ call, call ∈ relations ↔
        ∃ a b, Adjoins borders a b ∧ a ≠ b ∧ call = .relation a b (differentPairs colours) := by
  obtain ⟨relations, hrelations, h⟩ := Checked.bind_eq_ok.1 h
  refine ⟨relations.flatten, ?_, fun call => ?_⟩
  · rw [← Except.ok.inj h, List.map_map, List.map_map]
    rfl
  · have hmem := Checked.mem_of_mapM_eq_ok hrelations
    simp only [List.mem_flatten, hmem, Prod.exists, List.mem_zipIdx_iff_getElem?]
    constructor
    · rintro ⟨made, ⟨region, others, a, hentry, hmade⟩, hcall⟩
      obtain ⟨border, hborder, hcall⟩ := (Checked.mem_of_mapM_eq_ok hmade call).1 hcall
      obtain ⟨b, hb, hne, rfl⟩ := borderCall_eq_ok.1 hcall
      exact ⟨a, b, ⟨region, others, border, hentry, hborder, hb⟩, hne, rfl⟩
    · rintro ⟨a, b, ⟨region, others, border, hentry, hborder, hb⟩, hne, rfl⟩
      have hall := Checked.exists_mapM_eq_ok_iff.1 ⟨_, hrelations⟩ ((region, others), a)
        (List.mem_zipIdx_iff_getElem?.2 hentry)
      obtain ⟨made, hmade⟩ := hall
      refine ⟨made, ⟨region, others, a, hentry, hmade⟩, ?_⟩
      exact (Checked.mem_of_mapM_eq_ok hmade _).2
        ⟨border, hborder, borderCall_eq_ok.2 ⟨b, hb, hne, rfl⟩⟩

theorem domains_calls (h : calls borders colours = .ok found) :
    Call.domains found = borders.map fun _ => colours := by
  obtain ⟨relations, rfl, hmem⟩ := calls_eq_ok h
  refine Call.domains_newVariable_append _ fun call hcall => ?_
  obtain ⟨_, _, _, _, rfl⟩ := (hmem call).1 hcall
  nofun

theorem relation_mem_calls (h : calls borders colours = .ok found) {a b : VarId}
    {allowed : List (String × String)} :
    .relation a b allowed ∈ found ↔
      Adjoins borders a b ∧ a ≠ b ∧ allowed = differentPairs colours := by
  obtain ⟨relations, rfl, hmem⟩ := calls_eq_ok h
  simp only [List.mem_append, List.mem_map, reduceCtorEq, and_false, exists_false, false_or, hmem,
    Call.relation.injEq]
  constructor
  · rintro ⟨_, _, hadjoins, hne, rfl, rfl, rfl⟩
    exact ⟨hadjoins, hne, rfl⟩
  · rintro ⟨hadjoins, hne, rfl⟩
    exact ⟨a, b, hadjoins, hne, rfl, rfl, rfl⟩

theorem Adjoins.lt {a b : VarId} (h : Adjoins borders a b) :
    a < borders.length ∧ b < borders.length := by
  obtain ⟨_, _, _, hentry, _, hb⟩ := h
  have hlt := (List.idxOf?_eq_some_iff.1 hb).1
  rw [List.length_map] at hlt
  exact ⟨(List.getElem?_eq_some_iff.1 hentry).1, hlt⟩

theorem calls_acceptable (h : calls borders colours = .ok found) : Call.Acceptable found := by
  obtain ⟨relations, rfl, hmem⟩ := calls_eq_ok h
  refine Call.acceptable_newVariable_append fun call hcall => ?_
  obtain ⟨a, b, hadjoins, hne, rfl⟩ := (hmem call).1 hcall
  have hcolours : ∀ {c : VarId}, c < borders.length →
      (borders.map fun _ => colours)[c]? = some colours := by
    intro c hc
    rw [List.getElem?_map, List.getElem?_eq_getElem hc]
    rfl
  refine ⟨a, b, _, colours, colours, rfl, hne, hcolours hadjoins.lt.1, hcolours hadjoins.lt.2,
    fun x y hin => ?_⟩
  obtain ⟨hx, hy, _⟩ := mem_differentPairs.1 hin
  exact ⟨hx, hy⟩

end Calls

/-! ## Solutions -/

section Solutions

variable {input : MapInput} {found : List (Call String)} {colour : String → String}

theorem idxOf?_regions {region : String} {b : VarId} :
    (input.entries.map (·.1)).idxOf? region = some b ↔ input.regions[b]? = some region :=
  idxOf?_eq_some_of_nodup input.nodup_regions

theorem getElem?_regions {a : VarId} {region : String} {others : List String}
    (h : input.entries[a]? = some (region, others)) : input.regions[a]? = some region := by
  rw [MapInput.regions, List.getElem?_map, h]
  rfl

theorem adjoins_iff {a b : VarId} :
    Adjoins input.entries a b ↔ ∃ region border, input.regions[a]? = some region ∧
      input.regions[b]? = some border ∧ input.Lists region border := by
  simp only [Adjoins, idxOf?_regions]
  constructor
  · rintro ⟨region, others, border, hentry, hborder, hb⟩
    exact ⟨region, border, getElem?_regions hentry, hb, others,
      input.mem_entries.1 (List.mem_of_getElem? hentry), hborder⟩
  · rintro ⟨region, border, ha, hb, others, hothers, hborder⟩
    obtain ⟨i, hentry⟩ := List.getElem?_of_mem (input.mem_entries.2 hothers)
    have hi := getElem?_regions hentry
    obtain rfl : i = a :=
      (List.getElem?_inj (List.getElem?_eq_some_iff.1 hi).1 input.nodup_regions).1
        (hi.trans ha.symm)
    exact ⟨region, others, border, hentry, hborder, hb⟩

theorem exists_calls_iff_acceptable :
    (∃ found, calls input.entries input.colours = .ok found) ↔ input.Acceptable := by
  simp only [exists_calls_iff, idxOf?_regions]
  constructor
  · intro h
    constructor
    · rintro region border ⟨others, hothers, hborder⟩
      obtain ⟨a, ha⟩ := List.getElem?_of_mem (input.mem_entries.2 hothers)
      obtain ⟨b, hb, _⟩ := h a region others ha border hborder
      exact input.mem_regions.1 (List.mem_of_getElem? hb)
    · rintro region ⟨others, hothers, hborder⟩
      obtain ⟨a, ha⟩ := List.getElem?_of_mem (input.mem_entries.2 hothers)
      obtain ⟨b, hb, hne⟩ := h a region others ha region hborder
      have hlt := (List.getElem?_eq_some_iff.1 hb).1
      exact hne ((List.getElem?_inj hlt input.nodup_regions).1
        (hb.trans (getElem?_regions ha).symm)).symm
  · intro h a region others hentry border hborder
    have hlists : input.Lists region border :=
      ⟨others, input.mem_entries.1 (List.mem_of_getElem? hentry), hborder⟩
    obtain ⟨b, hb⟩ := List.getElem?_of_mem (input.mem_regions.2 (h.known region border hlists))
    refine ⟨b, hb, ?_⟩
    rintro rfl
    obtain rfl := Option.some.inj ((getElem?_regions hentry).symm.trans hb)
    exact h.distinct region hlists

/-- The colours of the regions solve the calls exactly when they colour the map. -/
theorem solution_iff_colours (hfound : calls input.entries input.colours = .ok found) :
    Call.Solution found (input.regions.map colour) ↔ input.Colours colour := by
  have hlisted : List.Forall₂ (fun value domain => value ∈ domain) (input.regions.map colour)
      (Call.domains found) ↔ ∀ region, input.HasRegion region → colour region ∈ input.colours := by
    simp only [domains_calls hfound, MapInput.regions, List.map_map, List.forall₂_map_left_iff,
      List.forall₂_map_right_iff, List.forall₂_same, ← input.mem_regions, List.mem_map]
    simp
  have hget : ∀ {a : VarId} {region : String}, input.regions[a]? = some region →
      (input.regions.map colour)[a]? = some (colour region) := by
    intro a region ha
    rw [List.getElem?_map, ha]
    rfl
  have haccepted := exists_calls_iff_acceptable.1 ⟨found, hfound⟩
  constructor
  · intro h
    have hdiffer : ∀ region border, input.Lists region border → colour region ≠ colour border := by
      intro region border hlists
      have hregion : input.HasRegion region := hlists.imp fun _ h => h.1
      obtain ⟨a, ha⟩ := List.getElem?_of_mem (input.mem_regions.2 hregion)
      obtain ⟨b, hb⟩ :=
        List.getElem?_of_mem (input.mem_regions.2 (haccepted.known region border hlists))
      have hne : a ≠ b := by
        rintro rfl
        obtain rfl := Option.some.inj (ha.symm.trans hb)
        exact haccepted.distinct region hlists
      obtain ⟨x, y, hx, hy, hin⟩ := h.related ((relation_mem_calls hfound).2
        ⟨adjoins_iff.2 ⟨region, border, ha, hb, hlists⟩, hne, rfl⟩)
      obtain rfl := Option.some.inj ((hget ha).symm.trans hx)
      obtain rfl := Option.some.inj ((hget hb).symm.trans hy)
      exact (mem_differentPairs.1 hin).2.2
    refine ⟨hlisted.1 h.candidates, fun region other hlists => ?_⟩
    exact hlists.elim (hdiffer region other) fun h => (hdiffer other region h).symm
  · intro h
    refine ⟨hlisted.2 h.listed, fun hcall => ?_⟩
    obtain ⟨hadjoins, _, rfl⟩ := (relation_mem_calls hfound).1 hcall
    obtain ⟨region, border, ha, hb, hlists⟩ := adjoins_iff.1 hadjoins
    refine ⟨_, _, hget ha, hget hb, mem_differentPairs.2 ⟨?_, ?_, ?_⟩⟩
    · exact h.listed region (input.mem_regions.1 (List.mem_of_getElem? ha))
    · exact h.listed border (input.mem_regions.1 (List.mem_of_getElem? hb))
    · exact h.differ region border (.inl hlists)

end Solutions

/-! ## Solving a map -/

theorem ofInput_eq_ok {input : MapInput} {map : MapColouring} :
    ofInput input = .ok map ↔ ∃ found p, calls input.entries input.colours = .ok found ∧
      Problem.ofCalls found = .ok p ∧ map = ⟨input.name, input.regions, p⟩ := by
  rw [ofInput, Checked.bind_eq_ok]
  refine exists_congr fun found => ?_
  rw [Checked.bind_eq_ok, ← exists_and_left]
  refine exists_congr fun p => and_congr_right' (and_congr_right' ?_)
  rw [Checked.pure_eq_ok, Except.ok.injEq, eq_comm]
  rfl

theorem exists_ofInput_iff {input : MapInput} :
    (∃ map, ofInput input = .ok map) ↔ input.Acceptable := by
  rw [← exists_calls_iff_acceptable]
  constructor
  · rintro ⟨map, hmap⟩
    obtain ⟨found, _, hfound, _⟩ := ofInput_eq_ok.1 hmap
    exact ⟨found, hfound⟩
  · rintro ⟨found, hfound⟩
    obtain ⟨p, hp⟩ := Problem.exists_ofCalls_iff.2 (calls_acceptable hfound)
    exact ⟨_, ofInput_eq_ok.2 ⟨found, p, hfound, hp, rfl⟩⟩

/-- A map is accepted exactly when every border that is listed is another region. Solving it always
comes to an end, with a colouring exactly when there is one, and then every region is told its
colour in one. -/
theorem solve_colours (input : MapInput) :
    ((∃ map, ofInput input = .ok map) ↔ input.Acceptable) ∧
      ∀ map, ofInput input = .ok map → ∀ config : Config,
        ∃ solved, map.solve config = .ok solved ∧
          (solved.report.isSolved = true ↔ ∃ colour, input.Colours colour) ∧
          (solved.report.isSolved = true → ∃ colour, input.Colours colour ∧
            ∀ region, input.HasRegion region →
              solved.colourOf? region = .ok (some (colour region))) := by
  refine ⟨exists_ofInput_iff, fun map hmap config => ?_⟩
  obtain ⟨found, p, hfound, hp, rfl⟩ := ofInput_eq_ok.1 hmap
  have hcount : (Call.domains found).length = input.regions.length := by
    rw [domains_calls hfound, List.length_map, MapInput.regions, List.length_map]
  obtain ⟨report, hsolve, hsolved, hreported⟩ := Problem.exists_named_report hp
    input.nodup_regions hcount (fun _ => solution_iff_colours hfound) config
  refine ⟨⟨⟨input.name, input.regions, p⟩, report⟩, ?_, hsolved, fun hreport => ?_⟩
  · rw [solve, hsolve]
    rfl
  · obtain ⟨assignment, colour, hassignment, hcolour, hvalues⟩ := hreported hreport
    refine ⟨colour, hcolour, fun region hregion => ?_⟩
    obtain ⟨id, hid⟩ := List.getElem?_of_mem (input.mem_regions.2 hregion)
    exact ColouredMap.colourOf?_of_get hassignment (idxOf?_regions.2 hid)
      (Assignment.get_of_eq_map hvalues hid)

/-- Borders from both sides and twice over, and a colour that is listed twice. -/
def coast : MapInput where
  name := "coast"
  borders := [("Shore", []), ("Hills", ["Shore", "Lake", "Lake"]), ("Lake", ["Hills", "Shore"]),
    ("Shore", ["Hills"]), ("Island", [])]
  colours := ["Red", "Green", "Red", "Blue"]

theorem entries_coast : coast.entries = [("Hills", ["Shore", "Lake", "Lake"]), ("Island", []),
    ("Lake", ["Hills", "Shore"]), ("Shore", ["Hills"])] := by
  decide

def paint (region : String) : String :=
  if region = "Shore" then "Red" else if region = "Hills" then "Blue" else "Green"

theorem borders_coast {region border : String} (h : coast.Lists region border) :
    region ≠ border ∧ border ∈ coast.regions ∧ paint region ≠ paint border := by
  have hcheck : ∀ entry ∈ coast.entries, ∀ border ∈ entry.2,
      entry.1 ≠ border ∧ border ∈ coast.regions ∧ paint entry.1 ≠ paint border := by
    rw [MapInput.regions, entries_coast]
    decide
  obtain ⟨others, hothers, hborder⟩ := h
  exact hcheck (region, others) (coast.mem_entries.2 hothers) border hborder

theorem colours_coast : coast.Colours paint := by
  constructor
  · intro region _
    unfold paint
    split
    · decide
    · split <;> decide
  · intro region other hlists
    exact hlists.elim (fun h => (borders_coast h).2.2) fun h => (borders_coast h).2.2.symm

theorem solve_colours_coast :
    ∃ map solved colour, ofInput coast = .ok map ∧ map.solve .standard = .ok solved ∧
      coast.Colours colour ∧ solved.colourOf? "Lake" = .ok (some (colour "Lake")) ∧
      colour "Lake" ≠ colour "Hills" ∧ colour "Lake" ≠ colour "Shore" := by
  obtain ⟨haccepted, hsolve⟩ := solve_colours coast
  have hacceptable : coast.Acceptable :=
    ⟨fun _ _ h => coast.mem_regions.1 (borders_coast h).2.1, fun _ h => (borders_coast h).1 rfl⟩
  obtain ⟨map, hmap⟩ := haccepted.2 hacceptable
  obtain ⟨solved, hsolved, hiff, hcolours⟩ := hsolve map hmap .standard
  obtain ⟨colour, hcolour, hreported⟩ := hcolours (hiff.2 ⟨paint, colours_coast⟩)
  have hlake : coast.bordersOf? "Lake" = some ["Hills", "Shore"] := by decide
  exact ⟨map, solved, colour, hmap, hsolved, hcolour, hreported "Lake" ⟨_, hlake⟩,
    hcolour.differ "Lake" "Hills" (.inl ⟨_, hlake, by decide⟩),
    hcolour.differ "Lake" "Shore" (.inl ⟨_, hlake, by decide⟩)⟩

end MapColouring

end BinaryCsp.Puzzle
