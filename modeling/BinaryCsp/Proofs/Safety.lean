import BinaryCsp.Proofs.Representation
import BinaryCsp.Proofs.Solver

/-! # Nothing goes out of range

`Builder.build` gives the tables of a model as wholes. `Builder.fill` makes the same tables entry by
entry, in the order of the description, with every read and write checked: it never breaks off, and
it comes to the same outcome. So does every search on the model that is made, whose report names
relations of the model only.
-/

namespace BinaryCsp

variable {V : Type}

namespace Checked

variable {α : Type} {table : Array α} {index : Nat}

def modify (table : Array α) (index : Nat) (f : α → α) : Checked (Array α) := do
  set table index (f (← get table index))

theorem modify_of_lt (h : index < table.size) (f : α → α) :
    modify table index f = .ok (table.modify index f) := by
  rw [modify, get_of_lt h, ok_bind, set_of_lt h, Except.ok.injEq]
  apply Array.ext_getElem?
  intro i
  rw [Array.getElem?_set, Array.getElem?_modify]
  by_cases hi : index = i
  · subst hi
    simp [h]
  · simp [hi]

theorem replicate_eq_range_map {count : Nat} {f : Nat → α} {entry : α} (h : ∀ i, f i = entry) :
    Array.replicate count entry = (Array.range count).map f := by
  apply Array.ext_getElem?
  intro i
  by_cases hi : i < count <;> simp [hi, h]

theorem modify_range_map {count : Nat} {f g : Nat → α} {change : α → α} (h : index < count)
    (hat : change (f index) = g index) (hother : ∀ i, i ≠ index → f i = g i) :
    modify ((Array.range count).map f) index change = .ok ((Array.range count).map g) := by
  rw [modify_of_lt (by simpa using h), Except.ok.injEq]
  apply Array.ext_getElem?
  intro i
  rw [Array.getElem?_modify]
  by_cases hi : index = i
  · subst hi
    simp [h, hat]
  · by_cases hlt : i < count <;> simp [hi, hlt, hother i (Ne.symm hi)]

theorem modify_twice_range_map {count first second : Nat} {f g : Nat → α} {change change' : α → α}
    (hfirst : first < count) (hsecond : second < count) (hne : first ≠ second)
    (hat : change (f first) = g first) (hat' : change' (f second) = g second)
    (hother : ∀ i, i ≠ first → i ≠ second → f i = g i) :
    (modify ((Array.range count).map f) first change >>= (modify · second change')) =
      .ok ((Array.range count).map g) := by
  let halfway (i : Nat) : α := if i = first then g i else f i
  have hhalf : modify ((Array.range count).map f) first change =
      .ok ((Array.range count).map halfway) := by
    refine modify_range_map hfirst ?_ fun i hi => ?_
    · simp only [halfway, if_true, hat]
    · simp only [halfway, hi, if_false]
  rw [hhalf, ok_bind]
  refine modify_range_map hsecond ?_ fun i hi => ?_
  · simp only [halfway, Ne.symm hne, if_false, hat']
  · by_cases hia : i = first
    · simp only [halfway, hia, if_true]
    · simp only [halfway, hia, if_false, hother i hia hi]

end Checked

/-! ## Filling the tables of a model -/

namespace Builder

def joinEnds (table : Array (List VarId)) (edge : VarId × VarId) :
    Checked (Array (List VarId)) := do
  let table ← Checked.modify table edge.1 (Ascending.insert Ascending.natLt edge.2)
  Checked.modify table edge.2 (Ascending.insert Ascending.natLt edge.1)

/-- Checks each edge and lets its ends know of each other, up to the first edge that fails. -/
def fillNeighbours (count : Nat) :
    List (VarId × VarId) → Array (List VarId) → Checked (Except ModelError (Array (List VarId)))
  | [], table => return .ok table
  | edge :: rest, table =>
    match checkEdge count edge with
    | .error error => return .error error
    | .ok () => do fillNeighbours count rest (← joinEnds table edge)

def fillRows : List (ValId × ValId) → Relation → Checked Relation
  | [], relation => return relation
  | (a, b) :: rest, ⟨pair, forward, backward⟩ => do
    let forward ← Checked.modify forward a fun row => (row.insert b).2
    let backward ← Checked.modify backward b fun row => (row.insert a).2
    fillRows rest ⟨pair, forward, backward⟩

def noPairs (pair : VarPair) (valueCount : Nat) : Relation :=
  ⟨pair, Array.replicate valueCount (.empty valueCount),
    Array.replicate valueCount (.empty valueCount)⟩

def joinLinks (table : Array (List Link)) (pair : VarPair) (id : RelationId) :
    Checked (Array (List Link)) := do
  let table ← Checked.modify table pair.lower (· ++ [⟨pair.higher, id, false⟩])
  Checked.modify table pair.higher (· ++ [⟨pair.lower, id, true⟩])

structure Entered where
  relations : Array Relation
  pairIndex : List (VarPair × RelationId)
  links : Array (List Link)

variable [DecidableEq V]

/-- Makes the relation of each pair and enters it with its number and its links, up to the first
pair with an unknown value. -/
def fillRelations (values : ValueTable V) :
    List (VarPair × List (List (V × V))) → Entered → Checked (Except ModelError Entered)
  | [], entered => return .ok entered
  | (pair, tables) :: rest, ⟨relations, pairIndex, links⟩ =>
    match tables.mapM (·.mapM (idsOf? values)) with
    | none => return .error (.unknownValue pair.lower pair.higher)
    | some tables => do
      let id := relations.size
      let relation ← fillRows (inAll values.size tables) (noPairs pair values.size)
      let links ← joinLinks links pair id
      fillRelations values rest ⟨relations.push relation, pairIndex ++ [(pair, id)], links⟩

/-- Checks the description and makes the problem entry by entry. The links of a variable are
put in order at the end. -/
def fill (b : Builder V) : Checked (Except ModelError (Problem V)) := do
  let count := b.variableCount
  match ← fillNeighbours count b.edges.toList (Array.replicate count []) with
  | .error error => return .error error
  | .ok neighbours =>
    let groups := Ascending.group VarPair.before b.tables.toList
    match ← fillRelations b.values groups ⟨#[], [], Array.replicate count []⟩ with
    | .error error => return .error error
    | .ok ⟨relations, pairIndex, links⟩ =>
      return .ok {
        values := b.values
        model := {
          valueCount := b.values.size
          neighbours := neighbours
          domains := b.domains.map (BitSet.ofList b.values.size)
          relations := relations
          pairIndex := pairIndex
          links := links.map fun list => list.mergeSort fun l k => l.other ≤ k.other } }

/-! ## Filling is building -/

omit [DecidableEq V] in
/-- An end of a new edge gets the other end as a neighbour. -/
theorem insert_adjacent {edges : List (VarId × VarId)} {edge : VarId × VarId} {var other : VarId}
    (hedge : edge = (var, other) ∨ edge = (other, var)) :
    Ascending.insert Ascending.natLt other (adjacent edges var) =
      adjacent (edges ++ [edge]) var := by
  have hlt := Ascending.natLt_strict
  refine Ascending.eq_of_mem_iff hlt
    (Ascending.insert_ascending hlt _ (Ascending.ofList_ascending hlt _))
    (Ascending.ofList_ascending hlt _) fun key => ?_
  simp only [Ascending.mem_insert hlt, mem_adjacent, List.mem_append, List.mem_singleton]
  rcases hedge with rfl | rfl <;> simp only [Prod.mk.injEq] <;> grind

omit [DecidableEq V] in
theorem adjacent_append_of_ne {edges : List (VarId × VarId)} {a b var : VarId} (ha : var ≠ a)
    (hb : var ≠ b) : adjacent edges var = adjacent (edges ++ [(a, b)]) var := by
  simp [adjacent, Ne.symm ha, Ne.symm hb]

omit [DecidableEq V] in
theorem joinEnds_eq {count : Nat} {edges : List (VarId × VarId)} {edge : VarId × VarId}
    (hfirst : edge.1 < count) (hsecond : edge.2 < count) (hne : edge.1 ≠ edge.2) :
    joinEnds ((Array.range count).map (adjacent edges)) edge =
      .ok ((Array.range count).map (adjacent (edges ++ [edge]))) := by
  exact Checked.modify_twice_range_map hfirst hsecond hne (insert_adjacent (.inl rfl))
    (insert_adjacent (.inr rfl)) fun i hi hi' => adjacent_append_of_ne hi hi'

omit [DecidableEq V] in
theorem fillNeighbours_eq (count : Nat) (rest done : List (VarId × VarId)) :
    fillNeighbours count rest ((Array.range count).map (adjacent done)) =
      .ok ((rest.forM (checkEdge count)).map fun _ =>
        (Array.range count).map (adjacent (done ++ rest))) := by
  induction rest generalizing done with
  | nil => simp [fillNeighbours, Except.map]
  | cons edge rest ih =>
      rw [fillNeighbours, List.forM]
      cases hcheck : checkEdge count edge with
      | error error => rfl
      | ok _ =>
          obtain ⟨hfirst, hsecond, hne⟩ := checkEdge_eq_ok.1 hcheck
          simp only [joinEnds_eq hfirst hsecond hne, Checked.ok_bind, ih, List.append_assoc,
            List.singleton_append]

omit [DecidableEq V] in
theorem fillRows_eq {valueCount : Nat} {pairs : List (ValId × ValId)} {relation : Relation}
    (hpairs : ∀ p ∈ pairs, p.1 < valueCount ∧ p.2 < valueCount)
    (hforward : relation.forward.size = valueCount)
    (hbackward : relation.backward.size = valueCount) :
    fillRows pairs relation = .ok ⟨relation.pair,
      pairs.foldl (fun table pair => table.modify pair.1 fun row => (row.insert pair.2).2)
        relation.forward,
      (pairs.map Prod.swap).foldl
        (fun table pair => table.modify pair.1 fun row => (row.insert pair.2).2)
        relation.backward⟩ := by
  induction pairs generalizing relation with
  | nil => rfl
  | cons pair rest ih =>
      obtain ⟨a, b⟩ := pair
      obtain ⟨pair, forward, backward⟩ := relation
      obtain ⟨ha, hb⟩ := hpairs (a, b) (by simp)
      dsimp only at hforward hbackward ha hb
      rw [fillRows, Checked.modify_of_lt (by rwa [hforward]), Checked.ok_bind,
        Checked.modify_of_lt (by rwa [hbackward]), Checked.ok_bind,
        ih (fun p hp => hpairs p (List.mem_cons_of_mem _ hp)) (by simpa using hforward)
          (by simpa using hbackward)]
      rfl

omit [DecidableEq V] in
theorem fillRows_noPairs (pair : VarPair) {valueCount : Nat} {pairs : List (ValId × ValId)}
    (hpairs : ∀ p ∈ pairs, p.1 < valueCount ∧ p.2 < valueCount) :
    fillRows pairs (noPairs pair valueCount) = .ok (.ofPairs pair valueCount pairs) := by
  rw [fillRows_eq hpairs (by simp [noPairs]) (by simp [noPairs])]
  rfl

omit [DecidableEq V] in
theorem linksOf_concat (relations : List Relation) (relation : Relation) (var : VarId) :
    linksOf (relations ++ [relation]) var =
      linksOf relations var ++ (linkOf? var (relation, relations.length)).toList := by
  unfold linksOf
  rw [List.zipIdx_append, List.filterMap_append]
  cases hlink : linkOf? var (relation, relations.length) <;> simp [hlink]

omit [DecidableEq V] in
theorem pairsOf_concat (relations : List Relation) (relation : Relation) :
    pairsOf (relations ++ [relation]) =
      pairsOf relations ++ [(relation.pair, relations.length)] := by
  simp [pairsOf, List.zipIdx_append]

omit [DecidableEq V] in
theorem joinLinks_eq {count : Nat} (relations : List Relation) {relation : Relation}
    (hlt : relation.pair.lower < relation.pair.higher) (hhigher : relation.pair.higher < count) :
    joinLinks ((Array.range count).map (linksOf relations)) relation.pair relations.length =
      .ok ((Array.range count).map (linksOf (relations ++ [relation]))) := by
  have hne := Nat.ne_of_lt hlt
  refine Checked.modify_twice_range_map (Nat.lt_trans hlt hhigher) hhigher hne ?_ ?_
    fun i hi hi' => ?_
  · rw [linksOf_concat]
    simp [linkOf?]
  · rw [linksOf_concat]
    simp [linkOf?, hne]
  · rw [linksOf_concat]
    simp [linkOf?, Ne.symm hi, Ne.symm hi']

def Entered.ofList (count : Nat) (relations : List Relation) : Entered :=
  ⟨relations.toArray, pairsOf relations, (Array.range count).map (linksOf relations)⟩

theorem fillRelations_eq {values : ValueTable V} (hv : values.Distinct) {count : Nat}
    (rest : List (VarPair × List (List (V × V)))) (done : List Relation)
    (hrest : ∀ entry ∈ rest, entry.1.lower < entry.1.higher ∧ entry.1.higher < count) :
    fillRelations values rest (.ofList count done) =
      .ok ((rest.mapM (relate values)).map fun more => .ofList count (done ++ more)) := by
  induction rest generalizing done with
  | nil => simp [fillRelations, Except.map]
  | cons entry rest ih =>
      obtain ⟨pair, source⟩ := entry
      obtain ⟨hlt, hhigher⟩ := hrest (pair, source) (by simp)
      rw [Entered.ofList, fillRelations, List.mapM_cons, relate]
      cases htables : source.mapM (·.mapM (idsOf? values)) with
      | none => rfl
      | some tables =>
          generalize hrelation :
            Relation.ofPairs pair values.size (inAll values.size tables) = relation
          obtain rfl : relation.pair = pair := by rw [← hrelation]; rfl
          have hrows := fillRows_noPairs relation.pair (inAll_lt (ids_lt hv htables))
          have hlinks := joinLinks_eq done hlt hhigher
          have hrun := ih (done ++ [relation]) fun e he => hrest e (List.mem_cons_of_mem _ he)
          rw [Entered.ofList, pairsOf_concat] at hrun
          simp only [hrows, hrelation, Checked.ok_bind, List.size_toArray, hlinks,
            List.push_toArray, hrun]
          cases rest.mapM (relate values) with
          | error error => rfl
          | ok more => simp [Except.map]

omit [DecidableEq V] in
/-- In a description whose edges pass their check, the groups of tables are between different
variables. -/
theorem group_lt {calls : List (Call V)} {b : Builder V} (h : Describes calls b)
    (hedges : ∀ edge ∈ b.edges.toList, checkEdge b.variableCount edge = .ok ()) :
    ∀ entry ∈ Ascending.group VarPair.before b.tables.toList,
      entry.1.lower < entry.1.higher ∧ entry.1.higher < b.variableCount := by
  rintro ⟨pair, tables⟩ hentry
  obtain ⟨rfl, hne⟩ := ((Ascending.group_spec before_strict b.tables.toList).2 _ _).1 hentry
  obtain ⟨table, htable⟩ := List.exists_mem_of_ne_nil _ hne
  obtain ⟨x, y, allowed, hcall, hpair⟩ := (h.tables _).1 (Ascending.mem_entriesOf.1 htable)
  obtain ⟨rfl, _⟩ := Prod.mk.inj hpair
  exact h.endpoints_lt hedges hcall

/-- Links that are filled in by ascending pair need no sorting. -/
theorem Completes.sort_links {calls : List (Call V)} {b : Builder V} {relations : List Relation}
    (h : Completes calls b relations) (var : VarId) :
    (linksOf relations var).mergeSort (fun l k => l.other ≤ k.other) = linksOf relations var := by
  refine List.mergeSort_of_pairwise ((linksOf_ascending h.ascending (fun r hr => ?_) var).imp ?_)
  · obtain ⟨id, hid⟩ := List.getElem?_of_mem hr
    exact (h.ordered hid).1
  · intro l k hlt
    exact decide_eq_true (Nat.le_of_lt hlt)

/-- Filling the tables of a description never breaks off, and makes what building makes. -/
theorem fill_eq_build (calls : List (Call V)) :
    (ofCalls calls).fill = .ok (ofCalls calls).build := by
  have hd := describes_ofCalls calls
  generalize ofCalls calls = b at hd ⊢
  have hblank : ∀ var, adjacent [] var = [] := fun _ => rfl
  have hnone : (⟨#[], [], Array.replicate b.variableCount []⟩ : Entered) =
      .ofList b.variableCount [] := by
    rw [Checked.replicate_eq_range_map fun _ => rfl, Entered.ofList]
    rfl
  rw [fill, build]
  simp only [Checked.replicate_eq_range_map hblank, fillNeighbours_eq, Checked.ok_bind,
    List.nil_append]
  cases hcheck : b.edges.toList.forM (checkEdge b.variableCount) with
  | error error => rfl
  | ok _ =>
      have hedges := checkEdges_eq_ok.1 hcheck
      have hrun := fillRelations_eq hd.distinct _ [] (group_lt hd hedges)
      simp only [hnone, Except.map, hrun, Checked.ok_bind, List.nil_append]
      cases hrelations :
          (Ascending.group VarPair.before b.tables.toList).mapM (relate b.values) with
      | error error => rfl
      | ok relations =>
          have h : Completes calls b relations := ⟨hd, hedges, Checked.mapM_eq_ok.1 hrelations⟩
          simp [Entered.ofList, h.sort_links]

end Builder

/-! ## Searching a built model -/

theorem Stats.lt_of_mem_ofCounters {c : Counters} {entry : RelationId × RelationStats}
    (h : entry ∈ (Stats.ofCounters c).relations) : entry.1 < c.tallies.size := by
  obtain ⟨⟨tally, id⟩, hin, hentry⟩ := List.mem_filterMap.1 h
  have hlt := List.snd_lt_of_mem_zipIdx hin
  by_cases hnone : tally.revisions = 0
  · simp [hnone] at hentry
  · simp only [hnone, if_false, Option.some.injEq] at hentry
    simpa [← hentry] using hlt

namespace Search

variable {m : Model} {config : Config}

/-- A part of a search keeps one tally for each relation. -/
theorem Explores.tallies_size (hm : m.WellFormed) {task : Task} {nodes : List State} {moves : Nat}
    {result : Result} (h : Explores m config task nodes moves result) (hvalid : task.Valid m) :
    result.2.counters.tallies.size = m.relations.size := by
  induction h with
  | leaf empty solution =>
      exact (State.Restored.of_solution? solution).1.size.trans hvalid.1.tallies
  | branch nonempty choose order below ih =>
      exact ih (branches_of_choose hm hvalid.1 hvalid.2 nonempty choose order).1
  | exhausted release =>
      exact (Branches.released hvalid release).1.size.trans (Branches.sound hvalid).tallies
  | @failed _ _ _ t _ _ _ _ _ _ _ tried abandon next ih =>
      exact ih (Branches.next hvalid (Branches.tried hm hvalid tried) (.refl t) abandon).1
  | found tried below ih => exact ih (Branches.child hvalid (Branches.tried hm hvalid tried))
  | back tried below abandon next ihbelow ihnext =>
      have ht := Branches.tried hm hvalid tried
      have hu := below.restored hm (Branches.child hvalid ht) rfl
      exact ihnext (Branches.next hvalid ht hu abandon).1

theorem solve_relations_lt (hm : m.WellFormed) {driver : Driver} {run : Run}
    (h : Strategy.solve ⟨driver, config⟩ m = .ok run) :
    ∀ entry ∈ run.stats.relations, entry.1 < m.relations.size := by
  intro entry hentry
  rcases solve_cases hm config driver with
    ⟨root, hprepare, hsolve, _⟩ | ⟨root, nodes, moves, result, _, hvalid, hrun, hsolve, _⟩
  · obtain rfl := Except.ok.inj (hsolve.symm.trans h)
    obtain ⟨_, _, _, hrevised⟩ := State.prepare_frame hm (State.initial_sound config hm) hprepare
    have hsize := hrevised.size.trans (State.initial_sound config hm).tallies
    exact hsize ▸ Stats.lt_of_mem_ofCounters hentry
  · obtain rfl := Except.ok.inj (hsolve.symm.trans h)
    exact hrun.tallies_size hm hvalid ▸ Stats.lt_of_mem_ofCounters hentry

end Search

section Values

variable [DecidableEq V]

/-- No description makes the building of its problem break off, and no search of the problem breaks
off, whatever the driver and the switches. The relations that a report names are relations of the
model. -/
theorem Solver.build_and_solve_in_range (calls : List (Call V)) :
    (Builder.ofCalls calls).fill = .ok (Problem.ofCalls calls) ∧
      ∀ p, Problem.ofCalls calls = .ok p → ∀ strategy : Strategy,
        ∃ report, Solver.solve ⟨p, strategy⟩ = .ok report ∧
          ∀ entry ∈ report.stats.relations, entry.1 < p.model.relations.size := by
  refine ⟨Builder.fill_eq_build calls, fun p hp strategy => ?_⟩
  have hfaithful := Problem.faithful_of_ofCalls hp
  obtain ⟨run, report, hrun, hsolve, hstats, _⟩ := hfaithful.exists_report strategy
  refine ⟨report, hsolve, ?_⟩
  rw [hstats]
  exact Search.solve_relations_lt hfaithful.wellFormed hrun

theorem Solver.build_and_solve_in_range_chain :
    ∃ p report, (Builder.ofCalls Call.ascendingChain).fill = .ok (.ok p) ∧
      Solver.solve ⟨p, .explicit, .standard⟩ = .ok report ∧
      report.stats.relations.map (·.1) = [0, 1] ∧ p.model.relations.size = 2 := by
  obtain ⟨p, hp⟩ := Call.exists_ofCalls_ascendingChain
  obtain ⟨hfill, hsolve⟩ := Solver.build_and_solve_in_range Call.ascendingChain
  obtain ⟨report, hreport, _⟩ := hsolve p hp ⟨.explicit, .standard⟩
  have hrun : ((Problem.ofCalls Call.ascendingChain).toOption.bind fun p =>
      (Solver.solve ⟨p, .explicit, .standard⟩).toOption.map fun report =>
        (report.stats.relations.map (·.1), p.model.relations.size)) = some ([0, 1], 2) := by
    decide +kernel
  simp only [hp, hreport, Except.toOption, Option.bind_some, Option.map_some, Option.some.injEq,
    Prod.mk.injEq] at hrun
  exact ⟨p, report, hp ▸ hfill, hreport, hrun.1, hrun.2⟩

end Values

end BinaryCsp
