import BinaryCsp.Proofs.ForwardCheck
import BinaryCsp.Proofs.Representation

/-! # The exact effect of forward checking

Forward checking goes through the neighbours in ascending order and leaves to each unassigned one
the values that go with the assignment. It ends early at the first neighbour that is left without
values, so that the neighbours up to that one are restricted and those after it are untouched. The
values removed from neighbours are counted, and the trail lists them after those removed from the
variable itself.
-/

namespace BinaryCsp

def Model.supported (m : Model) (link : Link) (value : ValId) : Set ValId :=
  { b | ∃ row, m.supports link value = .ok row ∧ row.contains b = true }

theorem Model.WellFormed.mem_supported {m : Model} (hm : m.WellFormed) {var : VarId} {link : Link}
    {value b : ValId} (hlink : m.Connects var link) (hvalue : value < m.valueCount) :
    b ∈ m.supported link value ↔ m.Compatible var value link.other b := by
  obtain ⟨row, hrow, hcontains⟩ := hm.supports_eq hlink hvalue
  simp [supported, hrow, hcontains]

namespace ForwardCheck

variable {m : Model} {pool : Pool} {store : Store} {var : VarId} {value : ValId}

/-- What giving `value` to `var`, whose links are `links`, does to `store`. -/
structure Effect (m : Model) (pool : Pool) (var : VarId) (value : ValId) (links : List Link)
    (store : Store) (outcome : Outcome) : Prop where
  succeeds : outcome.wiped = none ↔ ∀ link ∈ links, pool.Has link.other →
    (store.family link.other ∩ m.supported link value).Nonempty
  own : outcome.store.family var = store.family var ∩ {value}
  /-- The unassigned neighbours are restricted, up to the one that is left without values. -/
  restricted : ∀ link ∈ links, pool.Has link.other →
    (∀ last, outcome.wiped = some last → link.other ≤ last) →
    outcome.store.family link.other = store.family link.other ∩ m.supported link value
  beyond : ∀ link ∈ links, ∀ last, outcome.wiped = some last → last < link.other →
    outcome.store.family link.other = store.family link.other
  /-- Forward checking fails at the first unassigned neighbour without a value that goes with the
  assignment. -/
  first : ∀ last, outcome.wiped = some last →
    (∃ link ∈ links, link.other = last ∧ pool.Has last ∧
      store.family last ∩ m.supported link value = ∅) ∧
    ∀ link ∈ links, link.other < last → pool.Has link.other →
      (store.family link.other ∩ m.supported link value).Nonempty
  frame : ∀ other, other ≠ var → (∀ link ∈ links, link.other = other → ¬ pool.Has other) →
    outcome.store.family other = store.family other
  /-- The trail goes on with the values of the variable and then those of its neighbours, and the
  latter are counted. -/
  records : ∃ own others, Store.Records store outcome.store (own ++ others) ∧
    (∀ entry ∈ own, entry.1 = var) ∧ (∀ entry ∈ others, entry.1 ≠ var) ∧
    outcome.pruned = others.length

/-- Forward checking has gone through the links in `done`, and not through those in `rest`. This is
`Stops` as seen from the domains before the assignment. -/
structure Passed (m : Model) (pool : Pool) (var : VarId) (value : ValId) (done rest : List Link)
    (store : Store) (outcome : Outcome) : Prop where
  far : ∀ link ∈ done ++ rest, link.other ≠ var
  own : outcome.store.family var = store.family var ∩ {value}
  reached : ∀ link ∈ done, pool.Has link.other →
    outcome.store.family link.other = store.family link.other ∩ m.supported link value
  untouched : ∀ other, other ≠ var → (∀ link ∈ done, link.other = other → ¬ pool.Has other) →
    outcome.store.family other = store.family other
  kept : ∀ link ∈ done, pool.Has link.other → outcome.wiped ≠ some link.other →
    (store.family link.other ∩ m.supported link value).Nonempty
  whole : outcome.wiped = none → rest = []
  emptied : ∀ last, outcome.wiped = some last → ∃ earlier link, done = earlier ++ [link] ∧
    link.other = last ∧ pool.Has last ∧ store.family last ∩ m.supported link value = ∅
  records : ∃ own others, Store.Records store outcome.store (own ++ others) ∧
    (∀ entry ∈ own, entry.1 = var) ∧ (∀ entry ∈ others, entry.1 ≠ var) ∧
    outcome.pruned = others.length

/-- Of ascending links, those that lead no further than the last one reached have been reached. -/
theorem mem_reached_iff {earlier rest : List Link} {link last : Link}
    (hascending : ((earlier ++ [last]) ++ rest).Pairwise fun link later => link.other < later.other)
    (hlink : link ∈ (earlier ++ [last]) ++ rest) :
    link ∈ earlier ++ [last] ↔ link.other ≤ last.other := by
  obtain ⟨hfront, _, hacross⟩ := List.pairwise_append.1 hascending
  constructor
  · intro hin
    rcases List.mem_append.1 hin with hin | hin
    · exact Nat.le_of_lt ((List.pairwise_append.1 hfront).2.2 link hin last (by simp))
    · rw [List.mem_singleton.1 hin]
  · intro hle
    rcases List.mem_append.1 hlink with hin | hin
    · exact hin
    · exact absurd (hacross last (by simp) link hin) (Nat.not_lt.2 hle)

section Passed

variable {done rest : List Link} {outcome : Outcome} {link : Link} {last : VarId}

theorem Passed.succeeds (h : Passed m pool var value done rest store outcome) :
    outcome.wiped = none ↔ ∀ link ∈ done ++ rest, pool.Has link.other →
      (store.family link.other ∩ m.supported link value).Nonempty := by
  constructor
  · intro hnone link hlink hhas
    rw [h.whole hnone, List.append_nil] at hlink
    exact h.kept link hlink hhas (by simp [hnone])
  · intro hall
    rw [Option.eq_none_iff_forall_ne_some]
    intro last hwiped
    obtain ⟨earlier, link, hdone, rfl, hhas, hempty⟩ := h.emptied last hwiped
    exact (hall link (by simp [hdone]) hhas).ne_empty hempty

variable (hascending : (done ++ rest).Pairwise fun link later => link.other < later.other)

include hascending

theorem Passed.restricted (h : Passed m pool var value done rest store outcome)
    (hlink : link ∈ done ++ rest) (hhas : pool.Has link.other)
    (hupto : ∀ last, outcome.wiped = some last → link.other ≤ last) :
    outcome.store.family link.other = store.family link.other ∩ m.supported link value := by
  refine h.reached link ?_ hhas
  cases hwiped : outcome.wiped with
  | none => rwa [h.whole hwiped, List.append_nil] at hlink
  | some last =>
      obtain ⟨earlier, link', rfl, rfl, _⟩ := h.emptied last hwiped
      exact (mem_reached_iff hascending hlink).2 (hupto _ hwiped)

theorem Passed.beyond (h : Passed m pool var value done rest store outcome)
    (hlink : link ∈ done ++ rest) (hwiped : outcome.wiped = some last) (hlt : last < link.other) :
    outcome.store.family link.other = store.family link.other := by
  obtain ⟨earlier, link', rfl, rfl, _⟩ := h.emptied last hwiped
  refine h.untouched _ (h.far link hlink) fun other hin heq => ?_
  have hle := (mem_reached_iff hascending (List.mem_append_left rest hin)).1 hin
  exact absurd (heq ▸ hle) (Nat.not_le_of_lt hlt)

theorem Passed.first (h : Passed m pool var value done rest store outcome)
    (hwiped : outcome.wiped = some last) :
    (∃ link ∈ done ++ rest, link.other = last ∧ pool.Has last ∧
      store.family last ∩ m.supported link value = ∅) ∧
    ∀ link ∈ done ++ rest, link.other < last → pool.Has link.other →
      (store.family link.other ∩ m.supported link value).Nonempty := by
  obtain ⟨earlier, link, rfl, rfl, hhas, hempty⟩ := h.emptied last hwiped
  refine ⟨⟨link, by simp, rfl, hhas, hempty⟩, fun other hother hlt hhas' => ?_⟩
  have hin := (mem_reached_iff hascending hother).2 (Nat.le_of_lt hlt)
  refine h.kept other hin hhas' ?_
  rw [hwiped, ne_eq, Option.some.injEq]
  exact (Nat.ne_of_lt hlt).symm

theorem Passed.effect (h : Passed m pool var value done rest store outcome) :
    Effect m pool var value (done ++ rest) store outcome where
  succeeds := h.succeeds
  own := h.own
  restricted := fun _ hlink hhas hupto => h.restricted hascending hlink hhas hupto
  beyond := fun _ hlink _ hwiped hlt => h.beyond hascending hlink hwiped hlt
  first := fun _ hwiped => h.first hascending hwiped
  frame := fun other hother hout =>
    h.untouched other hother fun link hin => hout link (List.mem_append_left rest hin)
  records := h.records

end Passed

section Course

variable {links done rest : List Link} {pruned : Nat} {assigned : Store} {outcome : Outcome}
  {link : Link}

theorem Stops.family_reached (hm : m.WellFormed) (hvalue : value < m.valueCount)
    (h : Stops m pool var value done rest pruned assigned outcome)
    (hsame : assigned.family link.other = store.family link.other) (hlink : m.Connects var link)
    (hin : link ∈ done) (hhas : pool.Has link.other) :
    outcome.store.family link.other = store.family link.other ∩ m.supported link value := by
  ext b
  rw [h.family, hsame, Set.mem_inter_iff, hm.mem_supported hlink hvalue]
  refine and_congr_right fun _ => ⟨fun hall => hall link hin rfl hhas, ?_⟩
  exact fun hcompat _ _ _ _ => hcompat

theorem Stops.family_untouched (h : Stops m pool var value done rest pruned assigned outcome)
    {other : VarId} (hout : ∀ link ∈ done, link.other = other → ¬ pool.Has other) :
    outcome.store.family other = assigned.family other := by
  ext b
  rw [h.family]
  exact and_iff_left fun link hin heq hhas => absurd hhas (hout link hin heq)

/-- What is removed before the restriction is removed at `var`, and what is removed by it elsewhere;
the trail has one after the other. -/
theorem Stops.records (hpruned : Store.Pruned store assigned)
    (hsame : ∀ other, other ≠ var → assigned.family other = store.family other)
    (h : Stops m pool var value done rest 0 assigned outcome)
    (hown : outcome.store.family var = assigned.family var) :
    ∃ own others, Store.Records store outcome.store (own ++ others) ∧
      (∀ entry ∈ own, entry.1 = var) ∧ (∀ entry ∈ others, entry.1 ≠ var) ∧
      outcome.pruned = others.length := by
  obtain ⟨own, hfirst⟩ := hpruned.exists_records
  obtain ⟨others, hthen⟩ := h.removes.exists_records
  refine ⟨own, others, hfirst.append hthen hpruned.family_le h.removes.family_le, ?_, ?_, ?_⟩
  · rintro ⟨other, b⟩ hentry
    obtain ⟨hold, hnew⟩ := hfirst.mem.1 hentry
    by_contra hother
    exact hnew (hsame other hother ▸ hold)
  · rintro ⟨other, b⟩ hentry rfl
    obtain ⟨hold, hnew⟩ := hthen.mem.1 hentry
    exact hnew (hown ▸ hold)
  · have hcount := h.count
    have hsize := hthen.size
    omega

/-- Only `var` was changed before the restriction, so elsewhere it tells of the domains before the
assignment. -/
theorem Stops.passed (hm : m.WellFormed) (hvalue : value < m.valueCount)
    (h : Stops m pool var value done rest 0 assigned outcome)
    (hlinks : ∀ link ∈ done ++ rest, m.Connects var link) (hpruned : Store.Pruned store assigned)
    (hassigned : ∀ other b, b ∈ assigned.family other ↔
      b ∈ store.family other ∧ (other = var → b = value)) :
    Passed m pool var value done rest store outcome := by
  have hsame : ∀ other, other ≠ var → assigned.family other = store.family other := by
    intro other hother
    ext b
    rw [hassigned]
    exact and_iff_left fun heq => absurd heq hother
  have hfar : ∀ link ∈ done ++ rest, link.other ≠ var := fun link hlink =>
    (hm.connects_bounds (hlinks link hlink)).2.2.symm
  have hown : outcome.store.family var = assigned.family var :=
    h.family_untouched fun link hin heq => absurd heq (hfar link (List.mem_append_left rest hin))
  have hreached : ∀ link ∈ done, pool.Has link.other →
      outcome.store.family link.other = store.family link.other ∩ m.supported link value := by
    intro link hin hhas
    have hlink := List.mem_append_left rest hin
    exact h.family_reached hm hvalue (hsame _ (hfar link hlink)) (hlinks link hlink) hin hhas
  exact {
    far := hfar
    own := by
      rw [hown]
      ext b
      rw [hassigned]
      simp
    reached := hreached
    untouched := fun other hother hout => by rw [h.family_untouched hout, hsame other hother]
    kept := fun link hin hhas hne => hreached link hin hhas ▸ h.kept link hin hhas hne
    whole := h.whole
    emptied := by
      intro last hwiped
      obtain ⟨earlier, link, hdone, rfl, hhas, hempty⟩ := h.emptied last hwiped
      refine ⟨earlier, link, hdone, rfl, hhas, ?_⟩
      rw [← hreached link (by simp [hdone]) hhas, hempty]
    records := h.records hpruned hsame hown }

end Course

theorem exists_effect (hm : m.WellFormed) (hpool : pool.Sound m.variableCount)
    (hs : store.Sound m.variableCount m.valueCount) (hvar : var < m.variableCount)
    (hvalue : value < m.valueCount) {links : List Link} (hlinks : m.linksOf var = .ok links)
    (hascending : links.Pairwise fun link later => link.other < later.other) :
    ∃ outcome, run m store pool var value = .ok outcome ∧
      Effect m pool var value links store outcome := by
  obtain ⟨collapsed, assigned, hassign, hpruned, hassigned⟩ := Store.assign_spec hs hvar value
  have hconnects : ∀ link ∈ links, m.Connects var link := fun link =>
    (hm.links (Checked.get_eq_ok.1 hlinks) link).1
  obtain ⟨outcome, done, rest, hrun, rfl, h⟩ :=
    restrict_stops hm hpool hvalue hconnects 0 (hpruned.sound hs)
  refine ⟨outcome, by simp only [run, hassign, hlinks, hrun, Checked.ok_bind], ?_⟩
  exact (h.passed hm hvalue hconnects hpruned hassigned).effect hascending

variable {V : Type} [DecidableEq V]

/-- On any domains over a built model, with any variables unassigned, forward checking has its exact
effect, whether or not it succeeds. -/
theorem run_effect {calls : List (Call V)} {p : Problem V} (hp : Problem.ofCalls calls = .ok p)
    (hs : store.Sound p.model.variableCount p.model.valueCount)
    (hpool : pool.Sound p.model.variableCount) (hvar : var < p.model.variableCount)
    (hvalue : value < p.model.valueCount) :
    ∃ links outcome, p.model.linksOf var = .ok links ∧
      links.Pairwise (fun link later => link.other < later.other) ∧
      run p.model store pool var value = .ok outcome ∧
      Effect p.model pool var value links store outcome := by
  have hm := (Problem.faithful_of_ofCalls hp).wellFormed
  obtain ⟨links, hlinks, hascending, _⟩ := (Problem.represents_of_ofCalls hp).links hvar
  obtain ⟨outcome, hrun, heffect⟩ := exists_effect hm hpool hs hvar hvalue hlinks hascending
  exact ⟨links, outcome, hlinks, hascending, hrun, heffect⟩

/-- Of two neighbours the first keeps two values and the second none. -/
theorem run_effect_chain :
    ∃ p links outcome, Problem.ofCalls Call.ascendingChain = .ok p ∧
      run p.model (.ofDomains p.model.domains) (.full p.model.variableCount) 1 2 = .ok outcome ∧
      Effect p.model (.full p.model.variableCount) 1 2 links (.ofDomains p.model.domains) outcome ∧
      links.map (·.other) = [0, 2] ∧ outcome.wiped = some 2 ∧ outcome.pruned = 4 := by
  obtain ⟨p, hp⟩ := Call.exists_ofCalls_ascendingChain
  have hm := (Problem.faithful_of_ofCalls hp).wellFormed
  obtain ⟨hvars, hvals⟩ := Call.counts_ascendingChain hp
  have hends : ((Problem.ofCalls Call.ascendingChain).toOption.bind fun p =>
      (run p.model (.ofDomains p.model.domains) (.full p.model.variableCount) 1 2).toOption.bind
        fun outcome => (p.model.linksOf 1).toOption.map fun links =>
          (links.map (·.other), outcome.wiped, outcome.pruned)) = some ([0, 2], some 2, 4) := by
    decide +kernel
  obtain ⟨links, outcome, hlinks, _, hrun, heffect⟩ := run_effect hp hm.domains
    (Pool.full_sound _) (show 1 < p.model.variableCount by omega)
    (show 2 < p.model.valueCount by omega)
  simp only [hp, hrun, hlinks, Except.toOption, Option.bind_some, Option.map_some,
    Option.some.injEq, Prod.mk.injEq] at hends
  exact ⟨p, links, outcome, hp, hrun, heffect, hends⟩

end ForwardCheck

end BinaryCsp
