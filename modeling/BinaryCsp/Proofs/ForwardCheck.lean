import BinaryCsp.ForwardCheck
import BinaryCsp.Proofs.Model
import BinaryCsp.Proofs.Pool
import BinaryCsp.Proofs.Trail

/-! # What forward checking leaves

Forward checking removes from the unassigned variables exactly the values that are incompatible
with the assignment just made. It stops early only at a variable that keeps nothing, and up to
there it has removed nothing else. The smaller the domains, the less it removes and the sooner it
stops.
-/

namespace BinaryCsp.ForwardCheck

variable {m : Model} {pool : Pool} {store : Store} {var : VarId} {value : ValId}

structure Restricted (m : Model) (pool : Pool) (var : VarId) (value : ValId) (links : List Link)
    (store : Store) (outcome : Outcome) : Prop where
  pruned : Store.Pruned store outcome.store
  keeps : ∀ {other : VarId} {b : ValId}, b ∈ store.family other →
    m.Compatible var value other b → b ∈ outcome.store.family other
  drops : outcome.wiped = none → ∀ {link : Link} {b : ValId}, link ∈ links →
    pool.Has link.other → b ∈ outcome.store.family link.other →
    m.Compatible var value link.other b
  frame : ∀ {other : VarId} {b : ValId}, ¬ pool.Has other → b ∈ store.family other →
    b ∈ outcome.store.family other
  wiped : ∀ {other : VarId}, outcome.wiped = some other →
    other < m.variableCount ∧ ∀ b, b ∉ outcome.store.family other

/-- `t` is `store` with the neighbour along `link` restricted, at the cost of `count` removals. -/
structure Narrows (m : Model) (var : VarId) (value : ValId) (link : Link) (store : Store)
    (count : Nat) (t : Store) : Prop where
  removes : Store.Pruned store t
  trail : t.trail.size = store.trail.size + count
  family : ∀ other b, b ∈ t.family other ↔ b ∈ store.family other ∧
    (other = link.other → m.Compatible var value other b)

theorem restrict_cons_of_has (hm : m.WellFormed) (hpool : pool.Sound m.variableCount)
    (hvalue : value < m.valueCount) {link : Link} (hlink : m.Connects var link)
    (hs : store.Sound m.variableCount m.valueCount) (hhas : pool.Has link.other) :
    ∃ count t, Narrows m var value link store count t ∧ ∀ rest pruned,
      (t.family link.other = ∅ → restrict m pool value (link :: rest) pruned store =
        .ok ⟨t, pruned + count, some link.other⟩) ∧
      ((t.family link.other).Nonempty → restrict m pool value (link :: rest) pruned store =
        restrict m pool value rest (pruned + count) t) := by
  have hother := (hm.connects_bounds hlink).2.1
  obtain ⟨flag, hflag, hiff⟩ := Pool.contains_eq_ok hpool hother
  obtain ⟨row, hrow, hsupports⟩ := hm.supports_eq hlink hvalue
  obtain ⟨domain, hget, _, _, hdomain⟩ := hs.get_eq hother
  obtain ⟨t, hremove, hpruned, hfamily⟩ := Store.removeAll_spec hs hother
    (domain.toList.filter fun id => !row.contains id)
  obtain ⟨after, hafter, _, hcounted, hleft⟩ := (hpruned.sound hs).get_eq hother
  have hempty : after.isEmpty = true ↔ t.family link.other = ∅ := by
    rw [hcounted.isEmpty_iff, Set.eq_empty_iff_forall_notMem]
    refine forall_congr' fun b => ?_
    rw [← hleft, Bool.not_eq_true]
  refine ⟨_, t, ⟨hpruned, Store.size_of_removeAll hs hget hremove, ?_⟩, fun rest pruned => ?_⟩
  · intro other b
    rw [hfamily]
    refine and_congr_right fun hb => forall_congr' fun ho => ?_
    subst ho
    rw [← hsupports]
    simp [hdomain, hb]
  · simp only [restrict, hflag, hiff.2 hhas, if_true, hrow, hget, hremove, hafter, hempty,
      Checked.ok_bind]
    exact ⟨fun hnone => if_pos hnone, fun hsome => if_neg hsome.ne_empty⟩

theorem restrict_cons_of_not_has (hm : m.WellFormed) (hpool : pool.Sound m.variableCount)
    {link : Link} (hlink : m.Connects var link) (hout : ¬ pool.Has link.other) (rest : List Link)
    (pruned : Nat) : restrict m pool value (link :: rest) pruned store =
      restrict m pool value rest pruned store := by
  obtain ⟨flag, hflag, hiff⟩ := Pool.contains_eq_ok hpool (hm.connects_bounds hlink).2.1
  rw [restrict, hflag, Checked.ok_bind, if_neg (mt hiff.1 hout)]

/-- Restricting has gone through the links in `done`, and not through those in `rest`. -/
structure Stops (m : Model) (pool : Pool) (var : VarId) (value : ValId) (done rest : List Link)
    (pruned : Nat) (store : Store) (outcome : Outcome) : Prop where
  removes : Store.Pruned store outcome.store
  /-- What is counted is what is put on the trail. -/
  count : outcome.pruned + store.trail.size = pruned + outcome.store.trail.size
  family : ∀ other b, b ∈ outcome.store.family other ↔ b ∈ store.family other ∧
    ∀ link ∈ done, link.other = other → pool.Has other → m.Compatible var value other b
  kept : ∀ link ∈ done, pool.Has link.other → outcome.wiped ≠ some link.other →
    (outcome.store.family link.other).Nonempty
  whole : outcome.wiped = none → rest = []
  emptied : ∀ other, outcome.wiped = some other → ∃ earlier last, done = earlier ++ [last] ∧
    last.other = other ∧ pool.Has other ∧ outcome.store.family other = ∅

section Course

variable {link : Link} {done rest : List Link} {pruned count : Nat} {t : Store} {outcome : Outcome}

theorem Stops.refl (pruned : Nat) (store : Store) :
    Stops m pool var value [] [] pruned store ⟨store, pruned, none⟩ where
  removes := .refl store
  count := rfl
  family := by simp
  kept := by simp
  whole := fun _ => rfl
  emptied := nofun

theorem Narrows.stops (h : Narrows m var value link store count t) (hhas : pool.Has link.other)
    (hempty : t.family link.other = ∅) :
    Stops m pool var value [link] rest pruned store ⟨t, pruned + count, some link.other⟩ where
  removes := h.removes
  count := by
    have htrail := h.trail
    dsimp only
    omega
  family := by
    intro other b
    rw [h.family, List.forall_mem_singleton]
    refine and_congr_right fun _ => ⟨fun hcompat heq _ => hcompat heq.symm, fun hcompat heq => ?_⟩
    exact hcompat heq.symm (heq ▸ hhas)
  kept := by
    intro l hl _ hne
    obtain rfl := List.mem_singleton.1 hl
    exact absurd rfl hne
  whole := nofun
  emptied := by
    intro other ho
    obtain rfl := Option.some.inj ho
    exact ⟨[], link, rfl, rfl, hhas, hempty⟩

theorem Stops.cons (hnext : Stops m pool var value done rest (pruned + count) t outcome)
    (h : Narrows m var value link store count t) (hhas : pool.Has link.other)
    (hsome : (t.family link.other).Nonempty) :
    Stops m pool var value (link :: done) rest pruned store outcome := by
  have hfamily : ∀ other b, b ∈ outcome.store.family other ↔ b ∈ store.family other ∧
      ∀ l ∈ link :: done, l.other = other → pool.Has other → m.Compatible var value other b := by
    intro other b
    rw [hnext.family, h.family, List.forall_mem_cons, and_assoc]
    refine and_congr_right fun _ => and_congr_left' ?_
    exact ⟨fun hcompat heq _ => hcompat heq.symm,
      fun hcompat heq => hcompat heq.symm (heq ▸ hhas)⟩
  exact {
    removes := h.removes.trans hnext.removes
    count := by
      have hcount := hnext.count
      have htrail := h.trail
      omega
    family := hfamily
    kept := by
      intro l hl hl' hne
      rcases List.mem_cons.1 hl with rfl | hl
      · -- A later link to the same variable would ask for the same.
        obtain ⟨b, hb⟩ := hsome
        obtain ⟨hold, hcompat⟩ := (h.family _ b).1 hb
        exact ⟨b, (hfamily _ b).2 ⟨hold, fun _ _ _ _ => hcompat rfl⟩⟩
      · exact hnext.kept l hl hl' hne
    whole := hnext.whole
    emptied := by
      intro other ho
      obtain ⟨earlier, last, hdone, hlast⟩ := hnext.emptied other ho
      exact ⟨link :: earlier, last, by rw [hdone]; rfl, hlast⟩ }

theorem Stops.skip (hnext : Stops m pool var value done rest pruned store outcome)
    (hout : ¬ pool.Has link.other) :
    Stops m pool var value (link :: done) rest pruned store outcome where
  removes := hnext.removes
  count := hnext.count
  family := by
    intro other b
    rw [hnext.family, List.forall_mem_cons]
    refine and_congr_right fun _ => (and_iff_right ?_).symm
    rintro rfl ho
    exact absurd ho hout
  kept := by
    intro l hl hhas hne
    rcases List.mem_cons.1 hl with rfl | hl
    · exact absurd hhas hout
    · exact hnext.kept l hl hhas hne
  whole := hnext.whole
  emptied := by
    intro other ho
    obtain ⟨earlier, last, hdone, hlast⟩ := hnext.emptied other ho
    exact ⟨link :: earlier, last, by rw [hdone]; rfl, hlast⟩

end Course

theorem restrict_stops (hm : m.WellFormed) (hpool : pool.Sound m.variableCount)
    (hvalue : value < m.valueCount) {links : List Link}
    (hlinks : ∀ link ∈ links, m.Connects var link) (pruned : Nat)
    (hs : store.Sound m.variableCount m.valueCount) :
    ∃ outcome done rest, restrict m pool value links pruned store = .ok outcome ∧
      links = done ++ rest ∧ Stops m pool var value done rest pruned store outcome := by
  induction links generalizing pruned store with
  | nil => exact ⟨_, [], [], rfl, rfl, .refl pruned store⟩
  | cons link links ih =>
      obtain ⟨hlink, hrest⟩ := List.forall_mem_cons.1 hlinks
      by_cases hhas : pool.Has link.other
      · obtain ⟨count, t, h, hstep⟩ := restrict_cons_of_has hm hpool hvalue hlink hs hhas
        obtain ⟨hends, hgoes⟩ := hstep links pruned
        rcases (t.family link.other).eq_empty_or_nonempty with hempty | hsome
        · exact ⟨_, [link], links, hends hempty, rfl, h.stops hhas hempty⟩
        · obtain ⟨outcome, done, rest, hrun, hsplit, hnext⟩ :=
            ih hrest (pruned + count) (h.removes.sound hs)
          exact ⟨outcome, link :: done, rest, (hgoes hsome).trans hrun, by rw [hsplit]; rfl,
            hnext.cons h hhas hsome⟩
      · obtain ⟨outcome, done, rest, hrun, hsplit, hnext⟩ := ih hrest pruned hs
        have hgoes : restrict m pool value (link :: links) pruned store =
            restrict m pool value links pruned store :=
          restrict_cons_of_not_has hm hpool hlink hhas links pruned
        exact ⟨outcome, link :: done, rest, hgoes.trans hrun, by rw [hsplit]; rfl,
          hnext.skip hhas⟩

theorem restrict_spec (hm : m.WellFormed) (hpool : pool.Sound m.variableCount)
    (hvalue : value < m.valueCount) {links : List Link}
    (hlinks : ∀ link ∈ links, m.Connects var link) (pruned : Nat)
    (hs : store.Sound m.variableCount m.valueCount) :
    ∃ outcome, restrict m pool value links pruned store = .ok outcome ∧
      Restricted m pool var value links store outcome ∧ pruned ≤ outcome.pruned := by
  obtain ⟨outcome, done, rest, hrun, rfl, h⟩ := restrict_stops hm hpool hvalue hlinks pruned hs
  have hcount := h.count
  have htrail := h.removes.trail_le
  refine ⟨outcome, hrun, ⟨h.removes, ?_, ?_, ?_, ?_⟩, by omega⟩
  · exact fun hb hcompat => (h.family _ _).2 ⟨hb, fun _ _ _ _ => hcompat⟩
  · intro hnone link b hlink hin hb
    rw [h.whole hnone, List.append_nil] at hlink
    exact ((h.family _ b).1 hb).2 link hlink rfl hin
  · exact fun hout hb => (h.family _ _).2 ⟨hb, fun _ _ _ hin => absurd hin hout⟩
  · intro other ho
    obtain ⟨earlier, last, rfl, rfl, _, hempty⟩ := h.emptied other ho
    refine ⟨(hm.connects_bounds (hlinks last (by simp))).2.1, fun b hb => ?_⟩
    rw [hempty] at hb
    exact hb

/-- Where everything left goes with `value`, nothing is removed. -/
theorem restrict_pruned_eq (hm : m.WellFormed) (hpool : pool.Sound m.variableCount)
    (hvalue : value < m.valueCount) {links : List Link}
    (hlinks : ∀ link ∈ links, m.Connects var link) {pruned : Nat}
    (hs : store.Sound m.variableCount m.valueCount)
    (hall : ∀ other, pool.Has other → ∀ b ∈ store.family other, m.Compatible var value other b)
    {outcome : Outcome} (hrun : restrict m pool value links pruned store = .ok outcome) :
    outcome.pruned = pruned := by
  obtain ⟨_, done, rest, hstops, -, h⟩ := restrict_stops hm hpool hvalue hlinks pruned hs
  obtain rfl := Except.ok.inj (hrun.symm.trans hstops)
  have hfamily : outcome.store.family = store.family := by
    funext other
    ext b
    rw [h.family]
    exact and_iff_left_of_imp fun hb _ _ _ hhas => hall other hhas b hb
  have hcount := h.count
  rw [h.removes.eq_of_family_eq hfamily] at hcount
  exact Nat.add_right_cancel hcount

/-- The smaller the domains, the less a neighbour loses. -/
theorem Narrows.count_le {link : Link} {large t u : Store} {count more : Nat}
    (h : Narrows m var value link store count t) (h' : Narrows m var value link large more u)
    (hle : store.family ≤ large.family) : count ≤ more := by
  obtain ⟨removed, hremoved⟩ := h.removes.exists_records
  obtain ⟨lost, hlost⟩ := h'.removes.exists_records
  have hsub : removed ⊆ lost := by
    rintro ⟨other, b⟩ hentry
    obtain ⟨hold, hnew⟩ := hremoved.mem.1 hentry
    refine hlost.mem.2 ⟨hle other hold, fun hin => hnew ?_⟩
    exact (h.family other b).2 ⟨hold, ((h'.family other b).1 hin).2⟩
  have hlength := (List.subperm_of_subset hremoved.nodup hsub).length_le
  have htrail := h.trail
  have htrail' := h'.trail
  have hsize := hremoved.size
  have hsize' := hlost.size
  omega

theorem Narrows.family_le {link : Link} {large t u : Store} {count more : Nat}
    (h : Narrows m var value link store count t) (h' : Narrows m var value link large more u)
    (hle : store.family ≤ large.family) : t.family ≤ u.family := by
  intro other b hb
  obtain ⟨hold, hcompat⟩ := (h.family other b).1 hb
  exact (h'.family other b).2 ⟨hle other hold, hcompat⟩

/-- On smaller domains no more values are removed, and no neighbour keeps a value that would lose
them all on larger ones. -/
theorem restrict_le (hm : m.WellFormed) (hpool : pool.Sound m.variableCount)
    (hvalue : value < m.valueCount) {links : List Link}
    (hlinks : ∀ link ∈ links, m.Connects var link) {pruned more : Nat} (hcount : pruned ≤ more)
    {large : Store} (hs : store.Sound m.variableCount m.valueCount)
    (hl : large.Sound m.variableCount m.valueCount) (hle : store.family ≤ large.family)
    {outcome wider : Outcome} (hrun : restrict m pool value links pruned store = .ok outcome)
    (hwide : restrict m pool value links more large = .ok wider) :
    outcome.pruned ≤ wider.pruned ∧ (outcome.wiped = none → wider.wiped = none) := by
  induction links generalizing pruned more store large with
  | nil =>
      obtain rfl := Except.ok.inj hrun
      obtain rfl := Except.ok.inj hwide
      exact ⟨hcount, fun _ => rfl⟩
  | cons link rest ih =>
      obtain ⟨hlink, hrest⟩ := List.forall_mem_cons.1 hlinks
      by_cases hhas : pool.Has link.other
      · obtain ⟨count, t, h, hstep⟩ := restrict_cons_of_has hm hpool hvalue hlink hs hhas
        obtain ⟨count', u, h', hstep'⟩ := restrict_cons_of_has hm hpool hvalue hlink hl hhas
        obtain ⟨hends, hgoes⟩ := hstep rest pruned
        obtain ⟨hends', hgoes'⟩ := hstep' rest more
        have hmore := Nat.add_le_add hcount (h.count_le h' hle)
        have hleft := h.family_le h' hle
        rcases (t.family link.other).eq_empty_or_nonempty with hempty | hsome
        · -- The larger domains can only go on: whatever follows counts more removals.
          rw [hends hempty] at hrun
          obtain rfl := Except.ok.inj hrun
          refine ⟨Nat.le_trans hmore ?_, nofun⟩
          rcases (u.family link.other).eq_empty_or_nonempty with hempty' | hsome'
          · rw [hends' hempty'] at hwide
            obtain rfl := Except.ok.inj hwide
            exact Nat.le_refl _
          · obtain ⟨_, hruns, _, hgrown⟩ :=
              restrict_spec hm hpool hvalue hrest (more + count') (h'.removes.sound hl)
            rw [hgoes' hsome', hruns] at hwide
            obtain rfl := Except.ok.inj hwide
            exact hgrown
        · rw [hgoes hsome] at hrun
          rw [hgoes' (hsome.mono (hleft link.other))] at hwide
          exact ih hrest hmore (h.removes.sound hs) (h'.removes.sound hl) hleft hrun hwide
      · rw [restrict_cons_of_not_has hm hpool hlink hhas] at hrun hwide
        exact ih hrest hcount hs hl hle hrun hwide

/-- The domains after `value` has been given to `var` and its unassigned neighbours have been
restricted. -/
def restricted (m : Model) (pool : Pool) (var : VarId) (value : ValId) (f : Family) : Family :=
  fun other => { b | b ∈ f other ∧ (other = var → b = value) ∧
    (pool.Has other → m.Compatible var value other b) }

/-- Forward checking either leaves exactly the restricted domains, or it has found a variable that
keeps nothing in them. -/
theorem run_spec (hm : m.WellFormed) (hpool : pool.Sound m.variableCount)
    (hs : store.Sound m.variableCount m.valueCount) (hvar : var < m.variableCount)
    (hvalue : value < m.valueCount) :
    ∃ outcome, run m store pool var value = .ok outcome ∧ Store.Pruned store outcome.store ∧
      restricted m pool var value store.family ≤ outcome.store.family ∧
      (outcome.wiped = none → outcome.store.family = restricted m pool var value store.family) ∧
      ∀ other, outcome.wiped = some other →
        other < m.variableCount ∧ ∀ b, b ∉ outcome.store.family other := by
  obtain ⟨_, assigned, hassign, hpruned, hfamily⟩ := Store.assign_spec hs hvar value
  obtain ⟨links, hlinks, hconnects⟩ := hm.linksOf_eq hvar
  obtain ⟨outcome, hrun, hfinal, _⟩ := restrict_spec hm hpool hvalue
    (fun link hlink => (hconnects link).1 hlink) 0 (hpruned.sound hs)
  have hle : restricted m pool var value store.family ≤ outcome.store.family := by
    rintro other b ⟨hb, hself, hcompat⟩
    have hin := (hfamily other b).2 ⟨hb, hself⟩
    by_cases ho : pool.Has other
    · exact hfinal.keeps hin (hcompat ho)
    · exact hfinal.frame ho hin
  refine ⟨outcome, ?_, hpruned.trans hfinal.pruned, hle, ?_, fun other => hfinal.wiped⟩
  · simp only [run, hassign, Checked.ok_bind, hlinks, hrun]
  · intro hnone
    refine le_antisymm ?_ hle
    intro other b hb
    obtain ⟨hold, hself⟩ := (hfamily other b).1 (hfinal.pruned.family_le other hb)
    refine ⟨hold, hself, fun ho => ?_⟩
    by_cases hlinked : ∃ link ∈ links, link.other = other
    · obtain ⟨link, hlink, rfl⟩ := hlinked
      exact hfinal.drops hnone hlink ho hb
    · apply hm.compatible_of_not_connects
      intro link hlink hsame
      exact hlinked ⟨link, (hconnects link).2 hlink, hsame⟩

theorem run_pruned_eq_zero (hm : m.WellFormed) (hpool : pool.Sound m.variableCount)
    (hs : store.Sound m.variableCount m.valueCount) (hvar : var < m.variableCount)
    (hvalue : value < m.valueCount)
    (hall : ∀ other, pool.Has other → ∀ b ∈ store.family other, m.Compatible var value other b)
    {outcome : Outcome} (hrun : run m store pool var value = .ok outcome) :
    outcome.pruned = 0 := by
  obtain ⟨_, t, hassign, hpruned, _⟩ := Store.assign_spec hs hvar value
  obtain ⟨links, hlinks, hconnects⟩ := hm.linksOf_eq hvar
  simp only [run, hassign, hlinks, Checked.ok_bind] at hrun
  exact restrict_pruned_eq hm hpool hvalue (fun link hlink => (hconnects link).1 hlink)
    (hpruned.sound hs) (fun other ho b hb => hall other ho b (hpruned.family_le other hb)) hrun

theorem run_le (hm : m.WellFormed) (hpool : pool.Sound m.variableCount) {large : Store}
    (hs : store.Sound m.variableCount m.valueCount)
    (hl : large.Sound m.variableCount m.valueCount) (hle : store.family ≤ large.family)
    (hvar : var < m.variableCount) (hvalue : value < m.valueCount) {outcome wider : Outcome}
    (hrun : run m store pool var value = .ok outcome)
    (hwide : run m large pool var value = .ok wider) :
    outcome.pruned ≤ wider.pruned ∧ (outcome.wiped = none → wider.wiped = none) := by
  obtain ⟨_, t, hassign, hpruned, hfamily⟩ := Store.assign_spec hs hvar value
  obtain ⟨_, t', hassign', hpruned', hfamily'⟩ := Store.assign_spec hl hvar value
  obtain ⟨links, hlinks, hconnects⟩ := hm.linksOf_eq hvar
  simp only [run, hassign, hlinks, Checked.ok_bind] at hrun
  simp only [run, hassign', hlinks, Checked.ok_bind] at hwide
  refine restrict_le hm hpool hvalue (fun link hlink => (hconnects link).1 hlink) (Nat.le_refl 0)
    (hpruned.sound hs) (hpruned'.sound hl) ?_ hrun hwide
  intro other b hb
  obtain ⟨hold, hself⟩ := (hfamily other b).1 hb
  exact (hfamily' other b).2 ⟨hle other hold, hself⟩

end BinaryCsp.ForwardCheck
