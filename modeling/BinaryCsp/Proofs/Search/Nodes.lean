import BinaryCsp.Proofs.Search.Drivers

/-! # The domains at a node

The domains at a node are a function of the partial assignment: without arc consistency, what is
compatible with every value assigned; with it, the greatest arc consistent family below the
collapsed initial domains. The invariant is carried down one value at a time. Whatever was tried
before at the same node has been undone by then, so it leaves no mark on the domains.
-/

namespace BinaryCsp

namespace Model

def collapsed (m : Model) (a : PartialAssignment) : Family := fun var =>
  { b | b ∈ (Store.ofDomains m.domains).family var ∧ ∀ v, a.valueOf var = some v → b = v }

/-- The values of the initial domains that may stand together with every value assigned. -/
def allowed (m : Model) (a : PartialAssignment) : Family := fun var =>
  { b | b ∈ (Store.ofDomains m.domains).family var ∧
    ∀ x v, a.valueOf x = some v → m.Compatible x v var b }

end Model

namespace Search

open State ForwardCheck

variable {m : Model} {config : Config}

structure AtNode (m : Model) (config : Config) (s : State) : Prop where
  sound : s.Sound m
  pruned : Store.Pruned (.ofDomains m.domains) s.store
  unassigned : ∀ {var : VarId}, s.pool.Has var ↔
    var < m.variableCount ∧ s.assignment.valueOf var = none
  assigned : ∀ {var : VarId} {a : ValId}, s.assignment.valueOf var = some a →
    s.store.family var = {a}
  checked : config.ac3 = false → ∀ {var : VarId}, s.assignment.valueOf var = none →
    s.store.family var = m.allowed s.assignment var
  swept : config.ac3 = true →
    IsGreatest (m.consistentBelow (m.collapsed s.assignment)) s.store.family

/-! ## The root -/

theorem allowed_unassigned (m : Model) :
    m.allowed (.unassigned m.variableCount) = (Store.ofDomains m.domains).family := by
  funext var
  ext b
  simp [Model.allowed]

theorem collapsed_unassigned (m : Model) :
    m.collapsed (.unassigned m.variableCount) = (Store.ofDomains m.domains).family := by
  funext var
  ext b
  simp [Model.collapsed]

theorem atNode_root (hm : m.WellFormed) {root : State}
    (hprepare : (State.initial m config).prepare m config = .ok (true, root)) :
    AtNode m config root := by
  have hinitial := initial_sound config hm
  have hpool : ∀ {var : VarId}, (State.initial m config).pool.Has var ↔ var < m.variableCount ∧
      (State.initial m config).assignment.valueOf var = none := by
    intro var
    simp [State.initial, Pool.full_has]
  have hnone : ∀ {var : VarId} {a : ValId},
      (State.initial m config).assignment.valueOf var ≠ some a := by
    intro var a
    simp [State.initial]
  obtain ⟨kept, t, hprepare', h⟩ := prepare_spec config hm hinitial
  obtain ⟨rfl, rfl⟩ := Prod.mk.inj (Except.ok.inj (hprepare'.symm.trans hprepare))
  rcases h with ⟨hac3, _, rfl⟩ | ⟨hac3, h⟩
  · refine ⟨hinitial, .refl _, hpool, fun ha => absurd ha hnone, ?_, ?_⟩
    · intro _ var _
      exact congrFun (allowed_unassigned m).symm var
    · intro hyes
      rw [hac3] at hyes
      cases hyes
  · refine ⟨h.sound hinitial, h.pruned, ?_, ?_, ?_, ?_⟩
    · rw [h.pool, h.assignment]
      exact hpool
    · rw [h.assignment]
      exact fun ha => absurd ha hnone
    · intro hno
      rw [hac3] at hno
      cases hno
    · intro _
      rw [h.assignment]
      change IsGreatest (m.consistentBelow (m.collapsed (.unassigned m.variableCount))) _
      rw [collapsed_unassigned]
      exact h.greatest rfl

/-! ## From a node to the node below -/

section Child

variable {levels : Nat} {node s t : State} {var : VarId} {value : ValId} {rest : List ValId}

theorem Branches.valueOf_child (h : Branches m levels node var rest s) {kept : Bool}
    (ht : Tried m config s var value kept t) (other : VarId) :
    t.assignment.valueOf other =
      if other = var then some value else node.assignment.valueOf other := by
  rw [PartialAssignment.valueOf_of_set ht.assignment]
  by_cases ho : other = var
  · rw [if_pos ho, if_pos ho]
  · rw [if_neg ho, if_neg ho, h.branching.valueOf ho]

theorem Branches.has_child (h : Branches m levels node var rest s) {kept : Bool}
    (ht : Tried m config s var value kept t) {other : VarId} :
    t.pool.Has other ↔ node.pool.Has other ∧ other ≠ var := by
  rw [ht.pool]
  exact h.branching.has_iff h.sound h.has

/-- Forward checking leaves an assigned variable its value. -/
theorem AtNode.restricted_assigned (hnode : AtNode m config node)
    (h : Branches m levels node var (value :: rest) s) {kept : Bool}
    (ht : Tried m config s var value kept t) {other : VarId} {a : ValId}
    (ha : t.assignment.valueOf other = some a) :
    restricted m s.pool var value s.store.family other = {a} := by
  have hout : ¬ s.pool.Has other := by
    rw [← ht.pool, h.has_child ht, hnode.unassigned]
    rintro ⟨⟨_, hnone⟩, hne⟩
    rw [h.valueOf_child ht, if_neg hne, hnone] at ha
    cases ha
  have hvalue := h.mem value (by simp)
  rw [h.valueOf_child ht] at ha
  rw [h.branching.store]
  ext b
  by_cases ho : other = var
  · subst ho
    rw [if_pos rfl] at ha
    obtain rfl := Option.some.inj ha
    constructor
    · rintro ⟨_, hb, _⟩
      exact hb rfl
    · rintro rfl
      exact ⟨hvalue, fun _ => rfl, fun hin => absurd hin hout⟩
  · rw [if_neg ho] at ha
    constructor
    · rintro ⟨hb, _, _⟩
      rwa [hnode.assigned ha] at hb
    · intro hb
      rw [← hnode.assigned ha] at hb
      exact ⟨hb, fun hsame => absurd hsame ho, fun hin => absurd hin hout⟩

/-- Forward checking leaves an unassigned variable what goes with the new value as well. -/
theorem AtNode.restricted_unassigned (hm : m.WellFormed) (hnode : AtNode m config node)
    (hac3 : config.ac3 = false) (h : Branches m levels node var (value :: rest) s) {kept : Bool}
    (ht : Tried m config s var value kept t) {other : VarId}
    (hnone : t.assignment.valueOf other = none) :
    restricted m s.pool var value s.store.family other = m.allowed t.assignment other := by
  have hne : other ≠ var := by
    rintro rfl
    rw [h.valueOf_child ht, if_pos rfl] at hnone
    cases hnone
  rw [h.valueOf_child ht, if_neg hne] at hnone
  rw [h.branching.store]
  ext b
  have hfamily : b ∈ node.store.family other ↔ b ∈ m.allowed node.assignment other := by
    rw [hnode.checked hac3 hnone]
  constructor
  · rintro ⟨hb, _, hcompat⟩
    obtain ⟨hinit, hall⟩ := hfamily.1 hb
    have hin : s.pool.Has other := by
      rw [← ht.pool, h.has_child ht, hnode.unassigned]
      exact ⟨⟨hm.domains.lt_of_mem hinit, hnone⟩, hne⟩
    refine ⟨hinit, fun x v hx => ?_⟩
    rw [h.valueOf_child ht] at hx
    by_cases hsame : x = var
    · rw [if_pos hsame] at hx
      obtain rfl := Option.some.inj hx
      rw [hsame]
      exact hcompat hin
    · rw [if_neg hsame] at hx
      exact hall x v hx
  · rintro ⟨hinit, hall⟩
    have hvar : t.assignment.valueOf var = some value := by rw [h.valueOf_child ht, if_pos rfl]
    refine ⟨hfamily.2 ⟨hinit, fun x v hx => hall x v ?_⟩, fun hsame => absurd hsame hne,
      fun _ => hall var value hvar⟩
    have hsame : x ≠ var := by
      rintro rfl
      rw [hnode.sound.free h.has] at hx
      cases hx
    rw [h.valueOf_child ht, if_neg hsame, hx]

/-- Arc consistency after forward checking comes to the same as collapsing the variable first. -/
theorem AtNode.greatest_child (hm : m.WellFormed) (hnode : AtNode m config node)
    (hac3 : config.ac3 = true) (h : Branches m levels node var (value :: rest) s)
    (ht : Tried m config s var value true t) :
    IsGreatest (m.consistentBelow (m.collapsed t.assignment)) t.store.family := by
  have hbelow := hnode.swept hac3
  have hswept := ht.swept rfl hac3
  have hvar : t.assignment.valueOf var = some value := by rw [h.valueOf_child ht, if_pos rfl]
  constructor
  · refine ⟨?_, hswept.1.2⟩
    intro other b hb
    obtain ⟨hin, hself, _⟩ := hswept.1.1 other hb
    rw [h.branching.store] at hin
    obtain ⟨hinit, hold⟩ := hbelow.1.1 other hin
    refine ⟨hinit, fun v hv => ?_⟩
    rw [h.valueOf_child ht] at hv
    by_cases ho : other = var
    · rw [if_pos ho] at hv
      rw [hself ho, Option.some.inj hv]
    · rw [if_neg ho] at hv
      exact hold v hv
  · rintro f ⟨hle, hf⟩
    have hself : ∀ {b}, b ∈ f var → b = value := fun hb => (hle var hb).2 value hvar
    have hold : f ≤ node.store.family := by
      refine hbelow.2 ⟨fun other b hb => ⟨(hle other hb).1, fun v hv => ?_⟩, hf⟩
      have ho : other ≠ var := by
        rintro rfl
        rw [hnode.sound.free h.has] at hv
        cases hv
      exact (hle other hb).2 v (by rw [h.valueOf_child ht, if_neg ho, hv])
    refine hswept.2 ⟨fun other b hb => ?_, hf⟩
    rw [h.branching.store]
    exact ⟨hold other hb, fun ho => hself (ho ▸ hb),
      fun _ => hf.compatible hm (fun _ hc => hself hc) hb⟩

theorem AtNode.child (hm : m.WellFormed) (hnode : AtNode m config node)
    (h : Branches m levels node var (value :: rest) s) (ht : Tried m config s var value true t) :
    AtNode m config t where
  sound := (h.child ht).1
  pruned := by
    have hstep := ht.pruned
    rw [h.branching.store] at hstep
    exact hnode.pruned.trans hstep
  unassigned := by
    intro other
    rw [h.has_child ht, hnode.unassigned, h.valueOf_child ht]
    by_cases ho : other = var
    · simp [ho]
    · simp [ho]
  assigned := by
    intro other a ha
    have hleft := hnode.restricted_assigned h ht ha
    have hle : t.store.family other ⊆ {a} := hleft ▸ ht.family_le other
    have hsome := ht.nonempty rfl (hleft ▸ Set.singleton_nonempty a)
    exact hsome.subset_singleton_iff.1 hle
  checked := by
    intro hac3 other hnone
    rw [ht.checked rfl hac3]
    exact hnode.restricted_unassigned hm hac3 h ht hnone
  swept := fun hac3 => hnode.greatest_child hm hac3 h ht

end Child

/-- Every node entered below a node has the domains that its assignment determines. -/
theorem Explores.atNode (hm : m.WellFormed) {task : Task} {nodes : List State} {moves : Nat}
    {result : Result} (h : Explores m config task nodes moves result) (hvalid : task.Valid m)
    (horigin : AtNode m config task.origin) : ∀ s ∈ nodes, AtNode m config s :=
  h.forall_nodes hm (fun hnode hbranches ht => hnode.child hm hbranches ht) hvalid horigin

/-- Nodes with the same values assigned have the same domains, down to their words. -/
theorem AtNode.domains_eq (hm : m.WellFormed) {other : Config} {s t : State}
    (hs : AtNode m config s) (ht : AtNode m other t) (hac3 : other.ac3 = config.ac3)
    (hsame : ∀ var, t.assignment.valueOf var = s.assignment.valueOf var) :
    t.store.domains = s.store.domains := by
  have hallowed : m.allowed t.assignment = m.allowed s.assignment := by
    funext var
    simp only [Model.allowed, hsame]
  have hcollapsed : m.collapsed t.assignment = m.collapsed s.assignment := by
    funext var
    simp only [Model.collapsed, hsame]
  have hfamily : t.store.family = s.store.family := by
    cases hflag : config.ac3 with
    | true =>
        have hgreatest := ht.swept (hac3.trans hflag)
        rw [hcollapsed] at hgreatest
        exact hgreatest.unique (hs.swept hflag)
    | false =>
        funext var
        cases hvalue : s.assignment.valueOf var with
        | some a => rw [hs.assigned hvalue, ht.assigned ((hsame var).trans hvalue)]
        | none =>
            rw [hs.checked hflag hvalue, ht.checked (hac3.trans hflag) ((hsame var).trans hvalue),
              hallowed]
  refine Store.domains_eq_of_family_eq (ht.pruned.sound hm.domains) (hs.pruned.sound hm.domains)
    (fun var => ?_) hfamily
  rw [ht.pruned.words_size, hs.pruned.words_size]

/-! ## Whole searches -/

/-- The nodes listed are those that the driver counts, in order. -/
theorem exists_nodesEntered (config : Config) (hm : m.WellFormed) (driver : Driver) :
    ∃ run nodes, Strategy.solve ⟨driver, config⟩ m = .ok run ∧
      nodesEntered driver m config = .ok nodes ∧ run.stats.nodes = nodes.length ∧
      (∀ (i : Nat) (s : State), nodes[i]? = some s → s.counters.nodes = i) ∧
      ∀ s ∈ nodes, AtNode m config s := by
  obtain ⟨kept, root, hprepare, h⟩ := prepare_spec config hm (initial_sound config hm)
  cases kept with
  | false =>
      obtain ⟨hsolve, hnodes⟩ := solve_of_prepare_failed hprepare driver
      refine ⟨_, [], hsolve, hnodes, ?_, nofun, nofun⟩
      rcases h with ⟨_, hkept, _⟩ | ⟨_, h⟩
      · cases hkept
      · exact h.revised.nodes
  | true =>
      obtain ⟨hvalid, hzero, nodes, moves, result, hrun, hmoves⟩ :=
        exists_explores_root hm hprepare
      obtain ⟨hsolve, hnodes⟩ := hrun.solve_eq hprepare hmoves driver
      refine ⟨_, nodes, hsolve, hnodes, ?_, ?_, hrun.atNode hm hvalid (atNode_root hm hprepare)⟩
      · change result.2.counters.nodes = nodes.length
        rw [hrun.count_nodes hm hvalid, Task.start, hzero, Nat.zero_add]
      · intro i s hs
        rw [hrun.count_before hm hvalid hs, Task.start, hzero, Nat.zero_add]

variable {V : Type} [DecidableEq V]

/-- On a built model the nodes listed for a driver are those it counts, from the first to the last,
and the domains at each of them are determined by the assignment there. -/
theorem nodesEntered_domains {calls : List (Call V)} {p : Problem V}
    (hp : Problem.ofCalls calls = .ok p) (config : Config) (driver : Driver) :
    ∃ run nodes, Strategy.solve ⟨driver, config⟩ p.model = .ok run ∧
      nodesEntered driver p.model config = .ok nodes ∧ run.stats.nodes = nodes.length ∧
      (∀ (i : Nat) (s : State), nodes[i]? = some s → s.counters.nodes = i) ∧
      ∀ s ∈ nodes,
        (∀ var a, s.assignment.valueOf var = some a → s.store.family var = {a}) ∧
        (config.ac3 = false → ∀ var, s.assignment.valueOf var = none →
          s.store.family var = p.model.allowed s.assignment var) ∧
        (config.ac3 = true →
          IsGreatest (p.model.consistentBelow (p.model.collapsed s.assignment)) s.store.family) ∧
        ∀ driver' config' nodes', nodesEntered driver' p.model config' = .ok nodes' →
          config'.ac3 = config.ac3 → ∀ t ∈ nodes',
            (∀ var, t.assignment.valueOf var = s.assignment.valueOf var) →
            t.store.domains = s.store.domains := by
  have hm := (Problem.faithful_of_ofCalls hp).wellFormed
  obtain ⟨run, nodes, hsolve, hnodes, hcount, hbefore, hall⟩ :=
    exists_nodesEntered config hm driver
  refine ⟨run, nodes, hsolve, hnodes, hcount, hbefore, fun s hs => ?_⟩
  have hnode := hall s hs
  refine ⟨fun _ _ => hnode.assigned, fun hac3 _ => hnode.checked hac3, hnode.swept, ?_⟩
  intro driver' config' nodes' hnodes' hac3 t ht hsame
  obtain ⟨_, others, _, hothers, _, _, hall'⟩ := exists_nodesEntered config' hm driver'
  obtain rfl := Except.ok.inj (hothers.symm.trans hnodes')
  exact hnode.domains_eq hm (hall' t ht) hac3 hsame

theorem nodesEntered_domains_chain :
    ∃ p run nodes, Problem.ofCalls Call.ascendingChain = .ok p ∧
      Strategy.solve ⟨.explicit, .plain⟩ p.model = .ok run ∧
      nodesEntered .explicit p.model .plain = .ok nodes ∧ run.stats.nodes = nodes.length ∧
      ∀ s ∈ nodes, ∀ var, s.assignment.valueOf var = none →
        s.store.family var = p.model.allowed s.assignment var := by
  obtain ⟨p, hp⟩ := Call.exists_ofCalls_ascendingChain
  obtain ⟨run, nodes, hsolve, hnodes, hcount, _, hall⟩ := nodesEntered_domains hp .plain .explicit
  exact ⟨p, run, nodes, hp, hsolve, hnodes, hcount, fun s hs => (hall s hs).2.1 rfl⟩

end Search

end BinaryCsp
