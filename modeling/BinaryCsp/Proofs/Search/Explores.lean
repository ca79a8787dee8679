import BinaryCsp.Search.Recursive
import BinaryCsp.Proofs.Search.Moves

/-! # The course of a search

`Explores` relates a part of a search to the nodes it enters and the result it ends in. It holds
exactly the moves that are made, so that a property of all searches is an induction on it: one case
for each thing that can happen at a node or at a value. Every part of a search that starts in a
sound state has such a course, and its length is bounded by the number of unassigned variables.
-/

namespace BinaryCsp.Search

open State

inductive Task where
  /-- The search below the node `s`. -/
  | node (levels : Nat) (s : State)
  /-- The search through the values `rest` of `var` that are left to try at the node `node`. -/
  | values (levels : Nat) (node : State) (var : VarId) (rest : List ValId) (s : State)

namespace Task

def origin : Task → State
  | .node _ s => s
  | .values _ owner _ _ _ => owner

def start : Task → State
  | .node _ s => s
  | .values _ _ _ _ s => s

def run (m : Model) (config : Config) : Task → Checked Result
  | .node levels s => descend m config levels s
  | .values levels owner var rest s =>
      tryAll m config (descend m config levels) var owner.store.checkpoint rest s

end Task

/-- `Explores m config task nodes moves result` says that `task` enters `nodes` in this order and
ends in `result`. The `moves` are the values tried and the variables released on the way. -/
inductive Explores (m : Model) (config : Config) : Task → List State → Nat → Result → Prop where
  | leaf {levels : Nat} {s : State} {result : Result} (empty : s.pool.isEmpty = true)
      (solution : s.enterNode.solution? m = .ok result) :
      Explores m config (.node levels s) [s] 0 result
  | branch {levels : Nat} {s t : State} {var : VarId} {values : List ValId} {nodes : List State}
      {moves : Nat} {result : Result} (nonempty : s.pool.isEmpty = false)
      (choose : s.enterNode.chooseVariable m config = .ok (some var, t))
      (order : t.orderedValues m config var = .ok values)
      (below : Explores m config (.values levels s var values t) nodes moves result) :
      Explores m config (.node (levels + 1) s) (s :: nodes) moves result
  | exhausted {levels : Nat} {node s t : State} {var : VarId} (release : s.release var = .ok t) :
      Explores m config (.values levels node var [] s) [] 1 (none, t)
  | failed {levels : Nat} {node s t u : State} {var : VarId} {value : ValId} {rest : List ValId}
      {nodes : List State} {moves : Nat} {result : Result}
      (tried : s.tryValue m config var value = .ok (false, t))
      (abandon : t.abandon node.store.checkpoint = .ok u)
      (next : Explores m config (.values levels node var rest u) nodes moves result) :
      Explores m config (.values levels node var (value :: rest) s) nodes (moves + 1) result
  | found {levels : Nat} {node s t u : State} {var : VarId} {value : ValId} {rest : List ValId}
      {nodes : List State} {moves : Nat} {values : List ValId}
      (tried : s.tryValue m config var value = .ok (true, t))
      (below : Explores m config (.node levels t) nodes moves (some values, u)) :
      Explores m config (.values levels node var (value :: rest) s) nodes (moves + 1)
        (some values, u)
  | back {levels : Nat} {node s t u w : State} {var : VarId} {value : ValId} {rest : List ValId}
      {nodes later : List State} {moves more : Nat} {result : Result}
      (tried : s.tryValue m config var value = .ok (true, t))
      (below : Explores m config (.node levels t) nodes moves (none, u))
      (abandon : u.abandon node.store.checkpoint = .ok w)
      (next : Explores m config (.values levels node var rest w) later more result) :
      Explores m config (.values levels node var (value :: rest) s) (nodes ++ later)
        (moves + more + 1) result

variable {m : Model} {config : Config} {task : Task} {nodes : List State} {moves : Nat}
  {result : Result}

section Run

variable {levels : Nat} {node s t u w : State} {var : VarId} {value : ValId} {rest : List ValId}

theorem Task.run_branch {values : List ValId} (nonempty : s.pool.isEmpty = false)
    (choose : s.enterNode.chooseVariable m config = .ok (some var, t))
    (order : t.orderedValues m config var = .ok values) :
    (Task.node (levels + 1) s).run m config = (Task.values levels s var values t).run m config := by
  have hnonempty : s.enterNode.pool.isEmpty = false := nonempty
  simp only [run, descend, hnonempty, Bool.false_eq_true, if_false, choose, Checked.ok_bind, order]
  rfl

theorem Task.run_failed (tried : s.tryValue m config var value = .ok (false, t))
    (abandon : t.abandon node.store.checkpoint = .ok u) :
    (Task.values levels node var (value :: rest) s).run m config =
      (Task.values levels node var rest u).run m config := by
  simp only [run, tryAll, tried, Checked.ok_bind, abandon]

theorem Task.run_back (tried : s.tryValue m config var value = .ok (true, t))
    (below : (Task.node levels t).run m config = .ok (none, u))
    (abandon : u.abandon node.store.checkpoint = .ok w) :
    (Task.values levels node var (value :: rest) s).run m config =
      (Task.values levels node var rest w).run m config := by
  unfold run at below
  simp only [run, tryAll, tried, Checked.ok_bind, below, abandon]

end Run

/-- The recursion makes exactly these moves. -/
theorem Explores.run_eq (h : Explores m config task nodes moves result) :
    task.run m config = .ok result := by
  induction h with
  | @leaf levels s result empty solution =>
      have hempty : s.enterNode.pool.isEmpty = true := empty
      cases levels with
      | zero => simp only [Task.run, descend, hempty, if_true, solution]
      | succ levels => simp only [Task.run, descend, hempty, if_true, solution]
  | branch nonempty choose order below ih => rw [Task.run_branch nonempty choose order, ih]
  | exhausted release =>
      simp only [Task.run, tryAll, release, Checked.ok_bind]
      rfl
  | failed tried abandon next ih => rw [Task.run_failed tried abandon, ih]
  | found tried below ih =>
      simp only [Task.run] at ih
      simp only [Task.run, tryAll, tried, Checked.ok_bind, ih]
      rfl
  | back tried below abandon next ihbelow ihnext =>
      rw [Task.run_back tried ihbelow abandon, ihnext]

/-! ## Parts of a search in a sound state -/

/-- The values left to try belong to the domain that `var` had at the node. -/
structure Branches (m : Model) (levels : Nat) (node : State) (var : VarId) (rest : List ValId)
    (s : State) : Prop where
  sound : node.Sound m
  room : node.pool.count ≤ levels + 1
  has : node.pool.Has var
  branching : Branching m node var s
  mem : ∀ value ∈ rest, value ∈ node.store.family var

/-- A part of a search that starts in a sound state, with a level for each unassigned variable. -/
def Task.Valid (m : Model) : Task → Prop
  | .node levels s => s.Sound m ∧ s.pool.count ≤ levels
  | .values levels owner var rest s => Branches m levels owner var rest s

section Valid

variable {levels : Nat} {node s t u w : State} {var : VarId} {value : ValId} {rest : List ValId}

theorem Task.Valid.sound (h : task.Valid m) : task.origin.Sound m := by
  cases task with
  | node levels s => exact h.1
  | values levels node var rest s => exact Branches.sound h

/-- A node that is not a leaf has a variable to branch on. -/
theorem exists_branches (config : Config) (hm : m.WellFormed) (hs : s.Sound m)
    (hroom : s.pool.count ≤ levels + 1) (hnonempty : s.pool.isEmpty = false) :
    ∃ var t values, s.enterNode.chooseVariable m config = .ok (some var, t) ∧
      t.orderedValues m config var = .ok values ∧ values.Nodup ∧
      (∀ value, value ∈ values ↔ value ∈ s.store.family var) ∧
      Branches m levels s var values t ∧ t.counters = s.enterNode.counters := by
  obtain ⟨var, t, hchoose, hvar, hbranch, hcounters⟩ :=
    chooseVariable_spec config hm hs.enterNode hnonempty
  obtain ⟨values, horder, hnodup, hvalues⟩ := orderedValues_spec config hm hbranch hs.enterNode hvar
  have hbranch' : Branching m s var t :=
    ⟨hbranch.store, hbranch.pool, hbranch.assignment, hbranch.size⟩
  exact ⟨var, t, values, hchoose, horder, hnodup, hvalues,
    ⟨hs, hroom, hvar, hbranch', fun value hvalue => (hvalues value).1 hvalue⟩, hcounters⟩

theorem branches_of_choose (hm : m.WellFormed) (hs : s.Sound m)
    (hroom : s.pool.count ≤ levels + 1) (hnonempty : s.pool.isEmpty = false)
    (hchoose : s.enterNode.chooseVariable m config = .ok (some var, t)) {values : List ValId}
    (horder : t.orderedValues m config var = .ok values) :
    Branches m levels s var values t ∧ (∀ value, value ∈ values ↔ value ∈ s.store.family var) ∧
      t.counters = s.enterNode.counters := by
  obtain ⟨var', t', values', hchoose', horder', _, hvalues, h, hcounters⟩ :=
    exists_branches config hm hs hroom hnonempty
  obtain ⟨hvar, rfl⟩ := Prod.mk.inj (Except.ok.inj (hchoose'.symm.trans hchoose))
  obtain rfl := Option.some.inj hvar
  obtain rfl := Except.ok.inj (horder'.symm.trans horder)
  exact ⟨h, hvalues, hcounters⟩

namespace Branches

theorem not_has (h : Branches m levels node var rest s) : ¬ s.pool.Has var :=
  fun hin => ((h.branching.has_iff h.sound h.has).1 hin).2 rfl

theorem exists_tried (config : Config) (hm : m.WellFormed)
    (h : Branches m levels node var (value :: rest) s) :
    ∃ kept t, s.tryValue m config var value = .ok (kept, t) ∧
      Tried m config s var value kept t := by
  have hvalue := h.mem value (by simp)
  rw [← h.branching.store] at hvalue
  exact tryValue_spec config hm (h.branching.sound h.sound h.has) hvalue h.not_has

theorem tried (hm : m.WellFormed) (h : Branches m levels node var (value :: rest) s) {kept : Bool}
    (htry : s.tryValue m config var value = .ok (kept, t)) :
    Tried m config s var value kept t := by
  obtain ⟨kept', t', htry', ht⟩ := h.exists_tried config hm
  obtain ⟨rfl, rfl⟩ := Prod.mk.inj (Except.ok.inj (htry'.symm.trans htry))
  exact ht

theorem child (h : Branches m levels node var rest s) {kept : Bool}
    (ht : Tried m config s var value kept t) : (Task.node levels t).Valid m := by
  refine ⟨ht.sound (h.branching.sound h.sound h.has) h.not_has, ?_⟩
  have hcount := h.branching.count h.sound h.has
  have hroom := h.room
  rw [ht.pool]
  omega

theorem exists_next (h : Branches m levels node var (value :: rest) s) {kept : Bool}
    (ht : Tried m config s var value kept t) (hu : Restored t u) :
    ∃ w, u.abandon node.store.checkpoint = .ok w ∧ Branches m levels node var rest w ∧
      w.counters = u.counters.countBacktrack := by
  obtain ⟨w, habandon, hw, hcounters⟩ := h.branching.abandon h.sound ht hu
  exact ⟨w, habandon, ⟨h.sound, h.room, h.has, hw, fun v hv => h.mem v (by simp [hv])⟩, hcounters⟩

theorem next (h : Branches m levels node var (value :: rest) s) {kept : Bool}
    (ht : Tried m config s var value kept t) (hu : Restored t u)
    (habandon : u.abandon node.store.checkpoint = .ok w) :
    Branches m levels node var rest w ∧ w.counters = u.counters.countBacktrack := by
  obtain ⟨w', habandon', h'⟩ := h.exists_next ht hu
  obtain rfl := Except.ok.inj (habandon'.symm.trans habandon)
  exact h'

theorem released (h : Branches m levels node var rest s) (hrelease : s.release var = .ok t) :
    Restored node t ∧ t.counters = s.counters := by
  obtain ⟨t', hrelease', ht⟩ := h.branching.release h.sound h.has
  obtain rfl := Except.ok.inj (hrelease'.symm.trans hrelease)
  exact ht

end Branches

end Valid

/-- A part of a search that fails leaves its node as it was. -/
theorem Explores.restored (hm : m.WellFormed) (h : Explores m config task nodes moves result)
    (hvalid : task.Valid m) (hnone : result.1 = none) : Restored task.origin result.2 := by
  induction h with
  | leaf empty solution =>
      obtain ⟨hstore, hpool, hassignment, hsize⟩ := (Restored.of_solution? solution).1
      exact ⟨hstore, hpool, hassignment, hsize⟩
  | branch nonempty choose order below ih =>
      exact ih (branches_of_choose hm hvalid.1 hvalid.2 nonempty choose order).1 hnone
  | exhausted release => exact (Branches.released hvalid release).1
  | @failed _ _ _ t _ _ _ _ _ _ _ tried abandon next ih =>
      exact ih (Branches.next hvalid (Branches.tried hm hvalid tried) (.refl t) abandon).1 hnone
  | found tried below ih => cases hnone
  | back tried below abandon next ihbelow ihnext =>
      have ht := Branches.tried hm hvalid tried
      have hu := ihbelow (Branches.child hvalid ht) rfl
      exact ihnext (Branches.next hvalid ht hu abandon).1 hnone

theorem Explores.count_nodes (hm : m.WellFormed) (h : Explores m config task nodes moves result)
    (hvalid : task.Valid m) :
    result.2.counters.nodes = task.start.counters.nodes + nodes.length := by
  induction h with
  | @leaf levels s result empty solution =>
      rw [(Restored.of_solution? solution).2]
      rfl
  | @branch levels s t var values nodes moves result nonempty choose order below ih =>
      obtain ⟨h, _, hcounters⟩ := branches_of_choose hm hvalid.1 hvalid.2 nonempty choose order
      have hcount : t.counters.nodes = s.counters.nodes + 1 := by rw [hcounters]; rfl
      have hbelow := ih h
      simp only [Task.start, List.length_cons] at hbelow ⊢
      omega
  | exhausted release =>
      rw [(Branches.released hvalid release).2]
      rfl
  | @failed _ _ _ t _ _ _ _ _ _ _ tried abandon next ih =>
      have ht := Branches.tried hm hvalid tried
      obtain ⟨hnext, hcounters⟩ := Branches.next hvalid ht (.refl t) abandon
      have hrest := ih hnext
      simp only [Task.start, hcounters, Counters.countBacktrack] at hrest ⊢
      rw [hrest, ht.nodes]
  | found tried below ih =>
      have ht := Branches.tried hm hvalid tried
      have hbelow := ih (Branches.child hvalid ht)
      simp only [Task.start] at hbelow ⊢
      rw [hbelow, ht.nodes]
  | back tried below abandon next ihbelow ihnext =>
      have ht := Branches.tried hm hvalid tried
      have hchild := Branches.child hvalid ht
      obtain ⟨hnext, hcounters⟩ := Branches.next hvalid ht (below.restored hm hchild rfl) abandon
      have hbelow := ihbelow hchild
      have hrest := ihnext hnext
      simp only [Task.start, hcounters, Counters.countBacktrack] at hbelow hrest ⊢
      rw [hrest, hbelow, ht.nodes, List.length_append, Nat.add_assoc]

/-- A node is entered when as many have been counted as were entered before it. -/
theorem Explores.count_before (hm : m.WellFormed) (h : Explores m config task nodes moves result)
    (hvalid : task.Valid m) {i : Nat} {s : State} (hs : nodes[i]? = some s) :
    s.counters.nodes = task.start.counters.nodes + i := by
  induction h generalizing i with
  | @leaf levels s result empty solution =>
      obtain ⟨hi, rfl⟩ := List.getElem?_eq_some_iff.1 hs
      obtain rfl : i = 0 := by simpa using hi
      rfl
  | @branch levels node t var values nodes moves result nonempty choose order below ih =>
      cases i with
      | zero =>
          obtain rfl : node = s := by simpa using hs
          rfl
      | succ i =>
          obtain ⟨h, _, hcounters⟩ := branches_of_choose hm hvalid.1 hvalid.2 nonempty choose order
          have hcount : t.counters.nodes = node.counters.nodes + 1 := by rw [hcounters]; rfl
          have hbelow := ih h (by simpa using hs)
          simp only [Task.start] at hbelow ⊢
          omega
  | exhausted release => simp at hs
  | @failed _ _ _ t _ _ _ _ _ _ _ tried abandon next ih =>
      have ht := Branches.tried hm hvalid tried
      obtain ⟨hnext, hcounters⟩ := Branches.next hvalid ht (.refl t) abandon
      have hrest := ih hnext hs
      simp only [Task.start, hcounters, Counters.countBacktrack] at hrest ⊢
      rw [hrest, ht.nodes]
  | found tried below ih =>
      have ht := Branches.tried hm hvalid tried
      have hbelow := ih (Branches.child hvalid ht) hs
      simp only [Task.start] at hbelow ⊢
      rw [hbelow, ht.nodes]
  | @back _ _ _ _ _ _ _ _ _ nodes _ _ _ _ tried below abandon next ihbelow ihnext =>
      have ht := Branches.tried hm hvalid tried
      have hchild := Branches.child hvalid ht
      obtain ⟨hnext, hcounters⟩ := Branches.next hvalid ht (below.restored hm hchild rfl) abandon
      have hcount := below.count_nodes hm hchild
      rw [List.getElem?_append] at hs
      split at hs
      · have hbelow := ihbelow hchild hs
        simp only [Task.start] at hbelow ⊢
        rw [hbelow, ht.nodes]
      · have hrest := ihnext hnext hs
        simp only [Task.start, hcounters, Counters.countBacktrack] at hcount hrest ⊢
        rw [hrest, hcount, ht.nodes]
        omega

/-- What goes from each node to the nodes below its values holds at every node entered. -/
theorem Explores.forall_nodes {P : State → Prop} (hm : m.WellFormed)
    (hchild : ∀ {levels : Nat} {node s t : State} {var : VarId} {value : ValId}
      {rest : List ValId}, P node → Branches m levels node var (value :: rest) s →
      Tried m config s var value true t → P t)
    (h : Explores m config task nodes moves result) (hvalid : task.Valid m)
    (horigin : P task.origin) : ∀ s ∈ nodes, P s := by
  induction h with
  | leaf empty solution =>
      intro s hs
      rw [List.mem_singleton.1 hs]
      exact horigin
  | branch nonempty choose order below ih =>
      have hbranches := (branches_of_choose hm hvalid.1 hvalid.2 nonempty choose order).1
      intro s hs
      rcases List.mem_cons.1 hs with rfl | hs
      · exact horigin
      · exact ih hbranches horigin s hs
  | exhausted release =>
      intro s hs
      cases hs
  | @failed _ _ _ t _ _ _ _ _ _ _ tried abandon next ih =>
      have ht := Branches.tried hm hvalid tried
      exact ih (Branches.next hvalid ht (.refl t) abandon).1 horigin
  | found tried below ih =>
      have ht := Branches.tried hm hvalid tried
      exact ih (Branches.child hvalid ht) (hchild horigin hvalid ht)
  | back tried below abandon next ihbelow ihnext =>
      have ht := Branches.tried hm hvalid tried
      have hbelow := Branches.child hvalid ht
      have hnext := (Branches.next hvalid ht (below.restored hm hbelow rfl) abandon).1
      intro s hs
      rcases List.mem_append.1 hs with hs | hs
      · exact ihbelow hbelow (hchild horigin hvalid ht) s hs
      · exact ihnext hnext horigin s hs

/-! ## Every search has a course -/

section Exists

variable {levels : Nat} {node s t : State} {var : VarId} {value : ValId} {rest : List ValId}

def State.InRange (m : Model) (s : State) : Prop :=
  ∀ {var : VarId} {a : ValId}, s.assignment.valueOf var = some a → a < m.valueCount

/-- More moves than a node with `k` unassigned variables can take. -/
def nodeBound (m : Model) (k : Nat) : Nat := Nat.pow (m.valueCount + 2) k

theorem nodeBound_pos (m : Model) (k : Nat) : 0 < nodeBound m k := Nat.pow_pos (by omega)

theorem nodeBound_succ (m : Model) (k : Nat) :
    nodeBound m (k + 1) = m.valueCount * nodeBound m k + 2 * nodeBound m k := by
  rw [← Nat.add_mul, Nat.mul_comm]
  rfl

theorem Branches.inRange_child (h : Branches m levels node var (value :: rest) s)
    (hrange : node.InRange m) {kept : Bool} (ht : Tried m config s var value kept t) :
    t.InRange m := by
  intro other a ha
  rw [PartialAssignment.valueOf_of_set ht.assignment] at ha
  by_cases ho : other = var
  · rw [if_pos ho] at ha
    obtain rfl := Option.some.inj ha
    exact h.sound.store.bounded (h.mem value (by simp))
  · rw [if_neg ho, h.branching.valueOf ho] at ha
    exact hrange ha

/-- A part of a search has a course of fewer than `bound` moves, unless it breaks off at a table
read out of range, and then a value was assigned that is none of the model. -/
def Task.Ends (m : Model) (config : Config) (task : Task) (bound : Nat) : Prop :=
  (∃ nodes moves result, Explores m config task nodes moves result ∧ moves < bound) ∨
    ¬ task.origin.InRange m ∧ ∃ index size, task.run m config = .error (.outOfRange index size)

theorem leaf_ends (hm : m.WellFormed) (hs : s.Sound m) (hempty : s.pool.isEmpty = true) :
    (Task.node levels s).Ends m config (nodeBound m s.pool.count) := by
  cases hsolution : s.enterNode.solution? m with
  | ok result => exact .inl ⟨[s], 0, result, .leaf hempty hsolution, nodeBound_pos m _⟩
  | error fault =>
      obtain ⟨index, size, rfl⟩ := solution?_onlyOutOfRange m s.enterNode fault hsolution
      refine .inr ⟨fun hrange => ?_, index, size, ?_⟩
      · obtain ⟨found, t, hfound⟩ := exists_solution? hm hs.enterNode hrange
        rw [hsolution] at hfound
        cases hfound
      · have hempty' : s.enterNode.pool.isEmpty = true := hempty
        cases levels with
        | zero => simp only [Task.run, descend, hempty', if_true, hsolution]
        | succ levels => simp only [Task.run, descend, hempty', if_true, hsolution]

/-- Trying values comes to an end if the search below each of them does. -/
theorem values_end (hm : m.WellFormed)
    (hbelow : ∀ t : State, (Task.node levels t).Valid m →
      (Task.node levels t).Ends m config (nodeBound m t.pool.count))
    (h : Branches m levels node var rest s) :
    (Task.values levels node var rest s).Ends m config
      (rest.length * nodeBound m s.pool.count + 2) := by
  induction rest generalizing s with
  | nil =>
      obtain ⟨t, hrelease, _⟩ := h.branching.release h.sound h.has
      exact .inl ⟨[], 1, (none, t), .exhausted hrelease, by omega⟩
  | cons value rest ih =>
      have hpos := nodeBound_pos m s.pool.count
      have hlength : (value :: rest).length * nodeBound m s.pool.count =
          rest.length * nodeBound m s.pool.count + nodeBound m s.pool.count := by
        rw [List.length_cons, Nat.succ_mul]
      -- Giving the value up leads back to the same pool, so the bound for the rest applies.
      have hrest : ∀ {kept t u}, Tried m config s var value kept t → Restored t u →
          ∃ w, u.abandon node.store.checkpoint = .ok w ∧
            (Task.values levels node var rest w).Ends m config
              (rest.length * nodeBound m s.pool.count + 2) := by
        intro kept t u ht hu
        obtain ⟨w, habandon, hw, _⟩ := h.exists_next ht hu
        have hpool : w.pool = s.pool :=
          Except.ok.inj (hw.branching.pool.symm.trans h.branching.pool)
        exact ⟨w, habandon, hpool ▸ ih hw⟩
      obtain ⟨kept, t, htry, ht⟩ := h.exists_tried config hm
      cases kept with
      | false =>
          obtain ⟨w, habandon, hends⟩ := hrest ht (.refl t)
          rcases hends with ⟨nodes, moves, result, hrun, hmoves⟩ | ⟨hrange, hfault⟩
          · exact .inl ⟨nodes, moves + 1, result, .failed htry habandon hrun, by omega⟩
          · exact .inr ⟨hrange, by rwa [Task.run_failed htry habandon]⟩
      | true =>
          have hchild := h.child ht
          rcases hbelow t hchild with ⟨nodes, moves, ⟨found, u⟩, hrun, hmoves⟩ |
            ⟨hrange, index, size, hfault⟩
          · rw [ht.pool] at hmoves
            cases found with
            | some values =>
                exact .inl ⟨nodes, moves + 1, (some values, u), .found htry hrun, by omega⟩
            | none =>
                obtain ⟨w, habandon, hends⟩ := hrest ht (hrun.restored hm hchild rfl)
                rcases hends with ⟨later, more, result, hnext, hmore⟩ | ⟨hrange, hfault⟩
                · exact .inl ⟨nodes ++ later, moves + more + 1, result,
                    .back htry hrun habandon hnext, by omega⟩
                · exact .inr ⟨hrange, by rwa [Task.run_back htry hrun.run_eq habandon]⟩
          · refine .inr ⟨fun hnode => hrange (h.inRange_child hnode ht), index, size, ?_⟩
            unfold Task.run at hfault ⊢
            simp only [tryAll, htry, Checked.ok_bind, hfault, Checked.error_bind]

theorem node_ends (hm : m.WellFormed) (hvalid : (Task.node levels s).Valid m) :
    (Task.node levels s).Ends m config (nodeBound m s.pool.count) := by
  induction levels generalizing s with
  | zero =>
      have hempty : s.pool.isEmpty = true := by simp [Pool.isEmpty, Nat.le_zero.1 hvalid.2]
      exact leaf_ends hm hvalid.1 hempty
  | succ levels ih =>
      cases hempty : s.pool.isEmpty with
      | true => exact leaf_ends hm hvalid.1 hempty
      | false =>
          obtain ⟨var, t, values, hchoose, horder, hnodup, _, hbranches, _⟩ :=
            exists_branches config hm hvalid.1 hvalid.2 hempty
          rcases values_end hm (fun t ht => ih ht) hbranches with
            ⟨nodes, moves, result, hrun, hmoves⟩ | ⟨hrange, hfault⟩
          · refine .inl ⟨s :: nodes, moves, result, .branch hempty hchoose horder hrun, ?_⟩
            have hlength : values.length ≤ m.valueCount := by
              have hsub : values ⊆ List.range m.valueCount := fun value hvalue =>
                List.mem_range.2 (hvalid.1.store.bounded (hbranches.mem value hvalue))
              simpa using (List.subperm_of_subset hnodup hsub).length_le
            have hcount := hbranches.branching.count hbranches.sound hbranches.has
            have hpos := nodeBound_pos m t.pool.count
            have hmul : values.length * nodeBound m t.pool.count ≤
                m.valueCount * nodeBound m t.pool.count := Nat.mul_le_mul_right _ hlength
            rw [← hcount, nodeBound_succ]
            omega
          · exact .inr ⟨hrange, by rwa [Task.run_branch hempty hchoose horder]⟩

theorem exists_explores (hm : m.WellFormed) (hvalid : (Task.node levels s).Valid m)
    (hrange : s.InRange m) :
    ∃ nodes moves result, Explores m config (.node levels s) nodes moves result ∧
      moves < nodeBound m s.pool.count :=
  (node_ends hm hvalid).resolve_right fun h => h.1 hrange

end Exists

end BinaryCsp.Search
