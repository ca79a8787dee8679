import BinaryCsp.Proofs.Consistency
import Mathlib.Combinatorics.SimpleGraph.Acyclic

/-! # Arc consistency on constraint graphs without cycles

If the relations of a model close no cycle, a relation is a bridge: without it, its two variables
lie in different parts of the graph. A choice for one part and a choice for the other then fit
together as soon as they go together across the bridge, and arc consistency provides for that. So
every value of an arc consistent family without empty domains belongs to a solution.
-/

namespace BinaryCsp

/-- The graph that joins the two variables of each relation. -/
def Relation.graph (relations : List Relation) : SimpleGraph VarId :=
  SimpleGraph.fromRel fun a b => ∃ r ∈ relations, r.pair = ⟨a, b⟩

theorem Relation.graph_nil : graph [] = ⊥ := by
  ext a b
  simp [graph, SimpleGraph.fromRel_adj]

theorem Relation.graph_cons (r : Relation) (rest : List Relation) :
    graph (r :: rest) = graph rest ⊔ SimpleGraph.edge r.pair.lower r.pair.higher := by
  obtain ⟨⟨lower, higher⟩, _, _⟩ := r
  ext a b
  simp only [graph, SimpleGraph.fromRel_adj, SimpleGraph.sup_adj, SimpleGraph.edge_adj,
    List.mem_cons, exists_eq_or_imp, VarPair.mk.injEq]
  grind

namespace Model

def graph (m : Model) : SimpleGraph VarId := Relation.graph m.relations.toList

variable {m : Model} {f : Family}

theorem WellFormed.graph_adj (hm : m.WellFormed) {var other : VarId} :
    m.graph.Adj var other ↔ ∃ link, m.Connects var link ∧ link.other = other := by
  unfold graph Relation.graph
  rw [SimpleGraph.fromRel_adj]
  constructor
  · rintro ⟨_, ⟨r, hr, hpair⟩ | ⟨r, hr, hpair⟩⟩
    · obtain ⟨id, hid⟩ := Array.getElem?_of_mem (Array.mem_toList_iff.1 hr)
      exact ⟨⟨other, id, false⟩, ⟨r, hid, hpair⟩, rfl⟩
    · obtain ⟨id, hid⟩ := Array.getElem?_of_mem (Array.mem_toList_iff.1 hr)
      exact ⟨⟨other, id, true⟩, ⟨r, hid, hpair⟩, rfl⟩
  · rintro ⟨link, hlink, rfl⟩
    refine ⟨(hm.connects_bounds hlink).2.2, ?_⟩
    obtain ⟨r, hget, hpair⟩ := hlink
    have hr := Array.mem_toList_iff.2 (Array.mem_of_getElem? hget)
    cases hreversed : link.reversed with
    | false => exact .inl ⟨r, hr, by simpa [hreversed] using hpair⟩
    | true => exact .inr ⟨r, hr, by simpa [hreversed] using hpair⟩

structure FitsAlong (m : Model) (G : SimpleGraph VarId) (pick : VarId → ValId) (f : Family) :
    Prop where
  mem : ∀ {var : VarId}, var < m.variableCount → pick var ∈ f var
  compatible : ∀ {var other : VarId}, G.Adj var other →
    m.Compatible var (pick var) other (pick other)

open Classical in
/-- The choice `q` in the part of the graph that `w` belongs to, and `p` everywhere else. -/
noncomputable def spliced (G : SimpleGraph VarId) (w : VarId) (p q : VarId → ValId) :
    VarId → ValId :=
  fun var => if G.Reachable w var then q var else p var

theorem FitsAlong.splice (hm : m.WellFormed) {G : SimpleGraph VarId} {u w : VarId}
    {p q : VarId → ValId} (hp : m.FitsAlong G p f) (hq : m.FitsAlong G q f)
    (hapart : ¬ G.Reachable w u) (hbridge : m.Compatible u (p u) w (q w)) :
    m.FitsAlong (G ⊔ SimpleGraph.edge u w) (spliced G w p q) f where
  mem := by
    intro var hvar
    unfold spliced
    split
    · exact hq.mem hvar
    · exact hp.mem hvar
  compatible := by
    intro var other hadj
    have hu : spliced G w p q u = p u := if_neg hapart
    have hw : spliced G w p q w = q w := if_pos .rfl
    rcases hadj with hadj | hadj
    · by_cases hvar : G.Reachable w var
      · have hother := hvar.trans hadj.reachable
        rw [spliced, spliced, if_pos hvar, if_pos hother]
        exact hq.compatible hadj
      · have hother : ¬ G.Reachable w other := fun h => hvar (h.trans hadj.symm.reachable)
        rw [spliced, spliced, if_neg hvar, if_neg hother]
        exact hp.compatible hadj
    · rw [SimpleGraph.edge_adj] at hadj
      rcases hadj.1 with ⟨rfl, rfl⟩ | ⟨rfl, rfl⟩
      · rw [hu, hw]
        exact hbridge
      · rw [hu, hw, hm.compatible_comm]
        exact hbridge

section Acyclic

variable {relations : List Relation} {var u w : VarId} {value : ValId}

theorem exists_fitsAlong_bot (hfull : ∀ var < m.variableCount, (f var).Nonempty)
    (hvalue : value ∈ f var) : ∃ pick, m.FitsAlong ⊥ pick f ∧ pick var = value := by
  have hpick : ∀ other, ∃ a, (other < m.variableCount → a ∈ f other) ∧
      (other = var → a = value) := by
    intro other
    by_cases hother : other = var
    · exact ⟨value, fun _ => hother ▸ hvalue, fun _ => rfl⟩
    · by_cases hlt : other < m.variableCount
      · obtain ⟨a, ha⟩ := hfull other hlt
        exact ⟨a, fun _ => ha, fun h => absurd h hother⟩
      · exact ⟨0, fun h => absurd h hlt, fun h => absurd h hother⟩
  choose pick hmem hself using hpick
  exact ⟨pick, ⟨fun hlt => hmem _ hlt, fun hadj => hadj.elim⟩, hself var rfl⟩

/-- Crossing a bridge: what can be picked on both sides of it can be picked across it. -/
theorem exists_fitsAlong_bridge (hm : m.WellFormed) (hf : m.ArcConsistent f)
    {G : SimpleGraph VarId}
    (hsides : ∀ {var : VarId} {value : ValId}, value ∈ f var →
      ∃ pick, m.FitsAlong G pick f ∧ pick var = value)
    (hadj : m.graph.Adj u w) (hapart : ¬ G.Reachable w u) (hvar : ¬ G.Reachable w var)
    (hvalue : value ∈ f var) :
    ∃ pick, m.FitsAlong (G ⊔ SimpleGraph.edge u w) pick f ∧ pick var = value := by
  obtain ⟨link, hlink, rfl⟩ := hm.graph_adj.1 hadj
  obtain ⟨p, hp, hpvar⟩ := hsides hvalue
  have hu : p u ∈ f u := hp.mem (hm.connects_bounds hlink).1
  obtain ⟨b, hb, hcompat⟩ := hm.arcConsistent_iff.1 hf u link hlink (p u) hu
  obtain ⟨q, hq, hqw⟩ := hsides hb
  refine ⟨spliced G link.other p q, hp.splice hm hq hapart ?_, ?_⟩
  · rwa [hqw]
  · rw [spliced, if_neg hvar, hpvar]

theorem exists_fitsAlong (hm : m.WellFormed) (hf : m.ArcConsistent f)
    (hfull : ∀ var < m.variableCount, (f var).Nonempty)
    (hsub : Relation.graph relations ≤ m.graph) (hacyclic : (Relation.graph relations).IsAcyclic)
    (hvalue : value ∈ f var) :
    ∃ pick, m.FitsAlong (Relation.graph relations) pick f ∧ pick var = value := by
  induction relations generalizing var value with
  | nil =>
      rw [Relation.graph_nil]
      exact exists_fitsAlong_bot hfull hvalue
  | cons r rest ih =>
      rw [Relation.graph_cons] at hsub hacyclic ⊢
      obtain ⟨hrest, hclosed⟩ := SimpleGraph.isAcyclic_sup_fromEdgeSet_iff.1 hacyclic
      have hsides : ∀ {var : VarId} {value : ValId}, value ∈ f var →
          ∃ pick, m.FitsAlong (Relation.graph rest) pick f ∧ pick var = value :=
        fun hvalue => ih (le_sup_left.trans hsub) hrest hvalue
      by_cases hreach : (Relation.graph rest).Reachable r.pair.lower r.pair.higher
      · -- The two variables are joined already, so the relation adds no edge.
        have hsame : Relation.graph rest ⊔ SimpleGraph.edge r.pair.lower r.pair.higher =
            Relation.graph rest := by
          rcases hclosed hreach with heq | hadj
          · rw [heq, SimpleGraph.sup_edge_self]
          · exact SimpleGraph.sup_edge_of_adj _ hadj
        rw [hsame]
        exact hsides hvalue
      · have hne : r.pair.lower ≠ r.pair.higher := fun heq => hreach (heq ▸ .rfl)
        have hadj : m.graph.Adj r.pair.lower r.pair.higher :=
          hsub (.inr ((SimpleGraph.edge_adj _ _ _ _).2 ⟨.inl ⟨rfl, rfl⟩, hne⟩))
        -- The side on which `var` lies keeps its value, the other side gives way.
        by_cases hside : (Relation.graph rest).Reachable r.pair.higher var
        · rw [SimpleGraph.edge_comm]
          have hvar : ¬ (Relation.graph rest).Reachable r.pair.lower var :=
            fun h => hreach (h.trans hside.symm)
          exact exists_fitsAlong_bridge hm hf hsides hadj.symm hreach hvar hvalue
        · exact exists_fitsAlong_bridge hm hf hsides hadj (fun h => hreach h.symm) hside hvalue

/-- On a graph without cycles, every value of an arc consistent family without empty domains belongs
to a choice of compatible values. -/
theorem exists_fits_of_acyclic (hm : m.WellFormed) (hacyclic : m.graph.IsAcyclic)
    (hf : m.ArcConsistent f) (hfull : ∀ var < m.variableCount, (f var).Nonempty)
    (hvalue : value ∈ f var) : ∃ pick, m.Fits pick f ∧ pick var = value := by
  obtain ⟨pick, hpick, hvar⟩ := exists_fitsAlong hm hf hfull le_rfl hacyclic hvalue
  refine ⟨pick, ⟨hpick.mem, fun {a b} _ _ => ?_⟩, hvar⟩
  by_cases hadj : m.graph.Adj a b
  · exact hpick.compatible hadj
  · refine hm.compatible_of_not_connects fun link hlink hother => ?_
    exact hadj (hm.graph_adj.2 ⟨link, hlink, hother⟩)

theorem exists_fits_of_full (hm : m.WellFormed) (hacyclic : m.graph.IsAcyclic)
    (hf : m.ArcConsistent f) (hfull : ∀ var < m.variableCount, (f var).Nonempty) :
    ∃ pick, m.Fits pick f := by
  by_cases hsome : 0 < m.variableCount
  · obtain ⟨a, ha⟩ := hfull 0 hsome
    obtain ⟨pick, hpick, _⟩ := exists_fits_of_acyclic hm hacyclic hf hfull ha
    exact ⟨pick, hpick⟩
  · have hnone : ∀ {var : VarId}, ¬ var < m.variableCount :=
      fun hvar => hsome (Nat.zero_lt_of_lt hvar)
    exact ⟨fun _ => 0, fun hvar => absurd hvar hnone, fun hvar => absurd hvar hnone⟩

end Acyclic

end Model

end BinaryCsp
