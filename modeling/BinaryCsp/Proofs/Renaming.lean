import BinaryCsp.Proofs.Solver
import Mathlib.Logic.Function.Basic

/-! # Only equality between values matters

Values are numbered in the order in which they are first seen, and the model holds numbers alone.
So calls whose values are renamed, different ones differently, are turned down with the same error
or make the same model, and whatever the search does on it, the answer is the renamed one.
-/

namespace BinaryCsp

variable {V W : Type}

/-! ## Renamed data -/

def ValueTable.map (f : V → W) (t : ValueTable V) : ValueTable W where
  values := t.values.map f
  ids := t.ids.map (Prod.map f id)
  indexed := by rw [t.indexed, Array.toList_map, List.zipIdx_map]

def Call.map (f : V → W) : Call V → Call W
  | .newVariable domain => .newVariable (domain.map f)
  | .neighbour a b => .neighbour a b
  | .relation a b allowed => .relation a b (allowed.map (Prod.map f f))

def Builder.map (f : V → W) (b : Builder V) : Builder W where
  values := b.values.map f
  domains := b.domains
  edges := b.edges
  tables := b.tables.map (Prod.map id (List.map (Prod.map f f)))

def Problem.map (f : V → W) (p : Problem V) : Problem W := ⟨p.model, p.values.map f⟩

def Assignment.map (f : V → W) (a : Assignment V) : Assignment W := ⟨a.values.map f⟩

def Report.map (f : V → W) (r : Report V) : Report W :=
  ⟨r.assignment.map (Assignment.map f), r.stats, r.config⟩

/-! ## Numbering -/

section Numbering

variable [DecidableEq V] [DecidableEq W] {f : V → W}

namespace ValueTable

theorem lookup_map (hf : Function.Injective f) (entries : List (V × ValId)) (v : V) :
    (entries.map (Prod.map f id)).lookup (f v) = entries.lookup v := by
  rw [List.lookup_eq_findSome?, List.lookup_eq_findSome?, List.findSome?_map]
  congr 1
  funext entry
  simp [hf.eq_iff]

theorem idOf?_map (hf : Function.Injective f) (t : ValueTable V) (v : V) :
    (t.map f).idOf? (f v) = t.idOf? v :=
  lookup_map hf t.ids v

omit [DecidableEq V] [DecidableEq W] in
theorem push_map (f : V → W) (t : ValueTable V) (v : V) :
    (t.map f).push (f v) = (t.push v).map f :=
  ext_values (by simp [map, push])

theorem intern_map (hf : Function.Injective f) (t : ValueTable V) (v : V) :
    (t.map f).intern (f v) = Prod.map id (map f) (t.intern v) := by
  unfold intern
  rw [idOf?_map hf]
  cases t.idOf? v with
  | none =>
      have hsize : (t.map f).size = t.size := Array.size_map
      simp only [push_map, hsize, Prod.map_apply, id_eq]
  | some id => rfl

theorem internAll_map (hf : Function.Injective f) (t : ValueTable V) (vs : List V) :
    (t.map f).internAll (vs.map f) = Prod.map id (map f) (t.internAll vs) := by
  induction vs generalizing t with
  | nil => rfl
  | cons v rest ih => simp [internAll, intern_map hf, ih]

end ValueTable

/-! ## Building -/

namespace Builder

theorem apply_map (hf : Function.Injective f) (b : Builder V) (call : Call V) :
    (b.map f).apply (call.map f) = (b.apply call).map f := by
  cases call with
  | newVariable domain =>
      simp [apply, Call.map, addVariable, map, ValueTable.internAll_map hf]
  | neighbour x y => rfl
  | relation x y allowed =>
      have hswap : (Prod.swap ∘ Prod.map f f) = Prod.map f f ∘ Prod.swap := rfl
      by_cases hle : x ≤ y <;> simp [apply, Call.map, addRelation, map, hle, hswap]

theorem ofCalls_map (hf : Function.Injective f) (calls : List (Call V)) :
    ofCalls (calls.map (Call.map f)) = (ofCalls calls).map f := by
  have hstart : (empty : Builder W) = (empty : Builder V).map f := by
    simp [empty, map, ValueTable.empty, ValueTable.map]
  rw [ofCalls, List.foldl_map, hstart]
  exact List.foldl_hom (Builder.map f) fun b call => apply_map hf b call

theorem idsOf?_map (hf : Function.Injective f) (values : ValueTable V) (pair : V × V) :
    idsOf? (values.map f) (Prod.map f f pair) = idsOf? values pair := by
  simp [idsOf?, ValueTable.idOf?_map hf]

theorem relate_map (hf : Function.Injective f) (values : ValueTable V)
    (entry : VarPair × List (List (V × V))) :
    relate (values.map f) (Prod.map id (List.map (List.map (Prod.map f f))) entry) =
      relate values entry := by
  have hids : idsOf? (values.map f) ∘ Prod.map f f = idsOf? values :=
    funext fun pair => idsOf?_map hf values pair
  have htables : (entry.2.map (List.map (Prod.map f f))).mapM (·.mapM (idsOf? (values.map f))) =
      entry.2.mapM (·.mapM (idsOf? values)) := by
    rw [List.mapM_map]
    congr 1
    funext table
    rw [Function.comp_apply, List.mapM_map, hids]
  have hsize : (values.map f).size = values.size := Array.size_map
  simp only [relate, Prod.map_fst, Prod.map_snd, id_eq, htables, hsize]

theorem build_map (hf : Function.Injective f) (b : Builder V) :
    (b.map f).build = b.build.map (Problem.map f) := by
  have hrelate : relate (b.values.map f) ∘ Prod.map id (List.map (List.map (Prod.map f f))) =
      relate b.values :=
    funext fun entry => relate_map hf b.values entry
  have hrelations : (Ascending.group VarPair.before (b.map f).tables.toList).mapM
        (relate (b.map f).values) =
      (Ascending.group VarPair.before b.tables.toList).mapM (relate b.values) := by
    rw [map, Array.toList_map, Ascending.group_map, List.mapM_map, hrelate]
  have hsize : (b.map f).values.size = b.values.size := Array.size_map
  rw [build, build, hrelations, hsize]
  -- Neither the edges nor the relations made of the tables differ, so the checks end alike.
  cases hedges : b.edges.toList.forM (checkEdge b.variableCount) with
  | error error =>
      have hedges' : (b.map f).edges.toList.forM (checkEdge (b.map f).variableCount) =
          .error error := hedges
      rw [hedges']
      rfl
  | ok done =>
      have hedges' : (b.map f).edges.toList.forM (checkEdge (b.map f).variableCount) =
          .ok done := hedges
      rw [hedges', Checked.ok_bind]
      cases (Ascending.group VarPair.before b.tables.toList).mapM (relate b.values) with
      | error error => rfl
      | ok relations => rfl

end Builder

/-- Renamed calls have the same error, or make the same problem renamed. -/
theorem Problem.ofCalls_map (hf : Function.Injective f) (calls : List (Call V)) :
    Problem.ofCalls (calls.map (Call.map f)) = (Problem.ofCalls calls).map (Problem.map f) := by
  rw [Problem.ofCalls, Builder.ofCalls_map hf, Builder.build_map hf, Problem.ofCalls]

end Numbering

/-! ## Solving -/

section Solving

variable (f : V → W)

theorem Problem.value_map (p : Problem V) (id : ValId) :
    (p.map f).value id = (p.value id).map f := by
  by_cases hid : id < p.values.values.size
  · have hid' : id < (p.values.values.map f).size := by simpa using hid
    simp [value, Problem.map, ValueTable.map, ValueTable.value, Checked.get_of_lt hid,
      Checked.get_of_lt hid', Except.map]
  · simp [value, Problem.map, ValueTable.map, ValueTable.value, Checked.get, hid, Except.map]

theorem Problem.mapM_value_map (p : Problem V) (ids : List ValId) :
    ids.mapM (p.map f).value = (ids.mapM p.value).map (List.map f) := by
  induction ids with
  | nil => rfl
  | cons id rest ih =>
      rw [List.mapM_cons, List.mapM_cons, ih, value_map]
      cases p.value id with
      | error fault => rfl
      | ok v =>
          cases rest.mapM p.value with
          | error fault => rfl
          | ok values => rfl

/-- The search sees the model alone, and its answer is written in the new values. -/
theorem Solver.solve_map (p : Problem V) (strategy : Strategy) :
    Solver.solve ⟨p.map f, strategy⟩ = (Solver.solve ⟨p, strategy⟩).map (Report.map f) := by
  unfold Solver.solve
  have hmodel : (p.map f).model = p.model := rfl
  dsimp only
  rw [hmodel]
  cases strategy.solve p.model with
  | error fault => rfl
  | ok run =>
      obtain ⟨found, stats, events⟩ := run
      cases found with
      | none => rfl
      | some ids =>
          simp only [Checked.ok_bind, Problem.mapM_value_map]
          cases ids.mapM p.value with
          | error fault => rfl
          | ok values => simp [Except.map, Report.map, Assignment.map, Solver.config]

end Solving

/-- Calls whose values are renamed one-to-one are turned down with the same error, or make the same
model. Whatever the strategy, the search then ends with the same report, except that the values of
the answer are the renamed ones. -/
theorem Solver.solve_renamed [DecidableEq V] [DecidableEq W] {f : V → W}
    (hf : Function.Injective f) (calls : List (Call V)) :
    (∀ error, Problem.ofCalls calls = .error error →
      Problem.ofCalls (calls.map (Call.map f)) = .error error) ∧
    ∀ p, Problem.ofCalls calls = .ok p →
      ∃ q, Problem.ofCalls (calls.map (Call.map f)) = .ok q ∧ q.model = p.model ∧
        ∀ strategy : Strategy, ∃ report renamed,
          Solver.solve ⟨p, strategy⟩ = .ok report ∧ Solver.solve ⟨q, strategy⟩ = .ok renamed ∧
          renamed.stats = report.stats ∧
          renamed.assignment = report.assignment.map (Assignment.map f) := by
  rw [Problem.ofCalls_map hf]
  refine ⟨fun error herror => by rw [herror, Except.map], fun p hp => ?_⟩
  refine ⟨p.map f, by rw [hp, Except.map], rfl, fun strategy => ?_⟩
  obtain ⟨_, report, _, hreport, _⟩ := (Problem.faithful_of_ofCalls hp).exists_report strategy
  refine ⟨report, report.map f, hreport, ?_, rfl, rfl⟩
  rw [Solver.solve_map, hreport, Except.map]

/-- The values of a chain renamed so that their order is turned around. -/
theorem Solver.solve_renamed_chain :
    ∃ p q report renamed, Problem.ofCalls Call.ascendingChain = .ok p ∧
      Problem.ofCalls (Call.ascendingChain.map (Call.map fun n : Nat => -(n : Int))) = .ok q ∧
      q.model = p.model ∧ Solver.solve ⟨p, .explicit, .standard⟩ = .ok report ∧
      Solver.solve ⟨q, .explicit, .standard⟩ = .ok renamed ∧
      renamed.stats = report.stats ∧
      renamed.assignment = report.assignment.map (Assignment.map fun n : Nat => -(n : Int)) := by
  have hinjective : Function.Injective fun n : Nat => -(n : Int) := by
    intro a b h
    exact Int.ofNat_inj.1 (Int.neg_inj.1 h)
  obtain ⟨p, hp⟩ := Call.exists_ofCalls_ascendingChain
  obtain ⟨_, hbuilt⟩ := Solver.solve_renamed hinjective Call.ascendingChain
  obtain ⟨q, hq, hmodel, hsolve⟩ := hbuilt p hp
  obtain ⟨report, renamed, h⟩ := hsolve ⟨.explicit, .standard⟩
  exact ⟨p, q, report, renamed, hp, hq, hmodel, h⟩

end BinaryCsp
