import DomainModel.Compile.Steps
import DomainModel.Proofs.Graph.Building
import DomainModel.Proofs.Group.Indexed
import DomainModel.Proofs.Rules.Inspected
/-!
# Steps — compiling step by step is compiling

Each step does what is said of the forest at once: the index gives the groups, the collector their table, and the walks
of both report what the forest is told about (`Inspector.inspect_collect`).  So the steps end with the graph or with the
failure of the forest, and stop in between only if the graph has more symbols than there are numbers (`compileSteps_eq`).
-/
namespace DomainModel

open Source (Tree)

/-- **Collector and inspector report what a forest is told about**, one after the other. -/
theorem Inspector.inspect_collect (options : CompileOptions) (forest : List Tree) :
    inspect options.circles (Group.merge forest) (Table.ofForest options.outside forest)
      (Collector.collect (Group.merge forest) options.outside .empty).2 = ⟨observe options forest⟩ := by
  rw [inspect_eq, Collector.collect_eq, ← map_observation_check]
  rfl

/-- **The steps before the build have the groups and the table of the forest**, and nothing is built if there is
something to tell. -/
theorem compileSteps_eq_ite (options : CompileOptions) (forest : List Tree) : compileSteps options forest =
    if (observe options forest).isEmpty then
      (Builder.build (Group.merge forest) (Table.ofForest options.outside forest)).mapError .refusal
    else .error (.failure ⟨Observation.limited options.limit (observe options forest)⟩) := by
  have htable : (Collector.collect (Group.merge forest) options.outside .empty).1 =
      Table.ofForest options.outside forest := by
    rw [Collector.collect_eq]
    rfl
  rw [compileSteps, FragmentIndex.merge_eq]
  simp only [htable, Inspector.inspect_collect]
  rfl

/-- **Compiling a forest step by step comes to compiling it**, whatever the options: it ends with the failure of the
forest, or with its graph if there are numbers for all symbols of that.  Otherwise the build stops for want of numbers. -/
theorem compileSteps_eq (options : CompileOptions) (forest : List Tree) : compileSteps options forest =
    match compileForest options forest with
    | .error f => .error (.failure f)
    | .ok g => if g.size ≤ Builder.capacity then .ok g else .error (.refusal .arenaFull) := by
  have hsize : (graphOf options.outside forest).size = SymbolTree.sizeAll (Group.trees (Group.merge forest)) :=
    Graph.size_ofGroups _ _
  rw [compileSteps_eq_ite, Builder.build_eq_ite, ← hsize, compileForest]
  cases observe options forest with
  | nil =>
    rw [List.isEmpty_nil, if_pos rfl]
    exact apply_ite (Except.mapError CompileStop.refusal) _ _ _
  | cons o os => rfl

/-- **A forest is compiled step by step to its graph**, if there are numbers enough, and to nothing else. -/
theorem compileSteps_eq_ok_iff {options : CompileOptions} {forest : List Tree} {g : Graph} :
    compileSteps options forest = .ok g ↔ compileForest options forest = .ok g ∧ g.size ≤ Builder.capacity := by
  rw [compileSteps_eq]
  cases compileForest options forest with
  | error f => exact ⟨nofun, nofun⟩
  | ok graph =>
    change (if graph.size ≤ Builder.capacity then .ok graph else .error (CompileStop.refusal .arenaFull)) =
      Except.ok g ↔ _
    constructor
    · intro h
      split at h
      · rename_i hsize
        cases h
        exact ⟨rfl, hsize⟩
      · cases h
    · rintro ⟨hg, hsize⟩
      cases hg
      exact if_pos hsize

end DomainModel
