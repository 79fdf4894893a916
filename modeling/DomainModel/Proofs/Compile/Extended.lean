import DomainModel.Proofs.Graph.Alike
/-!
# Extended — a forest with more units

Units that declare nothing which a reference of a forest may mean leave every reference of the forest as it was: each
looks for its meaning among its candidates alone, and a candidate that the further units do not declare names what it
named before (`names_append_iff`).  So nothing is told about the nodes of the forest, and its types keep what they say
(`compileForest_append`).
-/
namespace DomainModel

open Source (At Extends IsReference Node Obeys declarationsOf)

variable {forest more : List Source.Tree} {outside : Universe}

namespace Source

theorem fragmentsOf_append (forest more : List Tree) :
    fragmentsOf (forest ++ more) = fragmentsOf forest ++ fragmentsOf more := List.flatMap_append

theorem places_append (forest more : List Tree) : places (forest ++ more) = places forest ++ places more := by
  rw [places, fragmentsOf_append, List.flatMap_append]
  rfl

theorem declarationsOf_append (forest more : List Tree) :
    declarationsOf (forest ++ more) = declarationsOf forest ++ declarationsOf more := by
  rw [declarationsOf, places_append, List.filterMap_append]
  rfl

/-- **Further units change the meaning of the names that they declare**, and of no other. -/
theorem names_append_iff {name : QualifiedName} (hname : ∀ d ∈ declarationsOf more, d.fullName ≠ name) {m : Meaning} :
    Names outside (forest ++ more) name m ↔ Names outside forest name m := by
  have hsame : ∀ d : Declaration, d.fullName = name →
      (d ∈ declarationsOf (forest ++ more) ↔ d ∈ declarationsOf forest) := by
    intro d hn
    rw [declarationsOf_append, List.mem_append]
    exact or_iff_left fun hd => hname d hd hn
  exact ⟨Names.of_same hsame, Names.of_same fun d hn => (hsame d hn).symm⟩

/-- **A reference none of whose candidates is declared by further units means what it meant.** -/
theorem means_append_iff {s : Scope} {r : QualifiedName}
    (hfresh : ∀ d ∈ declarationsOf more, d.fullName ∉ s.candidates r) {m : Meaning} :
    Means outside (forest ++ more) s r m ↔ Means outside forest s r m := by
  refine means_iff_of_candidates fun name hname m => names_append_iff fun d hd => ?_
  rintro rfl
  exact hfresh d hd hname

/-- **Further units extend a forest** if they declare no candidate of its references. -/
theorem extends_append (hfresh : ∀ d ∈ declarationsOf more, ∀ w, IsReference forest w →
    d.fullName ∉ w.scope.candidates w.reference) : Extends outside forest (forest ++ more) :=
  ⟨fun _ _ hn => hn.mono (List.subset_append_left _ _), fun w hw _ => means_append_iff fun d hd => hfresh d hd w hw⟩

theorem distinct_append (hd : Table.Distinct (declarationsOf forest)) (hmore : Table.Distinct (declarationsOf more))
    (hnew : ∀ d ∈ declarationsOf more, ∀ e ∈ declarationsOf forest, d.fullName ≠ e.fullName) :
    Table.Distinct (declarationsOf (forest ++ more)) := by
  unfold Table.Distinct at *
  rw [declarationsOf_append, List.map_append, List.nodup_append]
  refine ⟨hd, hmore, ?_⟩
  intro a ha b hb
  obtain ⟨e, he, rfl⟩ := List.mem_map.1 ha
  obtain ⟨d, hd, rfl⟩ := List.mem_map.1 hb
  exact (hnew d hd e he).symm

end Source

/-- **Of a forest that compiles and more units, the broken rules of the further nodes are told**, in some order, and
nothing else, if the units extend the forest. -/
theorem observe_append_perm {options : CompileOptions} (h : Extends options.outside forest (forest ++ more))
    (hd' : Table.Distinct (declarationsOf (forest ++ more))) (hnil : observe options forest = []) :
    (observe options (forest ++ more)).Perm ((Source.places more).flatMap fun x =>
      ((Table.ofForest options.outside (forest ++ more)).violationsAt options.circles x.1 x.2).map
        (·.observation)) := by
  obtain ⟨hd, hobeys, hlead⟩ := Table.observe_eq_nil_iff.1 hnil
  have hforest : (Source.places forest).flatMap (fun x =>
      ((Table.ofForest options.outside (forest ++ more)).violationsAt options.circles x.1 x.2).map
        (·.observation)) = [] := by
    simp only [List.flatMap_eq_nil_iff, List.map_eq_nil_iff]
    refine (Source.forall_at_iff (P := fun s n =>
      (Table.ofForest options.outside (forest ++ more)).violationsAt options.circles s n = []) fun _ _ => rfl).1 ?_
    intro s n hn
    refine Table.violationsAt_eq_nil_of_extends h hd hd' hn ((Table.violationsAt_eq_nil_iff hd).2 ⟨hobeys s n hn, ?_⟩)
    exact fun d hdecl => hlead d (Source.mem_declarationsOf_iff.2 ⟨s, n, hn, hdecl⟩)
  have hperm := observe_perm_places hd' options
  rwa [Source.places_append, List.flatMap_append, hforest, List.nil_append] at hperm

/-- **Units that declare nothing which a forest may mean do not change what it means.**  If the forest compiles, then with
the further units every reference of the forest is looked up to the same, nothing is told about the nodes of the forest,
and in a graph of all units every declaration of the forest is found, as it was before, and its type is alike to what it
was. -/
theorem compileForest_append {forest more : List Source.Tree} {circles : Bool} {outside : Universe} {g : Graph}
    (hg : compileForest { limit := 0, circles, outside } forest = .ok g)
    (hdistinct : (declarationsOf more).Pairwise fun d e => d.fullName ≠ e.fullName)
    (hnew : ∀ d ∈ declarationsOf more, ∀ e ∈ declarationsOf forest, d.fullName ≠ e.fullName)
    (hfresh : ∀ d ∈ declarationsOf more, ∀ w, IsReference forest w → d.fullName ∉ w.scope.candidates w.reference) :
    (∀ w, IsReference forest w → (Table.ofForest outside (forest ++ more)).resolveIn w.scope w.reference =
        (Table.ofForest outside forest).resolveIn w.scope w.reference) ∧
      (observationsOf (compileForest { limit := 0, circles, outside } (forest ++ more))).Perm
        ((Source.places more).flatMap fun x =>
          ((Table.ofForest outside (forest ++ more)).violationsAt circles x.1 x.2).map (·.observation)) ∧
      ∀ g', compileForest { limit := 0, circles, outside } (forest ++ more) = .ok g' →
        (∀ d ∈ declarationsOf forest, ∃ i j, g.get? d.fullName = some i ∧ g'.get? d.fullName = some j ∧
          g.Alike g' i j) ∧
        ∀ name i, g.get? name = some i → ∃ j, g'.get? name = some j ∧ g.Alike g' i j := by
  obtain ⟨hobserve, rfl⟩ := Table.compileForest_eq_ok_iff.1 hg
  obtain ⟨hd, hobeys, -⟩ := Table.observe_eq_nil_iff.1 hobserve
  have hd' : Table.Distinct (declarationsOf (forest ++ more)) :=
    Source.distinct_append hd (List.pairwise_map.2 hdistinct) hnew
  have h : Extends outside forest (forest ++ more) := Source.extends_append hfresh
  refine ⟨fun w hw => Table.resolveIn_of_extends h hd hd' hw, ?_, fun g' hg' => ?_⟩
  · rw [observationsOf_compileForest rfl]
    exact observe_append_perm h hd' hobserve
  · obtain ⟨-, rfl⟩ := Table.compileForest_eq_ok_iff.1 hg'
    have hfound : ∀ d ∈ declarationsOf forest, ∃ i j, (graphOf outside forest).get? d.fullName = some i ∧
        (graphOf outside (forest ++ more)).get? d.fullName = some j ∧
          (graphOf outside forest).Alike (graphOf outside (forest ++ more)) i j := by
      intro d hmem
      obtain ⟨i, hi⟩ := Option.isSome_iff_exists.1 ((Graph.isSome_get?_iff hd).2 ⟨d, hmem, rfl⟩)
      obtain ⟨j, hj⟩ := Option.isSome_iff_exists.1
        ((Graph.isSome_get?_iff hd').2 ⟨d, h.mem_declarationsOf hmem, rfl⟩)
      exact ⟨i, j, hi, hj, Graph.alike_of_get? h hd hd' hobeys hi hj⟩
    refine ⟨hfound, fun name i hi => ?_⟩
    obtain ⟨d, hmem, rfl⟩ := (Graph.isSome_get?_iff hd).1 (Option.isSome_iff_exists.2 ⟨i, hi⟩)
    obtain ⟨i', j, hi', hj, halike⟩ := hfound d hmem
    obtain rfl := Option.some_inj.1 (hi'.symm.trans hi)
    exact ⟨j, hj, halike⟩

/-- A further unit: one value more in the shop, and a value of another namespace that derives from it. -/
def Source.Small.depot : List Source.Tree :=
  [⟨none, [], [
    ⟨Small.shopName, [], [.value { Small.label with name := ⟨"Crate", by decide⟩ }]⟩,
    ⟨.single ⟨"depot", by decide⟩, [Small.shopName], [.value
      { Small.label with name := ⟨"Bay", by decide⟩, base := some ⟨.single ⟨"Crate", by decide⟩, .one⟩ }]⟩]⟩]

theorem compileForest_append_depot :
    compileForest { limit := 0, circles := true, outside := .empty } Source.Small.shop =
        .ok (graphOf .empty Source.Small.shop) ∧
      ∃ g', compileForest { limit := 0, circles := true, outside := .empty } (Source.Small.shop ++ Source.Small.depot) =
          .ok g' ∧
        (∀ d ∈ declarationsOf Source.Small.shop, ∃ i j, (graphOf .empty Source.Small.shop).get? d.fullName = some i ∧
          g'.get? d.fullName = some j ∧ (graphOf .empty Source.Small.shop).Alike g' i j) ∧
        ∀ name i, (graphOf .empty Source.Small.shop).get? name = some i →
          ∃ j, g'.get? name = some j ∧ (graphOf .empty Source.Small.shop).Alike g' i j := by
  have hg : compileForest { limit := 0, circles := true, outside := .empty } Source.Small.shop =
      .ok (graphOf .empty Source.Small.shop) := Table.compileForest_eq_ok_iff.2 ⟨by decide, rfl⟩
  have hg' : compileForest { limit := 0, circles := true, outside := .empty } (Source.Small.shop ++ Source.Small.depot) =
      .ok (graphOf .empty (Source.Small.shop ++ Source.Small.depot)) :=
    Table.compileForest_eq_ok_iff.2 ⟨by decide, rfl⟩
  have hfresh : ∀ d ∈ declarationsOf Source.Small.depot, ∀ w, IsReference Source.Small.shop w →
      d.fullName ∉ w.scope.candidates w.reference := by
    simp only [Source.isReference_iff]
    decide
  have hdistinct : (declarationsOf Source.Small.depot).Pairwise fun d e => d.fullName ≠ e.fullName := by decide
  obtain ⟨-, -, halike⟩ := compileForest_append hg hdistinct (by decide) hfresh
  exact ⟨hg, _, hg', halike _ hg'⟩

end DomainModel
