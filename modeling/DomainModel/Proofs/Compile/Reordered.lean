import DomainModel.Proofs.Rules.Accepted
import DomainModel.Proofs.Rules.Rescoped
/-!
# Reordered — what a forest is told about, units in another order

What names mean depends on what is declared, not on the order in which it is declared, as long as no name is declared
twice (`means_iff_of_perm`, `agrees_of_perm`).  So the rules ask the same of every node, and a forest with its units in
another order is told about the same things, in another order (`observe_perm`).
-/
namespace DomainModel

open Source (Node declarationsOf)

variable {forest others : List Source.Tree} {outside : Universe}

namespace Source

theorem fragmentsOf_of_perm (h : forest.Perm others) : (fragmentsOf forest).Perm (fragmentsOf others) :=
  h.flatMap_right _

theorem places_of_perm (h : forest.Perm others) : (places forest).Perm (places others) :=
  (fragmentsOf_of_perm h).flatMap_right _

theorem declarationsOf_of_perm (h : forest.Perm others) : (declarationsOf forest).Perm (declarationsOf others) :=
  (places_of_perm h).filterMap _

theorem at_of_perm (h : forest.Perm others) {s : Scope} {n : Node} (hn : At forest s n) : At others s n :=
  hn.mono h.subset

/-! ## Meanings -/

theorem names_of_perm (h : forest.Perm others) {name : QualifiedName} {m : Meaning} (hm : Names outside forest name m) :
    Names outside others name m := hm.of_same fun _ _ => (declarationsOf_of_perm h).mem_iff

theorem names_iff_of_perm (h : forest.Perm others) {name : QualifiedName} {m : Meaning} :
    Names outside forest name m ↔ Names outside others name m := ⟨names_of_perm h, names_of_perm h.symm⟩

theorem means_iff_of_perm (h : forest.Perm others) {s : Scope} {r : QualifiedName} {m : Meaning} :
    Means outside forest s r m ↔ Means outside others s r m :=
  means_iff_of_candidates fun _ _ _ => names_iff_of_perm h

end Source

namespace Table

/-- **The table of a forest without conflicts does not see the order of units.** -/
theorem agrees_of_perm (h : forest.Perm others) (hd : Distinct (declarationsOf forest)) :
    Agrees id (ofForest outside forest) (ofForest outside others) := by
  have hd' : Distinct (declarationsOf others) := (Distinct.perm (Source.declarationsOf_of_perm h)).1 hd
  have hsize : ∀ {forest : List Source.Tree}, Distinct (declarationsOf forest) →
      (ofForest outside forest).size = (declarationsOf forest).length := by
    intro forest hd
    rw [ofForest, ofGroups_of_distinct ((Distinct.perm (Source.declarationsOf_perm forest)).2 hd)]
    exact (Source.declarationsOf_perm forest).length_eq
  refine ⟨?_, ?_, fun s r => ?_⟩
  · rw [hsize hd, hsize hd', (Source.declarationsOf_of_perm h).length_eq]
  · rw [outside_ofForest hd, outside_ofForest hd']
  · have hid : Meaning.rescope id = id := funext Meaning.rescope_id
    rw [hid, Option.map_id, id, id]
    refine Option.ext fun m => ?_
    rw [resolveIn_eq_some_iff hd, resolveIn_eq_some_iff hd', Source.means_iff_of_perm h]

end Table

/-! ## Observations -/

/-- **Without conflicts, a forest is told about the broken rules of its nodes**, in some order. -/
theorem observe_perm_places (hd : Table.Distinct (declarationsOf forest)) (options : CompileOptions) :
    (observe options forest).Perm ((Source.places forest).flatMap fun x =>
      ((Table.ofForest options.outside forest).violationsAt options.circles x.1 x.2).map (·.observation)) := by
  have hno : (Table.ofGroups (Group.merge forest) options.outside).2 = [] :=
    Table.conflicts_ofGroups_iff.2 ((Table.Distinct.perm (Source.declarationsOf_perm forest)).2 hd)
  have hcheck := (Table.check_merge_perm (Table.ofForest options.outside forest) options.circles forest).map
    (·.observation)
  rw [List.map_flatMap] at hcheck
  unfold observe
  simp only [hno, List.map_nil, List.nil_append]
  exact hcheck

/-- **Units in another order are told the same, in another order**, if no name is declared twice. -/
theorem observe_perm (h : forest.Perm others) (hd : Table.Distinct (declarationsOf forest)) (options : CompileOptions) :
    (observe options forest).Perm (observe options others) := by
  have hd' : Table.Distinct (declarationsOf others) :=
    (Table.Distinct.perm (Source.declarationsOf_of_perm h)).1 hd
  have hagree : Table.Agrees id (Table.ofForest options.outside forest) (Table.ofForest options.outside others) :=
    Table.agrees_of_perm h hd
  have hrules : ∀ x : Source.Place,
      (Table.ofForest options.outside others).violationsAt options.circles x.1 x.2 =
        (Table.ofForest options.outside forest).violationsAt options.circles x.1 x.2 :=
    fun x => hagree.violationsAt Scope.Keeps.id x.2
  have hothers := observe_perm_places hd' options
  simp only [hrules] at hothers
  exact (observe_perm_places hd options).trans (((Source.places_of_perm h).flatMap_right _).trans hothers.symm)

/-- **Units in another order are told something exactly when the forest is.** -/
theorem observe_eq_nil_iff_of_perm (h : forest.Perm others) (options : CompileOptions) :
    observe options forest = [] ↔ observe options others = [] := by
  constructor
  · intro hnil
    have hperm := observe_perm h (Table.observe_eq_nil_iff.1 hnil).1 options
    rw [hnil] at hperm
    exact hperm.nil_eq.symm
  · intro hnil
    have hperm := observe_perm h.symm (Table.observe_eq_nil_iff.1 hnil).1 options
    rw [hnil] at hperm
    exact hperm.nil_eq.symm

end DomainModel
