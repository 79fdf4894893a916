import DomainModel.Proofs.Group.Partition
import Mathlib.Data.List.Nodup
/-!
# Defined — the table of a forest without conflicts

Defining names in order tells no conflict exactly when no two full names are equal, and then the table holds what was
defined, in order (`conflicts_ofGroups_iff`, `ofGroups_of_distinct`).  In such a table a full name finds the one
declaration that has it.
-/
namespace DomainModel
namespace Table

/-- **No two declarations have the same full name.** -/
def Distinct (ds : List Declaration) : Prop := (ds.map (·.fullName)).Nodup

theorem Distinct.perm {ds es : List Declaration} (h : ds.Perm es) : Distinct ds ↔ Distinct es :=
  (h.map _).nodup_iff

theorem Distinct.eq {ds : List Declaration} (h : Distinct ds) {d e : Declaration} (hd : d ∈ ds) (he : e ∈ ds)
    (hn : d.fullName = e.fullName) : d = e := List.inj_on_of_nodup_map h hd he hn

/-- One declaration more, of a new name. -/
theorem Distinct.concat {ds : List Declaration} (h : Distinct ds) {d : Declaration}
    (hnew : d.fullName ∉ ds.map (·.fullName)) : Distinct (ds ++ [d]) := by
  unfold Distinct at h ⊢
  rw [List.map_append, List.map_singleton, List.nodup_append]
  refine ⟨h, List.nodup_singleton _, fun a ha b hb => ?_⟩
  rw [List.mem_singleton.1 hb]
  rintro rfl
  exact hnew ha

theorem find?_eq_none_iff {t : Table} {name : QualifiedName} :
    t.find? name = none ↔ name ∉ t.declarations.map (·.fullName) := by
  simp only [find?, List.find?_eq_none, decide_eq_true_eq, List.mem_map, not_exists, not_and]

theorem mem_of_find? {t : Table} {name : QualifiedName} {d : Declaration} (h : t.find? name = some d) :
    d ∈ t.declarations := List.mem_of_find?_eq_some h

/-- **A full name finds the one declaration that has it.** -/
theorem find?_eq_some_iff {t : Table} (h : Distinct t.declarations) {name : QualifiedName} {d : Declaration} :
    t.find? name = some d ↔ d ∈ t.declarations ∧ d.fullName = name := by
  constructor
  · exact fun hd => ⟨mem_of_find? hd, fullName_of_find? hd⟩
  · rintro ⟨hd, rfl⟩
    cases he : t.find? d.fullName with
    | none => exact absurd (List.mem_map.2 ⟨d, hd, rfl⟩) (find?_eq_none_iff.1 he)
    | some e => rw [h.eq (mem_of_find? he) hd (fullName_of_find? he)]

/-- Defining one name more keeps the names distinct exactly when nothing is told. -/
theorem define_eq (t : Table) (d : Declaration) :
    (d.fullName ∉ t.declarations.map (·.fullName) ∧
      t.define d = ({ t with declarations := t.declarations ++ [d] }, none)) ∨
    (d.fullName ∈ t.declarations.map (·.fullName) ∧ ∃ c, t.define d = (t, some c)) := by
  unfold define
  cases h : t.find? d.fullName with
  | none => exact .inl ⟨find?_eq_none_iff.1 h, rfl⟩
  | some taken =>
    exact .inr ⟨List.mem_map.2 ⟨taken, mem_of_find? h, fullName_of_find? h⟩, _, rfl⟩

/-- **Defining names in order tells nothing exactly when they are new and distinct**, and then adds them all. -/
theorem defineAll_spec : ∀ (ds : List Declaration) {t : Table}, Distinct t.declarations →
    ((t.defineAll ds).2 = [] ↔ Distinct (t.declarations ++ ds)) ∧
      ((t.defineAll ds).2 = [] → (t.defineAll ds).1 = { t with declarations := t.declarations ++ ds })
  | [], t, h => by simp [defineAll, h]
  | d :: ds, t, h => by
    rcases define_eq t d with ⟨hnew, hd⟩ | ⟨hold, c, hd⟩
    · have ih := defineAll_spec ds (t := { t with declarations := t.declarations ++ [d] }) (h.concat hnew)
      rw [List.append_assoc, List.singleton_append] at ih
      simpa only [defineAll, hd, Option.toList_none, List.nil_append] using ih
    · have hne : (t.defineAll (d :: ds)).2 ≠ [] := by simp [defineAll, hd]
      have hnot : ¬ Distinct (t.declarations ++ d :: ds) := by
        unfold Distinct
        rw [List.map_append, List.map_cons, List.nodup_append]
        exact fun hdist => hdist.2.2 _ hold _ List.mem_cons_self rfl
      exact ⟨⟨fun hnil => absurd hnil hne, fun hdist => absurd hdist hnot⟩, fun hnil => absurd hnil hne⟩

/-- **A forest has no conflicts exactly when its groups declare distinct names.** -/
theorem conflicts_ofGroups_iff {groups : List Group} {outside : Universe} :
    (ofGroups groups outside).2 = [] ↔ Distinct (declared groups) :=
  (defineAll_spec (declared groups) (t := empty outside) List.nodup_nil).1

/-- **Without conflicts the table holds what is declared**, in order. -/
theorem ofGroups_of_distinct {groups : List Group} {outside : Universe} (h : Distinct (declared groups)) :
    (ofGroups groups outside).1 = ⟨declared groups, outside⟩ :=
  (defineAll_spec (declared groups) (t := empty outside) List.nodup_nil).2 (conflicts_ofGroups_iff.2 h)

def ofForest (outside : Universe) (forest : List Source.Tree) : Table := (ofGroups (Group.merge forest) outside).1

/-- **In a forest without conflicts a full name finds the node that declares it.** -/
theorem find?_ofForest_iff {outside : Universe} {forest : List Source.Tree}
    (h : Distinct (declared (Group.merge forest))) {name : QualifiedName} {d : Declaration} :
    (ofForest outside forest).find? name = some d ↔ d ∈ declared (Group.merge forest) ∧ d.fullName = name := by
  rw [ofForest, ofGroups_of_distinct h]
  exact find?_eq_some_iff h

end Table
end DomainModel
