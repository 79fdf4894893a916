import DomainModel.Tag.Grouped
import Mathlib.Data.List.Induction
/-!
# Grouping — tags by name

The groups of a list of tags stand in the order of their names, no group is empty, and under each name stand the tags of
that name in source order (`isGrouping_ofList`).
-/
namespace DomainModel

namespace Identifier

theorem compare_eq (a b : Identifier) : compare a b = compare a.text b.text := rfl

theorem compare_lt_trans {a b c : Identifier} (hab : compare a b = .lt) (hbc : compare b c = .lt) :
    compare a c = .lt := by
  rw [compare_eq] at hab hbc ⊢
  exact Std.TransCmp.lt_trans hab hbc

theorem eq_of_compare_eq {a b : Identifier} (h : compare a b = .eq) : a = b := by
  rw [compare_eq] at h
  exact Identifier.ext (Std.LawfulEqCmp.eq_of_compare h)

theorem compare_lt_of_gt {a b : Identifier} (h : compare a b = .gt) : compare b a = .lt := by
  rw [compare_eq] at h ⊢
  exact Std.OrientedCmp.lt_of_gt h

theorem compare_self_ne_lt (a : Identifier) : compare a a ≠ .lt := by
  have hself : compare a.text a.text = .eq := Std.ReflCmp.compare_self
  rw [compare_eq, hself]
  decide

end Identifier

namespace TagSet

/-- **Tags brought together by name.** -/
structure IsGrouping (s : TagSet) (ts : List Tag) : Prop where
  /-- The names stand in order, each once. -/
  ordered : s.groups.Pairwise fun a b => compare a.1 b.1 = .lt
  nonempty : ∀ g ∈ s.groups, g.2 ≠ []
  /-- Under a name stand the tags of that name, in source order. -/
  get : ∀ name : Identifier, s.get name.text = ts.filter fun t => t.name = name

def under (name : Identifier) (groups : List (Identifier × List Tag)) : List Tag := (TagSet.mk groups).get name.text

theorem under_cons (name : Identifier) (g : Identifier × List Tag) (gs : List (Identifier × List Tag)) :
    under name (g :: gs) = if g.1 = name then g.2 else under name gs := by
  unfold under get
  rw [List.find?_cons]
  by_cases h : g.1 = name
  · simp [h]
  · have htext : (g.1.text == name.text) = false := beq_eq_false_iff_ne.2 fun heq => h (Identifier.ext heq)
    rw [htext, if_neg h]

theorem under_eq_nil {name : Identifier} : ∀ {gs : List (Identifier × List Tag)}, (∀ g ∈ gs, g.1 ≠ name) →
    under name gs = []
  | [], _ => rfl
  | g :: gs, h => by
    rw [under_cons, if_neg (h g List.mem_cons_self), under_eq_nil fun g hg => h g (List.mem_cons_of_mem _ hg)]

/-- **A tag comes to the end of its group**, and the other groups stay. -/
theorem under_pushInto (t : Tag) (name : Identifier) : ∀ {gs : List (Identifier × List Tag)},
    gs.Pairwise (fun a b => compare a.1 b.1 = .lt) →
      under name (pushInto t gs) = under name gs ++ if t.name = name then [t] else []
  | [], _ => by
    rw [pushInto, under_cons]
    split <;> rfl
  | (first, group) :: gs, h => by
    obtain ⟨hfirst, hgs⟩ := List.pairwise_cons.1 h
    unfold pushInto
    cases hc : compare t.name first with
    | lt =>
      -- No group has the name: all names are later.
      have hlater : ∀ g ∈ (first, group) :: gs, compare t.name g.1 = .lt := by
        intro g hg
        rcases List.mem_cons.1 hg with rfl | hg
        · exact hc
        · exact Identifier.compare_lt_trans hc (hfirst g hg)
      rw [under_cons]
      split
      · rename_i ht
        rw [under_eq_nil, List.nil_append]
        rintro g hg rfl
        have hlt := hlater g hg
        exact Identifier.compare_self_ne_lt g.1 (ht ▸ hlt)
      · rw [List.append_nil]
    | eq =>
      rw [under_cons, under_cons, Identifier.eq_of_compare_eq hc]
      split
      · rfl
      · rw [List.append_nil]
    | gt =>
      have hne : t.name ≠ first := by
        rintro heq
        rw [heq] at hc
        exact Identifier.compare_self_ne_lt first (Identifier.compare_lt_of_gt hc)
      rw [under_cons, under_cons, under_pushInto t name hgs]
      split
      · rename_i hname
        rw [if_neg (hname ▸ hne), List.append_nil]
      · rfl

theorem mem_pushInto {t : Tag} {g : Identifier × List Tag} : ∀ {gs : List (Identifier × List Tag)},
    g ∈ pushInto t gs → g ∈ gs ∨ g.1 = t.name ∧ g.2 ≠ []
  | [], hg => by
    rw [List.mem_singleton.1 hg]
    exact .inr ⟨rfl, List.cons_ne_nil _ _⟩
  | (first, group) :: gs, hg => by
    unfold pushInto at hg
    cases hc : compare t.name first with
    | lt =>
      rw [hc] at hg
      rcases List.mem_cons.1 hg with rfl | hg
      · exact .inr ⟨rfl, List.cons_ne_nil _ _⟩
      · exact .inl hg
    | eq =>
      rw [hc] at hg
      rcases List.mem_cons.1 hg with rfl | hg
      · exact .inr ⟨(Identifier.eq_of_compare_eq hc).symm, List.append_ne_nil_of_right_ne_nil _ (List.cons_ne_nil _ _)⟩
      · exact .inl (List.mem_cons_of_mem _ hg)
    | gt =>
      rw [hc] at hg
      rcases List.mem_cons.1 hg with rfl | hg
      · exact .inl List.mem_cons_self
      · exact (mem_pushInto hg).imp_left (List.mem_cons_of_mem _)

theorem pairwise_pushInto (t : Tag) : ∀ {gs : List (Identifier × List Tag)},
    gs.Pairwise (fun a b => compare a.1 b.1 = .lt) → (pushInto t gs).Pairwise fun a b => compare a.1 b.1 = .lt
  | [], _ => List.pairwise_singleton _ _
  | (first, group) :: gs, h => by
    obtain ⟨hfirst, hgs⟩ := List.pairwise_cons.1 h
    unfold pushInto
    cases hc : compare t.name first with
    | lt =>
      refine List.pairwise_cons.2 ⟨fun g hg => ?_, h⟩
      rcases List.mem_cons.1 hg with rfl | hg
      · exact hc
      · exact Identifier.compare_lt_trans hc (hfirst g hg)
    | eq => exact List.pairwise_cons.2 ⟨hfirst, hgs⟩
    | gt =>
      refine List.pairwise_cons.2 ⟨fun g hg => ?_, pairwise_pushInto t hgs⟩
      rcases mem_pushInto hg with hg | ⟨heq, -⟩
      · exact hfirst g hg
      · rw [heq]
        exact Identifier.compare_lt_of_gt hc

/-- **One tag more is grouped behind the others of its name.** -/
theorem IsGrouping.push {s : TagSet} {ts : List Tag} (h : s.IsGrouping ts) (t : Tag) :
    (s.push t).IsGrouping (ts ++ [t]) := by
  refine ⟨pairwise_pushInto t h.ordered, fun g hg => (mem_pushInto hg).elim (h.nonempty g) (·.2), fun name => ?_⟩
  have hunder : (s.push t).get name.text = s.get name.text ++ if t.name = name then [t] else [] :=
    under_pushInto t name h.ordered
  rw [hunder, h.get, List.filter_append]
  by_cases ht : t.name = name <;> simp [ht]

theorem isGrouping_empty : empty.IsGrouping [] := ⟨.nil, nofun, fun _ => rfl⟩

/-- **The tags of a list are grouped by name.** -/
theorem isGrouping_ofList (ts : List Tag) : (ofList ts).IsGrouping ts := by
  induction ts using List.reverseRecOn with
  | nil => exact isGrouping_empty
  | append_singleton ts t ih =>
    have hpush : ofList (ts ++ [t]) = (ofList ts).push t := List.foldl_append ..
    rw [hpush]
    exact ih.push t

end TagSet
end DomainModel
