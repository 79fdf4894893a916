import DomainModel.Proofs.Name.Ordered
import DomainModel.Proofs.Tag.Grouping
import DomainModel.Tag.Run
import Mathlib.Data.List.Nodup
/-!
# Run — a set of tags knows the tags of each name

Whatever is done to a set, it is the set of the list of all tags put in (`run_eq_ofList`).  What can be read from it are the
parts of the list by name, and two sets are equal if their lists have the same parts (`TagSet.grouped_run`).
-/
namespace DomainModel

theorem Text.bytes_injective {s t : String} (h : Text.bytes s = Text.bytes t) : s = t :=
  String.toByteArray_inj.1 (ByteArray.ext (Array.toList_inj.1 h))

namespace TagSet

/-! ## Operations -/

theorem extend_append (s : TagSet) (ts us : List Tag) : s.extend (ts ++ us) = (s.extend ts).extend us :=
  List.foldl_append ..

theorem apply_ofList (ts : List Tag) (op : Operation) : (ofList ts).apply op = ofList (addedBy ts op) := by
  cases op with
  | renew us => rfl
  | push t => exact (extend_append empty ts [t]).symm
  | extend us => exact (extend_append empty ts us).symm

/-- **After any operations a set is the set of the tags put in.** -/
theorem run_eq_ofList (ops : List Operation) : run empty ops = ofList (added ops) := by
  have hrun : ∀ (ops : List Operation) (ts : List Tag), run (ofList ts) ops = ofList (ops.foldl addedBy ts) := by
    intro ops
    induction ops with
    | nil => exact fun _ => rfl
    | cons op ops ih =>
      intro ts
      rw [run, List.foldl_cons, apply_ofList, List.foldl_cons]
      exact ih _
  exact hrun ops []

/-! ## Groups and names -/

theorem size_pushInto (t : Tag) : ∀ gs : List (Identifier × List Tag),
    (TagSet.mk (pushInto t gs)).size = (TagSet.mk gs).size + 1
  | [] => rfl
  | (first, group) :: gs => by
    have ih := size_pushInto t gs
    simp only [size] at ih ⊢
    unfold pushInto
    split
    · simp only [List.map_cons, List.foldr_cons, List.length_singleton]
      omega
    · simp only [List.map_cons, List.foldr_cons, List.length_append, List.length_singleton]
      omega
    · simp only [List.map_cons, List.foldr_cons, ih]
      omega

theorem size_extend : ∀ (ts : List Tag) (s : TagSet), (s.extend ts).size = s.size + ts.length
  | [], _ => rfl
  | t :: ts, s => by
    have hpush : (s.push t).size = s.size + 1 := size_pushInto t s.groups
    rw [extend_cons, size_extend ts, hpush, List.length_cons]
    omega

theorem mem_iff_under {name : Identifier} {group : List Tag} : ∀ {gs : List (Identifier × List Tag)},
    gs.Pairwise (fun a b => compare a.1 b.1 = .lt) → (∀ g ∈ gs, g.2 ≠ []) →
      ((name, group) ∈ gs ↔ under name gs = group ∧ group ≠ [])
  | [], _, _ => by
    have hnil : under name [] = [] := under_eq_nil nofun
    simp only [List.not_mem_nil, hnil, false_iff]
    exact fun h => h.2 h.1.symm
  | g :: gs, hordered, hnonempty => by
    obtain ⟨hfirst, hgs⟩ := List.pairwise_cons.1 hordered
    obtain ⟨hg, hrest⟩ := List.forall_mem_cons.1 hnonempty
    rw [under_cons, List.mem_cons, mem_iff_under hgs hrest]
    by_cases hname : g.1 = name
    · -- Behind this group no other has the name.
      have hlater : under name gs = [] := by
        refine under_eq_nil fun k hk heq => ?_
        have hlt := hfirst k hk
        rw [heq, hname] at hlt
        exact Identifier.compare_self_ne_lt name hlt
      rw [if_pos hname, hlater]
      constructor
      · rintro (rfl | ⟨rfl, h⟩)
        · exact ⟨rfl, hg⟩
        · exact absurd rfl h
      · rintro ⟨rfl, -⟩
        exact .inl (Prod.ext hname.symm rfl)
    · rw [if_neg hname]
      exact or_iff_right fun h => hname (congrArg Prod.fst h).symm

/-! ## What a set holds -/

/-- **What is read from a set that holds the tags of a list.** -/
structure Holds (s : TagSet) (ts : List Tag) : Prop where
  get : ∀ name, s.get name = named name ts
  search : ∀ name, s.search name = s.get name
  first : ∀ name, s.first? name = (s.get name).head? ∧ s.first? name = ts.find? (·.name.text == name)
  single : ∀ name t, s.single? name = some t ↔ s.get name = [t]
  contains : ∀ name, s.contains name = true ↔ s.get name ≠ []
  isEmpty : (s.isEmpty = true ↔ ts = []) ∧ (s.isEmpty = true ↔ ∀ name, s.get name = [])
  size : s.size = ts.length
  ordered : s.groups.Pairwise fun a b => compare (Text.bytes a.1.text) (Text.bytes b.1.text) = .lt
  once : (s.groups.map (·.1)).Nodup
  names : ∀ name, name ∈ s.groups.map (·.1) ↔ name ∈ ts.map (·.name)
  groups : ∀ g ∈ s.groups, g.2 ≠ [] ∧ g.2 = named g.1.text ts

theorem named_text (name : Identifier) (ts : List Tag) : named name.text ts = ts.filter (·.name = name) :=
  List.filter_congr fun t _ => by
    rw [Bool.eq_iff_iff, decide_eq_true_eq, beq_iff_eq]
    exact Identifier.ext_iff.symm

theorem pairwise_bytes {gs : List (Identifier × List Tag)} (h : gs.Pairwise fun a b => compare a.1 b.1 = .lt) :
    gs.Pairwise fun a b => compare (Text.bytes a.1.text) (Text.bytes b.1.text) = .lt := by
  refine h.imp fun {a b} hlt => ?_
  rw [Text.compare_bytes a.1.isAscii b.1.isAscii]
  exact hlt

/-- **Searching in order finds what looking at every group finds.** -/
theorem searchIn_eq (name : String) : ∀ {gs : List (Identifier × List Tag)},
    gs.Pairwise (fun a b => compare (Text.bytes a.1.text) (Text.bytes b.1.text) = .lt) →
      searchIn name gs = (TagSet.mk gs).get name
  | [], _ => rfl
  | (first, group) :: gs, h => by
    obtain ⟨hfirst, hgs⟩ := List.pairwise_cons.1 h
    have hself : compare (Text.bytes name) (Text.bytes name) = .eq := Std.ReflCmp.compare_self
    rw [searchIn]
    cases hc : compare (Text.bytes name) (Text.bytes first.text) with
    | lt =>
      -- All names are later than the text.
      have hlater : ∀ g ∈ (first, group) :: gs, ¬ (g.1.text == name) = true := by
        intro g hg heq
        have hlt : compare (Text.bytes name) (Text.bytes g.1.text) = .lt := by
          rcases List.mem_cons.1 hg with rfl | hg
          · exact hc
          · exact Std.TransCmp.lt_trans hc (hfirst g hg)
        rw [eq_of_beq heq, hself] at hlt
        cases hlt
      rw [get, List.find?_eq_none.2 hlater]
      rfl
    | eq =>
      have hname : name = first.text := Text.bytes_injective (Std.LawfulEqCmp.eq_of_compare hc)
      simp [get, hname]
    | gt =>
      have hname : first.text ≠ name := by
        rintro rfl
        rw [hself] at hc
        cases hc
      simp [get, hname, searchIn_eq name hgs]

section Grouping

variable {s s' : TagSet} {ts ts' : List Tag} (h : s.IsGrouping ts)
include h

theorem IsGrouping.mem_iff {name : Identifier} {group : List Tag} :
    (name, group) ∈ s.groups ↔ named name.text ts = group ∧ group ≠ [] := by
  rw [mem_iff_under h.ordered h.nonempty, named_text, ← h.get name]
  rfl

theorem IsGrouping.mem_names_iff {name : Identifier} : name ∈ s.groups.map (·.1) ↔ name ∈ ts.map (·.name) := by
  have hname : name ∈ s.groups.map (·.1) ↔ ∃ group, (name, group) ∈ s.groups := by simp
  simp [hname, h.mem_iff, named_text]

/-- **A text that names no tag finds none**, whether it could be a name or not. -/
theorem IsGrouping.get_text (text : String) : s.get text = named text ts := by
  by_cases htext : ∃ name : Identifier, name.text = text
  · obtain ⟨name, rfl⟩ := htext
    rw [h.get name, named_text]
  · have hnone : s.groups.find? (fun g => g.1.text == text) = none :=
      List.find?_eq_none.2 fun g _ hg => htext ⟨g.1, eq_of_beq hg⟩
    have hnamed : named text ts = [] := List.filter_eq_nil_iff.2 fun t _ ht => htext ⟨t.name, eq_of_beq ht⟩
    rw [TagSet.get, hnone, hnamed]
    rfl

theorem IsGrouping.isEmpty_iff : s.isEmpty = true ↔ ts = [] := by
  have hnames : s.groups = [] ↔ ∀ name, name ∉ s.groups.map (·.1) := by
    rw [← List.eq_nil_iff_forall_not_mem, List.map_eq_nil_iff]
  rw [isEmpty, List.isEmpty_iff, hnames]
  simp only [h.mem_names_iff]
  rw [← List.eq_nil_iff_forall_not_mem, List.map_eq_nil_iff]

theorem IsGrouping.once : (s.groups.map (·.1)).Nodup :=
  List.pairwise_map.2 (h.ordered.imp fun hlt heq => by
    rw [heq] at hlt
    exact Identifier.compare_self_ne_lt _ hlt)

/-- **Sets with the same parts are equal.** -/
theorem IsGrouping.eq_iff (h' : s'.IsGrouping ts') : s = s' ↔ ∀ name, named name ts = named name ts' := by
  constructor
  · rintro rfl name
    rw [← h.get_text, h'.get_text]
  · intro hparts
    have hmem : ∀ g, g ∈ s.groups ↔ g ∈ s'.groups := by
      rintro ⟨name, group⟩
      rw [h.mem_iff, h'.mem_iff, hparts]
    have hperm : s.groups.Perm s'.groups :=
      (List.perm_ext_iff_of_nodup (List.Nodup.of_map _ h.once) (List.Nodup.of_map _ h'.once)).2 hmem
    have hgroups : s.groups = s'.groups := hperm.eq_of_pairwise
      (fun a b _ _ hab hba => absurd (Identifier.compare_lt_trans hab hba) (Identifier.compare_self_ne_lt _))
      h.ordered h'.ordered
    cases s; cases s'
    exact congrArg TagSet.mk hgroups

end Grouping

theorem holds_ofList (ts : List Tag) : (ofList ts).Holds ts := by
  have h := isGrouping_ofList ts
  have hbytes := pairwise_bytes h.ordered
  refine ⟨h.get_text, fun name => searchIn_eq name hbytes, fun name => ⟨rfl, ?_⟩, fun name t => ?_, fun name => ?_,
    ⟨h.isEmpty_iff, h.isEmpty_iff.trans ?_⟩, ?_, hbytes, h.once, fun name => h.mem_names_iff, fun g hg => ?_⟩
  · rw [first?, h.get_text, named, List.head?_filter]
  · unfold single?
    split
    next u hu => simp [hu]
    next hother => exact ⟨nofun, fun ht => (hother t ht).elim⟩
  · simp [TagSet.contains]
  · constructor
    · rintro rfl
      exact fun name => rfl
    · intro hnone
      refine List.eq_nil_iff_forall_not_mem.2 fun t ht => ?_
      have hpart := hnone t.name.text
      rw [h.get_text] at hpart
      exact List.filter_eq_nil_iff.1 hpart t ht (beq_self_eq_true _)
  · rw [ofList, size_extend]
    exact Nat.zero_add _
  · obtain ⟨hpart, hne⟩ := h.mem_iff.1 hg
    exact ⟨hne, hpart.symm⟩

theorem ofList_eq_iff {ts us : List Tag} : ofList ts = ofList us ↔ ∀ name, named name ts = named name us :=
  (isGrouping_ofList ts).eq_iff (isGrouping_ofList us)

/-- **Two tags may change places if their names differ**, and otherwise only if they are one tag. -/
theorem ofList_swap_iff {ts us : List Tag} {t u : Tag} :
    ofList (ts ++ t :: u :: us) = ofList (ts ++ u :: t :: us) ↔ t.name ≠ u.name ∨ t = u := by
  simp only [ofList_eq_iff, named, List.filter_append, List.append_cancel_left_eq]
  by_cases hname : t.name = u.name
  · constructor
    · intro h
      have hpart := h t.name.text
      simp only [hname, List.filter_cons, beq_self_eq_true, if_true, List.cons.injEq] at hpart
      exact .inr hpart.1
    · rintro (hne | rfl)
      · exact absurd hname hne
      · exact fun _ => rfl
  · refine iff_of_true (fun name => ?_) (.inl hname)
    have hboth : ¬ (t.name.text = name ∧ u.name.text = name) :=
      fun ⟨ht, hu⟩ => hname (Identifier.ext (ht.trans hu.symm))
    by_cases ht : t.name.text = name
    · have hu : u.name.text ≠ name := fun hu => hboth ⟨ht, hu⟩
      simp [ht, hu]
    · simp [List.filter_cons, ht]

/-- **A set of tags knows the tags of each name and their order, and nothing else**, however the tags have come into it.
It holds the tags put in; two sets are equal if under each name the same tags have been put in, in the same order; and two
tags put in one after the other may change places if their names differ, or if they are one tag. -/
theorem grouped_run (ops : List Operation) :
    (run empty ops).Holds (added ops) ∧
    (∀ more, run empty ops = run empty more ↔ ∀ name, named name (added ops) = named name (added more)) ∧
    ∀ t u us, (((run empty ops).push t).push u).extend us = (((run empty ops).push u).push t).extend us ↔
      t.name ≠ u.name ∨ t = u := by
  simp only [run_eq_ofList]
  refine ⟨holds_ofList _, fun more => ofList_eq_iff, fun t u us => ?_⟩
  have hofList : ∀ t u, (((ofList (added ops)).push t).push u).extend us = ofList (added ops ++ t :: u :: us) :=
    fun t u => (extend_append empty (added ops) (t :: u :: us)).symm
  rw [hofList, hofList, ofList_swap_iff]

end TagSet
end DomainModel
