import DomainModel.Proofs.Source.Place
import Mathlib.Data.List.Perm.Basic
/-!
# Partition — every block is in one group

The groups of a forest hold each block of the forest once, and every block under the full name of its group
(`fragments_merge_perm`, `fullName_of_mem_fragments`).  A group directly inside another has one segment more
(`fullName_of_mem_children`).  So going through the groups is going through the forest, in another order.
-/
namespace DomainModel

/-! ## Lists cut by a key -/

theorem filter_append_filter_perm {α : Type} {p q r : α → Bool} (h : ∀ x, p x = (q x || r x))
    (hd : ∀ x, q x = true → r x = false) (xs : List α) : (xs.filter q ++ xs.filter r).Perm (xs.filter p) := by
  have hq : xs.filter q = (xs.filter p).filter q := by
    rw [List.filter_filter]
    refine List.filter_congr fun x _ => ?_
    rw [h]
    cases q x <;> rfl
  have hr : xs.filter r = (xs.filter p).filter fun x => !q x := by
    rw [List.filter_filter]
    refine List.filter_congr fun x _ => ?_
    rw [h]
    cases hx : q x with
    | true => simp [hd x hx]
    | false => simp
  rw [hq, hr]
  exact List.filter_append_perm q (xs.filter p)

/-- **The entries of each key, key by key, are the entries of all the keys.** -/
theorem flatMap_filter_key_perm {α κ : Type} [DecidableEq κ] (key : α → Option κ) (xs : List α) : ∀ {ks : List κ},
    ks.Nodup → (ks.flatMap fun k => xs.filter fun x => key x = some k).Perm
      (xs.filter fun x => (key x).any ks.contains)
  | [], _ => by
    have hnone : xs.filter (fun x => (key x).any ([] : List κ).contains) = [] :=
      List.filter_eq_nil_iff.2 fun x _ => by cases key x <;> simp
    rw [hnone]
    exact .refl _
  | k :: ks, h => by
    obtain ⟨hk, hks⟩ := List.nodup_cons.1 h
    rw [List.flatMap_cons]
    refine ((flatMap_filter_key_perm key xs hks).append_left _).trans ?_
    refine filter_append_filter_perm (fun x => ?_) (fun x hx => ?_) xs
    · cases key x with
      | none => simp
      | some k' => simp
    · simp only [decide_eq_true_eq] at hx
      simpa [hx] using hk

theorem nodup_eraseDups {α : Type} [DecidableEq α] : ∀ xs : List α, xs.eraseDups.Nodup
  | [] => by simp
  | x :: xs => by
    rw [List.eraseDups_cons, List.nodup_cons]
    exact ⟨by simp, nodup_eraseDups _⟩
termination_by xs => xs.length
decreasing_by exact Nat.lt_succ_of_le (List.length_filter_le ..)

namespace Group

open Source (Place places)

/-! ## What a group is made of -/

/-- The segment of a name behind a beginning. -/
def nextSegment? (start : Option QualifiedName) (n : QualifiedName) : Option Identifier :=
  match start with
  | none => some n.first
  | some s => if n.startsWith s then n.segments[s.size]? else none

theorem nextSegments_eq (names : List QualifiedName) (start : Option QualifiedName) :
    nextSegments names start = (names.filterMap (nextSegment? start)).eraseDups := rfl

theorem segments_prefix_iff {a b : QualifiedName} :
    a.segments <+: b.segments ↔ b = a ∨ ∃ i, (a.child i).segments <+: b.segments := by
  constructor
  · rintro ⟨rest, hrest⟩
    cases rest with
    | nil => exact .inl (QualifiedName.ext (by simpa using hrest.symm))
    | cons i rest => exact .inr ⟨i, rest, by simpa using hrest⟩
  · rintro (rfl | ⟨i, h⟩)
    · exact List.prefix_rfl
    · exact (List.prefix_append _ [i]).trans h

/-- **The segment behind a beginning leads to a longer beginning.** -/
theorem nextSegment?_eq_some_iff {start : Option QualifiedName} {n : QualifiedName} {segment : Identifier} :
    nextSegment? start n = some segment ↔ ((QualifiedName.single segment).under start).segments <+: n.segments := by
  cases start with
  | none => simp [nextSegment?, QualifiedName.under, QualifiedName.single, QualifiedName.segments, List.cons_prefix_cons, eq_comm]
  | some s =>
    simp only [nextSegment?, QualifiedName.under, QualifiedName.segments_join, QualifiedName.segments_single]
    constructor
    · intro h
      split at h
      · rename_i hs
        obtain ⟨rest, hrest⟩ := QualifiedName.startsWith_iff.1 hs
        rw [← hrest, QualifiedName.size, List.getElem?_append_right (Nat.le_refl _), Nat.sub_self] at h
        obtain ⟨tail, rfl⟩ : ∃ tail, rest = segment :: tail := by
          cases rest with
          | nil => cases h
          | cons i tail => exact ⟨tail, by simpa using h⟩
        exact ⟨tail, by rw [← hrest]; simp⟩
      · cases h
    · rintro ⟨rest, hrest⟩
      have hs : n.startsWith s = true := QualifiedName.startsWith_iff.2 ⟨segment :: rest, by rw [← hrest]; simp⟩
      rw [if_pos hs, ← hrest, QualifiedName.size]
      simp

/-- The number of segments of a beginning. -/
def startSize (start : Option QualifiedName) : Nat := (start.map (·.size)).getD 0

theorem startSize_under (start : Option QualifiedName) (segment : Identifier) :
    startSize (some ((QualifiedName.single segment).under start)) = startSize start + 1 := by
  cases start with
  | none => rfl
  | some s => simp [startSize, QualifiedName.under, QualifiedName.size]

/-- **A name that goes on behind a beginning is longer.** -/
theorem startSize_lt {start : Option QualifiedName} {n : QualifiedName} {segment : Identifier}
    (h : nextSegment? start n = some segment) : startSize start < n.size := by
  have hle := (nextSegment?_eq_some_iff.1 h).length_le
  have hsize := startSize_under start segment
  simp only [startSize, QualifiedName.size, Option.map_some, Option.getD_some] at hle hsize ⊢
  omega

theorem isSome_nextSegment?_iff {s n : QualifiedName} :
    (nextSegment? (some s) n).isSome = true ↔ ∃ i, (s.child i).segments <+: n.segments := by
  rw [Option.isSome_iff_exists]
  exact exists_congr fun _ => nextSegment?_eq_some_iff

theorem nextSegment?_self (n : QualifiedName) : nextSegment? (some n) n = none := by
  rw [← Option.not_isSome_iff_eq_none, isSome_nextSegment?_iff]
  rintro ⟨i, h⟩
  have := h.length_le
  simp only [QualifiedName.segments_child, List.length_append, List.length_singleton] at this
  omega

theorem mem_nextSegments {names : List QualifiedName} {start : Option QualifiedName} {segment : Identifier} :
    segment ∈ nextSegments names start ↔ ∃ n ∈ names, nextSegment? start n = some segment := by
  rw [nextSegments_eq, List.mem_eraseDups, List.mem_filterMap]

theorem preorderAll_eq_flatMap : ∀ gs : List Group, preorderAll gs = gs.flatMap preorder
  | [] => rfl
  | g :: gs => by rw [preorderAll, preorderAll_eq_flatMap gs, List.flatMap_cons]

/-- The group of a segment under a beginning, with so many levels inside. -/
def ofSegment (fragments : List Fragment) (depth : Nat) (start : Option QualifiedName) (segment : Identifier) : Group where
  fullName := (QualifiedName.single segment).under start
  fragments := fragments.filter fun f => f.fullName = (QualifiedName.single segment).under start
  children := under fragments depth (some ((QualifiedName.single segment).under start))

theorem under_succ (fragments : List Fragment) (depth : Nat) (start : Option QualifiedName) :
    under fragments (depth + 1) start =
      (nextSegments (fragments.map (·.fullName)) start).map (ofSegment fragments depth start) := rfl

/-- **Every group inside is made the same way**, deeper down. -/
theorem exists_under_of_mem {fragments : List Fragment} {g : Group} : ∀ {depth : Nat} {start : Option QualifiedName},
    g ∈ preorderAll (under fragments depth start) → ∃ d s segment, g = ofSegment fragments d s segment
  | 0, _, h => by cases h
  | depth + 1, start, h => by
    rw [under_succ, preorderAll_eq_flatMap, List.mem_flatMap] at h
    obtain ⟨top, htop, hg⟩ := h
    obtain ⟨segment, -, rfl⟩ := List.mem_map.1 htop
    rw [preorder_eq] at hg
    rcases List.mem_cons.1 hg with rfl | hg
    · exact ⟨depth, start, segment, rfl⟩
    · exact exists_under_of_mem hg

/-! ## The partition -/

/-- **The groups under a beginning hold the blocks whose names go on behind it**, each once, if there are levels enough. -/
theorem fragments_under_perm {fragments : List Fragment} : ∀ {depth : Nat} (start : Option QualifiedName),
    (∀ f ∈ fragments, f.fullName.size ≤ depth + startSize start) →
      ((preorderAll (under fragments depth start)).flatMap (·.fragments)).Perm
        (fragments.filter fun f => (nextSegment? start f.fullName).isSome)
  -- By induction on the levels left; with none left, no name is long enough to go on.
  | 0, start, h => by
    have hnone : fragments.filter (fun f => (nextSegment? start f.fullName).isSome) = [] := by
      refine List.filter_eq_nil_iff.2 fun f hf hs => ?_
      obtain ⟨segment, hs⟩ := Option.isSome_iff_exists.1 hs
      have hlt := startSize_lt hs
      have hle := h f hf
      omega
    rw [hnone]
    exact .refl _
  | depth + 1, start, h => by
    -- Under one segment there are the blocks of exactly that name, then those that go on behind it.
    have hone : ∀ segment ∈ nextSegments (fragments.map (·.fullName)) start,
        ((ofSegment fragments depth start segment).preorder.flatMap (·.fragments)).Perm
          (fragments.filter fun f => nextSegment? start f.fullName = some segment) := by
      intro segment _
      rw [preorder_eq, List.flatMap_cons]
      refine ((fragments_under_perm (some _) fun f hf => ?_).append_left _).trans ?_
      · have hle := h f hf
        rw [startSize_under]
        omega
      · refine filter_append_filter_perm (fun f => ?_) (fun f hf => ?_) fragments
        · rw [Bool.eq_iff_iff, Bool.or_eq_true, decide_eq_true_eq, decide_eq_true_eq, nextSegment?_eq_some_iff,
            segments_prefix_iff, isSome_nextSegment?_iff]
        · rw [decide_eq_true_eq] at hf
          rw [hf, nextSegment?_self]
          rfl
    rw [under_succ, preorderAll_eq_flatMap, List.flatMap_map, List.flatMap_assoc]
    refine (List.Perm.flatMap_left _ hone).trans ?_
    refine (flatMap_filter_key_perm (fun f : Fragment => nextSegment? start f.fullName) fragments
      (nodup_eraseDups _)).trans ?_
    -- Whatever goes on does so with one of the segments that have a group.
    refine .of_eq (List.filter_congr fun f hf => ?_)
    cases hs : nextSegment? start f.fullName with
    | none => rfl
    | some segment =>
      have hmem : segment ∈ nextSegments (fragments.map (·.fullName)) start :=
        mem_nextSegments.2 ⟨_, List.mem_map.2 ⟨f, hf, rfl⟩, hs⟩
      exact List.contains_iff_mem.2 hmem

theorem depthOf_eq (fragments : List Fragment) :
    depthOf fragments = QualifiedName.longest (fragments.map (·.fullName)) := by
  rw [depthOf, QualifiedName.longest, List.map_map]
  rfl

theorem size_le_depthOf {fragments : List Fragment} {f : Fragment} (hf : f ∈ fragments) :
    f.fullName.size ≤ depthOf fragments := by
  rw [depthOf_eq]
  exact QualifiedName.size_le_longest (List.mem_map_of_mem hf)

variable {forest : List Source.Tree}

/-- **The groups of a forest hold every block of the forest once**, and nothing else. -/
theorem fragments_merge_perm (forest : List Source.Tree) :
    ((all (merge forest)).flatMap (·.fragments)).Perm (fragmentsOf forest) := by
  rw [all_eq, merge]
  refine (fragments_under_perm none fun f hf => ?_).trans (.of_eq (List.filter_eq_self.2 fun f _ => rfl))
  exact Nat.le_trans (size_le_depthOf hf) (Nat.le_add_right _ _)

/-- **The nodes of a group's members**, where they are written. -/
def places (g : Group) : List Place := g.members.flatMap fun m => m.1.places m.2

/-- **Going through the groups is going through the forest**, in another order. -/
theorem places_merge_perm (forest : List Source.Tree) :
    ((all (merge forest)).flatMap places).Perm (Source.places forest) := by
  have h := (fragments_merge_perm forest).flatMap_right fun f => f.members.flatMap fun m => m.1.places m.2
  rw [List.flatMap_assoc] at h
  have hplaces : ∀ g : Group, g.places = g.fragments.flatMap fun f => f.members.flatMap fun m => m.1.places m.2 :=
    fun g => List.flatMap_assoc ..
  rw [funext hplaces]
  exact h

theorem declared_eq (groups : List Group) :
    Table.declared groups = ((all groups).flatMap places).filterMap fun x => x.2.declaration? x.1 := by
  simp only [Table.declared, declarations, places, List.filterMap_flatMap, Source.Member.declarations_eq]

/-- **What the groups of a forest declare is what its nodes declare.** -/
theorem mem_declared_iff {d : Declaration} :
    d ∈ Table.declared (merge forest) ↔ ∃ s n, Source.At forest s n ∧ n.declaration? s = some d := by
  rw [declared_eq, List.mem_filterMap]
  constructor
  · rintro ⟨x, hx, hd⟩
    refine ⟨x.1, x.2, ?_, hd⟩
    exact (Source.at_iff_mem_places fun b hb => by rw [hb] at hd; cases hd).2 ((places_merge_perm forest).mem_iff.1 hx)
  · rintro ⟨s, n, hn, hd⟩
    refine ⟨(s, n), ?_, hd⟩
    exact (places_merge_perm forest).mem_iff.2
      ((Source.at_iff_mem_places fun b hb => by rw [hb] at hd; cases hd).1 hn)

/-! ## Names of groups -/

theorem exists_ofSegment_of_mem {g : Group} (h : g ∈ all (merge forest)) :
    ∃ d s segment, g = ofSegment (fragmentsOf forest) d s segment := by
  rw [all_eq] at h
  exact exists_under_of_mem h

/-- **The blocks of a group have its full name.** -/
theorem fullName_of_mem_fragments {g : Group} (hg : g ∈ all (merge forest)) {f : Fragment} (hf : f ∈ g.fragments) :
    f.fullName = g.fullName := by
  obtain ⟨d, s, segment, rfl⟩ := exists_ofSegment_of_mem hg
  exact of_decide_eq_true (List.mem_filter.1 hf).2

/-- **A group directly inside another has one segment more.** -/
theorem fullName_of_mem_children {g : Group} (hg : g ∈ all (merge forest)) {c : Group} (hc : c ∈ g.children) :
    c.fullName = g.fullName.child c.name := by
  obtain ⟨d, s, segment, rfl⟩ := exists_ofSegment_of_mem hg
  cases d with
  | zero => cases hc
  | succ d =>
    obtain ⟨inner, -, rfl⟩ := List.mem_map.1 hc
    exact congrArg (QualifiedName.child _) (QualifiedName.last_child _ inner).symm

theorem fullName_of_mem_merge {g : Group} (hg : g ∈ merge forest) : g.fullName = .single g.name := by
  unfold merge at hg
  cases hd : depthOf (fragmentsOf forest) with
  | zero => simp only [hd] at hg; cases hg
  | succ d =>
    simp only [hd] at hg
    obtain ⟨segment, -, rfl⟩ := List.mem_map.1 hg
    rfl

theorem mem_members {g : Group} {x : Source.Member × Scope} : x ∈ g.members ↔ ∃ f ∈ g.fragments, x ∈ f.members := by
  rw [members, List.mem_flatMap]

end Group
end DomainModel
