import DomainModel.Group.Index
import DomainModel.Proofs.Group.Partition
import Mathlib.Data.List.Induction
/-!
# Indexed — the groups that an index gives

An index into which blocks were put one after the other holds, of each full name, the blocks of that name in their order,
and the names in the order of their first blocks (`Holds`).  Reading groups off it from the top down to the longest name
gives the groups of the forest (`groups_ofForest`).
-/
namespace DomainModel

/-! ## Lists without repetitions -/

theorem eraseDups_concat {α : Type} [DecidableEq α] (as : List α) (a : α) :
    (as ++ [a]).eraseDups = if a ∈ as then as.eraseDups else as.eraseDups ++ [a] := by
  rw [List.eraseDups_append]
  by_cases ha : a ∈ as <;> simp [List.removeAll, List.eraseDups_cons, ha]

/-- **Repetitions may be dropped before or after.** -/
theorem eraseDups_filterMap {α β : Type} [DecidableEq α] [DecidableEq β] (f : α → Option β) (as : List α) :
    (as.eraseDups.filterMap f).eraseDups = (as.filterMap f).eraseDups := by
  induction as using List.reverseRecOn with
  | nil => rfl
  | append_singleton as a ih =>
    have hmem : ∀ b, b ∈ as.eraseDups.filterMap f ↔ b ∈ as.filterMap f := by
      intro b
      simp only [List.mem_filterMap, List.mem_eraseDups]
    rw [eraseDups_concat, List.filterMap_append]
    cases hfa : f a with
    | none => by_cases ha : a ∈ as <;> simp [ha, hfa, ih]
    | some b =>
      have hone : [a].filterMap f = [b] := by simp [hfa]
      rw [hone, eraseDups_concat]
      by_cases ha : a ∈ as
      · rw [if_pos ha, if_pos (List.mem_filterMap.2 ⟨a, ha, hfa⟩), ih]
      · rw [if_neg ha, List.filterMap_append, hone, eraseDups_concat, ih]
        simp only [hmem]

namespace FragmentIndex

open Source (Block Member Tree)

/-- **An index holds blocks**: each name its own, in order, and the names as they first appeared. -/
structure Holds (x : FragmentIndex) (fs : List Fragment) : Prop where
  order : x.order = (fs.map (·.fullName)).eraseDups
  get? : ∀ name, x.get? name =
    if name ∈ fs.map (·.fullName) then some (fs.filter fun f => f.fullName = name) else none

theorem holds_empty : empty.Holds [] := ⟨rfl, fun _ => rfl⟩

theorem get?_append (x : FragmentIndex) (order : List QualifiedName) (name other : QualifiedName) (f : Fragment) :
    (FragmentIndex.mk order (x.entries ++ [(name, [f])])).get? other =
      (x.get? other <|> if name = other then some [f] else none) := by
  unfold get?
  rw [List.find?_append]
  cases hf : x.entries.find? fun e => decide (e.1 = other) with
  | some e => simp
  | none => by_cases hn : name = other <;> simp [hn]

theorem get?_map (x : FragmentIndex) (order : List QualifiedName) (name other : QualifiedName) (f : Fragment) :
    (FragmentIndex.mk order (x.entries.map fun e => if e.1 = name then (e.1, e.2 ++ [f]) else e)).get? other =
      (x.get? other).map fun fs => if other = name then fs ++ [f] else fs := by
  have hkey : ∀ e : QualifiedName × List Fragment, (if e.1 = name then (e.1, e.2 ++ [f]) else e).1 = e.1 := by
    intro e
    split <;> rfl
  simp only [get?, List.find?_map, Function.comp_def, hkey, Option.map_map]
  cases hf : x.entries.find? fun e => decide (e.1 = other) with
  | none => rfl
  | some e =>
    have he : e.1 = other := by simpa using List.find?_some hf
    by_cases hn : other = name
    · simp [he, hn]
    · simp [he, hn]

/-- **One block more is held behind the others.** -/
theorem Holds.insert {x : FragmentIndex} {fs : List Fragment} (h : x.Holds fs) (f : Fragment) :
    (x.insert f).Holds (fs ++ [f]) := by
  have hget := h.get? f.fullName
  unfold FragmentIndex.insert
  simp only [Fragment.fullName_scope]
  by_cases hold : f.fullName ∈ fs.map (·.fullName)
  · rw [if_pos hold] at hget
    simp only [hget]
    refine ⟨?_, fun name => ?_⟩
    · rw [h.order, List.map_append, List.map_singleton, eraseDups_concat, if_pos hold]
    · rw [get?_map, h.get? name]
      by_cases hname : name = f.fullName
      · subst hname
        simp [hold]
      · have hne : f.fullName ≠ name := Ne.symm hname
        by_cases hmem : name ∈ fs.map (·.fullName) <;> simp [hmem, hname, hne]
  · rw [if_neg hold] at hget
    simp only [hget]
    refine ⟨?_, fun name => ?_⟩
    · rw [h.order, List.map_append, List.map_singleton, eraseDups_concat, if_neg hold]
    · rw [get?_append, h.get? name]
      by_cases hname : f.fullName = name
      · subst hname
        have hnone : fs.filter (fun g => g.fullName = f.fullName) = [] :=
          List.filter_eq_nil_iff.2 fun g hg heq => hold (of_decide_eq_true heq ▸ List.mem_map_of_mem hg)
        simp [hold, hnone]
      · by_cases hmem : name ∈ fs.map (·.fullName) <;> simp [hmem, hname, Ne.symm hname]

theorem Holds.foldl_insert {x : FragmentIndex} {fs : List Fragment} (h : x.Holds fs) : ∀ gs : List Fragment,
    (gs.foldl FragmentIndex.insert x).Holds (fs ++ gs)
  | [] => by rwa [List.append_nil]
  | g :: gs => by
    have hgs := (h.insert g).foldl_insert gs
    rwa [List.append_assoc, List.singleton_append] at hgs

/-! ## Collecting -/

mutual

/-- **Collecting a block inserts it and the blocks inside it**, each before those inside. -/
theorem collect_eq (outer : Scope) : ∀ (b : Block) (x : FragmentIndex),
    collect outer b x = (b.fragments outer).foldl insert x
  | ⟨name, imports, members⟩, x => by
    rw [collect, Block.fragments, List.foldl_cons, collectAll_eq]

theorem collectMember_eq (outer : Scope) : ∀ (m : Member) (x : FragmentIndex),
    collectMember outer m x = (m.fragments outer).foldl insert x
  | .block b, x => by rw [collectMember, Member.fragments, collect_eq outer b x]
  | .entity _, _ | .value _, _ | .externalEnum _, _ | .webApi _, _ => rfl

theorem collectAll_eq (outer : Scope) : ∀ (ms : List Member) (x : FragmentIndex),
    collectAll outer ms x = (Member.fragmentsAll outer ms).foldl insert x
  | [], _ => rfl
  | m :: ms, x => by
    rw [collectAll, Member.fragmentsAll, List.foldl_append, collectMember_eq outer m x, collectAll_eq outer ms]

end

/-- **The index of a forest holds its blocks.** -/
theorem holds_ofForest (forest : List Tree) : (ofForest forest).Holds (fragmentsOf forest) := by
  have hfold : ofForest forest = (fragmentsOf forest).foldl insert empty := by
    simp only [ofForest, fragmentsOf, List.foldl_flatMap, collect_eq]
  rw [hfold]
  exact holds_empty.foldl_insert (fragmentsOf forest)

/-! ## Reading groups off -/

variable {x : FragmentIndex} {fs : List Fragment}

theorem Holds.segmentsAt (h : x.Holds fs) (start : Option QualifiedName) :
    x.segmentsAt start (Group.startSize start) = Group.nextSegments (fs.map (·.fullName)) start := by
  have hnext : (fun name : QualifiedName => if start.all (name.startsWith ·) then
      name.segments[Group.startSize start]? else none) = Group.nextSegment? start := by
    funext name
    cases start with
    | none => rfl
    | some s => rfl
  rw [FragmentIndex.segmentsAt, hnext, h.order, Group.nextSegments_eq, eraseDups_filterMap]

theorem Holds.getD (h : x.Holds fs) (name : QualifiedName) :
    (x.get? name).getD [] = fs.filter fun f => f.fullName = name := by
  rw [h.get?]
  split
  · rfl
  · rename_i hname
    have hnone : fs.filter (fun f => f.fullName = name) = [] :=
      List.filter_eq_nil_iff.2 fun f hf heq => hname (of_decide_eq_true heq ▸ List.mem_map_of_mem hf)
    rw [hnone]
    rfl

/-- **Reading groups off an index that holds blocks gives the groups of the blocks**, if there are levels enough for the
longest name. -/
theorem Holds.groups_eq (h : x.Holds fs) : ∀ (levels : Nat) (start : Option QualifiedName),
    QualifiedName.longest x.order ≤ levels + Group.startSize start →
      x.groups start (Group.startSize start) = Group.under fs levels start := by
  intro levels
  induction levels with
  | zero =>
    intro start hlong
    have hnone : x.segmentsAt start (Group.startSize start) = [] := by
      refine List.eq_nil_iff_forall_not_mem.2 fun segment hs => ?_
      have := lt_longest hs
      omega
    rw [FragmentIndex.groups_eq, hnone]
    rfl
  | succ levels ih =>
    intro start hlong
    rw [FragmentIndex.groups_eq, h.segmentsAt, Group.under_succ]
    refine List.map_congr_left fun segment _ => ?_
    have hdepth := Group.startSize_under start segment
    have hinner := ih (some ((QualifiedName.single segment).under start)) (by omega)
    simp only [Group.ofSegment, h.getD, ← hdepth, hinner]

/-- **The groups read off the index of a forest are its groups.** -/
theorem merge_eq (forest : List Tree) : merge forest = Group.merge forest := by
  have h := holds_ofForest forest
  refine h.groups_eq _ none ?_
  -- The names of the index are those of the blocks, each once, so the longest is as long.
  rw [h.order, Group.depthOf_eq]
  exact QualifiedName.longest_le fun n hn => QualifiedName.size_le_longest (List.mem_eraseDups.1 hn)

end FragmentIndex
end DomainModel
