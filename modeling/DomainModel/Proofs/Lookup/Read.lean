import DomainModel.Lookup.Store
/-!
# Read — what one read does, case by case

A read is bounded by the number of lookups, and the bound is never met: starting a resolver takes it away, so resolvers
wait for each other at most as deep as there are resolvers left (`pending`), and with more levels than that a read does
the same (`readWithin_eq_read`).  What remains is the recursion without the bound: `read_absent`, `read_resolved`,
`read_taken` and `read_pending` say what a read does by what stands at the number.
-/
namespace DomainModel

namespace Lookup

def isPending (l : Lookup) : Bool :=
  match l.state with
  | .pending _ => true
  | _ => false

end Lookup

namespace LookupStore

variable {s : LookupStore} {i n fuel : Nat} {q : Resolver}

theorem get?_set_self {l : Lookup} (h : s.get? i = some l) (l' : Lookup) : (s.set i l').get? i = some l' := by
  rw [get?_set, if_pos rfl, h]
  rfl

theorem get?_set_ne {k : Nat} (h : k ≠ i) (s : LookupStore) (l : Lookup) : (s.set i l).get? k = s.get? k := by
  rw [get?_set, if_neg h.symm]

/-! ## Resolvers left -/

/-- **How many resolvers have not been started.** -/
def pending (s : LookupStore) : Nat := s.lookups.countP Lookup.isPending

theorem pending_le_size (s : LookupStore) : s.pending ≤ s.size := List.countP_le_length

theorem pending_set_le {l : Lookup} (hl : l.isPending = false) (s : LookupStore) (i : Nat) :
    (s.set i l).pending ≤ s.pending := by
  unfold pending set
  by_cases hi : i < s.lookups.length
  · rw [List.countP_set hi, hl]
    simp
  · have hsame : s.lookups.set i l = s.lookups := List.set_eq_of_length_le (Nat.le_of_not_lt hi)
    exact Nat.le_of_eq (congrArg (List.countP Lookup.isPending) hsame)

/-- **Starting a resolver leaves one less.** -/
theorem pending_set_lt (h : s.get? i = some ⟨.pending q, n⟩) (m : Nat) : (s.set i ⟨.taken, m⟩).pending < s.pending := by
  obtain ⟨hi, hl⟩ := List.getElem?_eq_some_iff.1 h
  have hpos : 0 < s.lookups.countP Lookup.isPending :=
    List.countP_pos_iff.2 ⟨_, List.getElem_mem hi, by rw [hl]; rfl⟩
  have hset : (s.set i ⟨.taken, m⟩).pending = s.lookups.countP Lookup.isPending - 1 := by
    unfold pending set
    rw [List.countP_set hi, hl]
    rfl
  rw [hset]
  exact Nat.sub_lt hpos Nat.one_pos

theorem pending_resolve {read : LookupStore → Nat → Reading × LookupStore}
    (h : ∀ s i, (read s i).2.pending ≤ s.pending) :
    ∀ (q : Resolver) (s : LookupStore), (resolve read s q).2.pending ≤ s.pending
  | .known _, _ => Nat.le_refl _
  | .ask target next, s => by
    have ht := h s target
    unfold resolve
    split
    · rename_i e
      rwa [e] at ht
    · rename_i found _ e
      rw [e] at ht
      exact Nat.le_trans (pending_resolve h (next found) _) ht

theorem pending_readWithin : ∀ (fuel : Nat) (s : LookupStore) (i : Nat), (s.readWithin fuel i).2.pending ≤ s.pending
  | 0, _, _ => Nat.le_refl _
  | fuel + 1, s, i => by
    unfold readWithin
    split
    · exact Nat.le_refl _
    · exact Nat.le_refl _
    · exact Nat.le_refl _
    · rename_i resolver runs h
      have hrun := pending_resolve (pending_readWithin fuel) resolver (s.set i ⟨.taken, runs + 1⟩)
      have htake := pending_set_lt h (runs + 1)
      split
      · rename_i e
        rw [e] at hrun
        exact Nat.le_of_lt (Nat.lt_of_le_of_lt hrun htake)
      · rename_i e
        rw [e] at hrun
        exact Nat.le_trans (pending_set_le rfl _ _) (Nat.le_of_lt (Nat.lt_of_le_of_lt hrun htake))

/-- A read starts resolvers and never brings one back. -/
theorem pending_read (s : LookupStore) (i : Nat) : (s.read i).2.pending ≤ s.pending := pending_readWithin _ s i

/-! ## Levels enough -/

/-- A resolver runs alike under two ways to read that agree on every store it can come to. -/
theorem resolve_congr {read read' : LookupStore → Nat → Reading × LookupStore} {P : LookupStore → Prop}
    (hP : ∀ s i, P s → P (read s i).2) (h : ∀ s i, P s → read s i = read' s i) :
    ∀ (q : Resolver) (s : LookupStore), P s → resolve read s q = resolve read' s q
  | .known _, _, _ => rfl
  | .ask target next, s, hs => by
    have ht := hP s target hs
    unfold resolve
    rw [← h s target hs]
    split
    · rfl
    · rename_i found _ e
      rw [e] at ht
      exact resolve_congr hP h (next found) _ ht

/-- **One level more than the resolvers left makes no difference.** -/
theorem readWithin_succ : ∀ {fuel : Nat} {s : LookupStore}, s.pending < fuel → ∀ i : Nat,
    s.readWithin fuel i = s.readWithin (fuel + 1) i
  | 0, _, h, _ => absurd h (Nat.not_lt_zero _)
  | fuel + 1, s, h, i => by
    rw [readWithin, readWithin]
    split
    · rfl
    · rfl
    · rfl
    · rename_i resolver runs hi
      have htake : (s.set i ⟨.taken, runs + 1⟩).pending < fuel :=
        Nat.lt_of_lt_of_le (pending_set_lt hi _) (Nat.le_of_lt_succ h)
      rw [resolve_congr (P := fun s => s.pending < fuel)
        (fun s j hs => Nat.lt_of_le_of_lt (pending_readWithin fuel s j) hs) (fun s j hs => readWithin_succ hs j)
        resolver _ htake]

theorem readWithin_add (h : s.pending < fuel) (i : Nat) : ∀ more : Nat,
    s.readWithin fuel i = s.readWithin (fuel + more) i
  | 0 => rfl
  | more + 1 => by
    rw [readWithin_add h i more]
    exact readWithin_succ (Nat.lt_of_lt_of_le h (Nat.le_add_right _ _)) i

/-- **With more levels than resolvers are left a read is the read.** -/
theorem readWithin_eq_read (h : s.pending < fuel) (i : Nat) : s.readWithin fuel i = s.read i := by
  have hread : s.pending < s.size + 1 := Nat.lt_succ_of_le s.pending_le_size
  obtain hle | hle := Nat.le_total fuel (s.size + 1)
  · obtain ⟨more, hmore⟩ := Nat.exists_eq_add_of_le hle
    rw [read, hmore]
    exact readWithin_add h i more
  · obtain ⟨more, rfl⟩ := Nat.exists_eq_add_of_le hle
    exact (readWithin_add hread i more).symm

/-! ## The cases of a read -/

theorem read_absent (h : s.get? i = none) : s.read i = (.answer none, s) := by simp [read, readWithin, h]

theorem read_taken (h : s.get? i = some ⟨.taken, n⟩) : s.read i = (.refused, s) := by simp [read, readWithin, h]

/-- **A lookup that has its resolver starts it**, and keeps the answer if there comes one. -/
theorem read_pending (h : s.get? i = some ⟨.pending q, n⟩) :
    s.read i = match resolve read (s.set i ⟨.taken, n + 1⟩) q with
      | (.refused, s) => (.refused, s)
      | (.answer a, s) => (.answer a, s.set i ⟨.resolved a, n + 1⟩) := by
  have htake : (s.set i ⟨.taken, n + 1⟩).pending < s.size :=
    Nat.lt_of_lt_of_le (pending_set_lt h _) s.pending_le_size
  have hrun : resolve (readWithin s.size) (s.set i ⟨.taken, n + 1⟩) q = resolve read (s.set i ⟨.taken, n + 1⟩) q :=
    resolve_congr (P := fun s' => s'.pending < s.size)
      (fun s' j hs => Nat.lt_of_le_of_lt (pending_readWithin _ s' j) hs) (fun _ j hs => readWithin_eq_read hs j) q _ htake
  cases hq : resolve read (s.set i ⟨.taken, n + 1⟩) q with
  | mk reading s' =>
    rw [hq] at hrun
    cases reading <;> simp [read, readWithin, h, hrun]

end LookupStore
end DomainModel
