import DomainModel.Proofs.Lookup.Read
/-!
# Refused — which reads are refused, and what they leave

An answered read leaves each lookup as it was, or resolved (`settles_of_answer`).  A read is refused exactly when its way
comes down to a lookup that has neither resolver nor answer (`refused_iff_stops`): each lookup on the way starts its
resolver, which is answered so often and then asks for the next one (`Stops`).  After a refused read the lookups of the
way have neither resolver nor answer, and all others are as they were, or resolved (`Stops.read_eq`).
-/
namespace DomainModel
namespace LookupStore

variable {s s' s'' : LookupStore} {i j k n : Nat} {q : Resolver} {a : Option TypeRef} {path : List Nat}

/-! ## What becomes of a lookup -/

/-- **As it was, or resolved**: what an answered read makes of a lookup. -/
def Settles (x y : Option Lookup) : Prop :=
  y = x ∨ ∃ q n a, x = some ⟨.pending q, n⟩ ∧ y = some ⟨.resolved a, n + 1⟩

/-- **Without resolver and without answer**: before already, or its resolver was started and came to nothing. -/
def Strands (x y : Option Lookup) : Prop :=
  (∃ n, x = some ⟨.taken, n⟩ ∧ y = x) ∨ ∃ q n, x = some ⟨.pending q, n⟩ ∧ y = some ⟨.taken, n + 1⟩

theorem Settles.refl (x : Option Lookup) : Settles x x := .inl rfl

theorem Settles.trans {x y z : Option Lookup} (h : Settles x y) (h' : Settles y z) : Settles x z := by
  rcases h with rfl | ⟨q, n, a, rfl, rfl⟩
  · exact h'
  · rcases h' with rfl | ⟨_, _, _, hy, -⟩
    · exact .inr ⟨q, n, a, rfl, rfl⟩
    · cases hy

theorem Settles.of_taken {y : Option Lookup} (h : Settles (some ⟨.taken, n⟩) y) : y = some ⟨.taken, n⟩ := by
  rcases h with rfl | ⟨_, _, _, hx, -⟩
  · rfl
  · cases hx

theorem Settles.taken {x : Option Lookup} (h : Settles x (some ⟨.taken, n⟩)) : x = some ⟨.taken, n⟩ := by
  rcases h with hx | ⟨_, _, _, -, hy⟩
  · exact hx.symm
  · cases hy

theorem Strands.taken {x y : Option Lookup} (h : Strands x y) : ∃ n, y = some ⟨.taken, n⟩ := by
  rcases h with ⟨n, hx, rfl⟩ | ⟨_, n, -, hy⟩
  · exact ⟨n, hx⟩
  · exact ⟨n + 1, hy⟩

theorem settles_resolve {read : LookupStore → Nat → Reading × LookupStore}
    (h : ∀ {s i a s'}, read s i = (.answer a, s') → ∀ k, Settles (s.get? k) (s'.get? k)) :
    ∀ (q : Resolver) {s s' : LookupStore} {a : Option TypeRef}, resolve read s q = (.answer a, s') →
      ∀ k, Settles (s.get? k) (s'.get? k)
  | .known _, _, _, _, hq, _ => by
    cases hq
    exact .refl _
  | .ask target next, s, s', a, hq, k => by
    unfold resolve at hq
    split at hq
    · cases hq
    · rename_i found _ e
      exact (h e k).trans (settles_resolve h (next found) hq k)

theorem settles_readWithin : ∀ (fuel : Nat) {s : LookupStore} {i : Nat} {a : Option TypeRef} {s' : LookupStore},
    readWithin fuel s i = (.answer a, s') → ∀ k, Settles (s.get? k) (s'.get? k)
  | 0, _, _, _, _, h, _ => by cases h
  | fuel + 1, s, i, a, s', h, k => by
    unfold readWithin at h
    split at h
    · cases h
      exact .refl _
    · cases h
      exact .refl _
    · cases h
    · rename_i q n hi
      split at h
      · cases h
      · rename_i found _ hq
        cases h
        have hk := settles_resolve (settles_readWithin fuel) q hq k
        by_cases hki : k = i
        · -- What runs below leaves the lookup that waits alone.
          subst hki
          rw [get?_set_self hi] at hk
          exact .inr ⟨q, n, a, hi, get?_set_self hk.of_taken _⟩
        · rwa [get?_set_ne hki] at hk ⊢

/-- **An answered read resolves lookups and does nothing else.** -/
theorem settles_of_answer (h : s.read i = (.answer a, s')) (k : Nat) : Settles (s.get? k) (s'.get? k) :=
  settles_readWithin _ h k

/-! ## What a resolver asks for -/

/-- **A resolver asks for a lookup** in the course of its run, after what it asked for before was answered. -/
inductive Asks : LookupStore → Resolver → LookupStore → Nat → Prop
  | here {s : LookupStore} {j : Nat} {next : Option TypeRef → Resolver} : Asks s (.ask j next) s j
  | after {s s₁ s' : LookupStore} {j k : Nat} {next : Option TypeRef → Resolver} {a : Option TypeRef} :
      s.read j = (.answer a, s₁) → Asks s₁ (next a) s' k → Asks s (.ask j next) s' k

theorem Asks.settles (h : Asks s q s' j) (k : Nat) : Settles (s.get? k) (s'.get? k) := by
  induction h with
  | here => exact .refl _
  | after hread _ ih => exact (settles_of_answer hread k).trans ih

theorem Asks.pending_le (h : Asks s q s' j) : s'.pending ≤ s.pending := by
  induction h with
  | here => exact Nat.le_refl _
  | @after s _ _ j _ _ _ hread _ ih =>
    have hle := pending_read s j
    rw [hread] at hle
    exact Nat.le_trans ih hle

/-- A resolver is refused when what it asks for is. -/
theorem Asks.resolve_eq (h : Asks s q s' j) (hj : s'.read j = (.refused, s'')) : resolve read s q = (.refused, s'') := by
  induction h with
  | here => rw [resolve, hj]
  | after hread _ ih =>
    rw [resolve, hread]
    exact ih hj

/-- **A resolver is refused only when something is that it asks for.** -/
theorem exists_asks_of_refused : ∀ {q : Resolver} {s s'' : LookupStore}, resolve read s q = (.refused, s'') →
    ∃ s' j, Asks s q s' j ∧ s'.read j = (.refused, s'')
  | .known _, _, _, h => by cases h
  | .ask target next, s, s'', h => by
    unfold resolve at h
    split at h
    · rename_i e
      cases h
      exact ⟨s, target, .here, e⟩
    · rename_i found s₁ e
      obtain ⟨s', j, hasks, hj⟩ := exists_asks_of_refused h
      exact ⟨s', j, .after e hasks, hj⟩

/-! ## The way of a refused read -/

/-- **The way of a refused read**: lookups whose resolvers wait for each other, down to one that has neither resolver
nor answer. -/
inductive Stops : LookupStore → Nat → List Nat → Prop
  | taken {s : LookupStore} {i n : Nat} : s.get? i = some ⟨.taken, n⟩ → Stops s i [i]
  | waits {s s' : LookupStore} {i j n : Nat} {q : Resolver} {path : List Nat} : s.get? i = some ⟨.pending q, n⟩ →
      Asks (s.set i ⟨.taken, n + 1⟩) q s' j → Stops s' j path → Stops s i (i :: path)

/-- What stands at a number when a resolver that was started there asks for something. -/
theorem Asks.get?_taken {l : Lookup} (hi : s.get? i = some l) (h : Asks (s.set i ⟨.taken, n⟩) q s' j) :
    s'.get? i = some ⟨.taken, n⟩ := by
  have hsettles := h.settles i
  rw [get?_set_self hi] at hsettles
  exact hsettles.of_taken

theorem Asks.settles_of_ne {l : Lookup} (h : Asks (s.set i l) q s' j) (hk : k ≠ i) : Settles (s.get? k) (s'.get? k) := by
  have hsettles := h.settles k
  rwa [get?_set_ne hk] at hsettles

/-- **A read with such a way is refused.  It leaves the lookups of the way without resolver and answer, and settles the
others.** -/
theorem Stops.read_eq (h : Stops s i path) : ∃ s', s.read i = (.refused, s') ∧
    (∀ k ∈ path, Strands (s.get? k) (s'.get? k)) ∧ ∀ k, k ∉ path → Settles (s.get? k) (s'.get? k) := by
  induction h with
  | @taken s i n hi =>
    refine ⟨s, read_taken hi, fun k hk => ?_, fun k _ => .refl _⟩
    rw [List.mem_singleton.1 hk]
    exact .inl ⟨n, hi, rfl⟩
  | @waits s s₁ i j n q path hi hasks _ ih =>
    obtain ⟨s', hread, hon, hoff⟩ := ih
    refine ⟨s', by rw [read_pending hi, hasks.resolve_eq hread], fun k hk => ?_, fun k hk => ?_⟩
    · by_cases hki : k = i
      · -- The lookup itself waits below, and whether or not it is met there again it stays so.
        subst hki
        have hwaits := hasks.get?_taken hi
        refine .inr ⟨q, n, hi, ?_⟩
        by_cases hpath : k ∈ path
        · rcases hon k hpath with ⟨_, -, hsame⟩ | ⟨_, _, hpending, -⟩
          · rw [hsame, hwaits]
          · rw [hwaits] at hpending
            cases hpending
        · have hbelow := hoff k hpath
          rw [hwaits] at hbelow
          exact hbelow.of_taken
      · have hbelow := hon k ((List.mem_cons.1 hk).resolve_left hki)
        rcases hasks.settles_of_ne hki with hsame | ⟨_, _, _, -, hresolved⟩
        · rwa [hsame] at hbelow
        · rcases hbelow with ⟨_, htaken, -⟩ | ⟨_, _, hpending, -⟩
          · rw [hresolved] at htaken
            cases htaken
          · rw [hresolved] at hpending
            cases hpending
    · rw [List.mem_cons, not_or] at hk
      exact (hasks.settles_of_ne hk.1).trans (hoff k hk.2)

/-- **A refused read has such a way.**  Going down it there are ever fewer resolvers left. -/
theorem exists_stops_of_refused (h : s.read i = (.refused, s')) : ∃ path, Stops s i path := by
  induction hp : s.pending using Nat.strongRecOn generalizing s i s' with
  | ind p ih =>
    subst hp
    cases hi : s.get? i with
    | none =>
      rw [read_absent hi] at h
      cases h
    | some l =>
      obtain ⟨state, n⟩ := l
      cases state with
      | resolved a =>
        rw [read_resolved hi] at h
        cases h
      | taken => exact ⟨[i], .taken hi⟩
      | pending q =>
        rw [read_pending hi] at h
        split at h
        · rename_i hq
          cases h
          obtain ⟨s₁, j, hasks, hj⟩ := exists_asks_of_refused hq
          have hfewer : s₁.pending < s.pending := Nat.lt_of_le_of_lt hasks.pending_le (pending_set_lt hi _)
          obtain ⟨path, hpath⟩ := ih _ hfewer hj rfl
          exact ⟨i :: path, .waits hi hasks hpath⟩
        · cases h

/-- **A read is refused exactly when its way comes down to a lookup without resolver and answer.** -/
theorem refused_iff_stops : (s.read i).1 = .refused ↔ ∃ path, Stops s i path := by
  constructor
  · intro h
    have hread : s.read i = (.refused, (s.read i).2) := Prod.ext h rfl
    exact exists_stops_of_refused hread
  · rintro ⟨path, h⟩
    obtain ⟨s', hread, -⟩ := h.read_eq
    rw [hread]

/-- **The last of the way is being resolved, or was without resolver and answer before**: it is met above already, or
stood so in the store that was read. -/
theorem Stops.exists_last (h : Stops s i path) :
    ∃ front last, path = front ++ [last] ∧ (last ∈ front ∨ ∃ n, s.get? last = some ⟨.taken, n⟩) := by
  induction h with
  | @taken s i n hi => exact ⟨[], i, rfl, .inr ⟨n, hi⟩⟩
  | @waits s s' i j n q path hi hasks _ ih =>
    obtain ⟨front, last, rfl, hlast⟩ := ih
    refine ⟨i :: front, last, rfl, ?_⟩
    rcases hlast with hlast | ⟨m, hlast⟩
    · exact .inl (List.mem_cons_of_mem _ hlast)
    · by_cases hli : last = i
      · exact .inl (hli ▸ List.mem_cons_self)
      · have hsettles := hasks.settles_of_ne hli
        rw [hlast] at hsettles
        exact .inr ⟨m, hsettles.taken⟩

end LookupStore
end DomainModel
