import DomainModel.Proofs.Lookup.Refused
import Mathlib.Logic.Relation
/-!
# Sequence — lookups read one after another

Whatever reads do to a lookup is that they leave it, resolve it, or leave it without resolver and answer (`Moves`), and
what has lost its resolver never changes again.  So over any sequence of reads a resolver is started at most once, an
answer stays, and what is refused stays refused (`reads_of_unread`).

An answer is the one that the resolver gives when each lookup it asks for is read for itself (`Gives`), whatever was read
before (`Within`).  Where no lookup comes to read itself (`Acyclic`), no read is ever refused: the way of a refused read
would come down to a lookup that was without resolver and answer before (`Stops.exists_taken`), and there is no first one.
-/
namespace DomainModel
namespace LookupStore

variable {c s s' : LookupStore} {i j k n : Nat} {q : Resolver} {a : Option TypeRef} {path : List Nat}

/-! ## What becomes of a lookup over many reads -/

/-- **What reads make of a lookup**: it is settled or stranded. -/
def Moves (x y : Option Lookup) : Prop := Settles x y ∨ Strands x y

theorem Moves.refl (x : Option Lookup) : Moves x x := .inl (.refl x)

/-- **A lookup without its resolver never changes again.** -/
theorem Moves.eq_of_not_pending {l : Lookup} {y : Option Lookup} (hl : l.isPending = false) (h : Moves (some l) y) :
    y = some l := by
  rcases h with (rfl | ⟨_, _, _, hx, -⟩) | ⟨_, -, rfl⟩ | ⟨_, _, hx, -⟩
  · rfl
  · cases hx
    cases hl
  · rfl
  · cases hx
    cases hl

theorem Moves.trans {x y z : Option Lookup} (h : Moves x y) (h' : Moves y z) : Moves x z := by
  rcases h with (rfl | ⟨q, n, a, rfl, rfl⟩) | hstrands
  · exact h'
  · rw [h'.eq_of_not_pending rfl]
    exact .inl (.inr ⟨q, n, a, rfl, rfl⟩)
  · obtain ⟨n, rfl⟩ := hstrands.taken
    rw [h'.eq_of_not_pending rfl]
    exact .inr hstrands

theorem Moves.pending {x : Option Lookup} (h : Moves x (some ⟨.pending q, n⟩)) : x = some ⟨.pending q, n⟩ := by
  rcases h with (hx | ⟨_, _, _, -, hy⟩) | ⟨_, -, hx⟩ | ⟨_, _, -, hy⟩
  · exact hx.symm
  · cases hy
  · exact hx.symm
  · cases hy

theorem Moves.absent {x : Option Lookup} (h : Moves x none) : x = none := by
  rcases h with (hx | ⟨_, _, _, -, hy⟩) | ⟨_, -, hx⟩ | ⟨_, _, -, hy⟩
  · exact hx.symm
  · cases hy
  · exact hx.symm
  · cases hy

/-- **A resolver is started at most once.** -/
theorem Moves.runs_le {l l' : Lookup} (h : Moves (some l) (some l')) : l'.runs ≤ l.runs + 1 := by
  rcases h with (hsame | ⟨_, _, _, hx, hy⟩) | ⟨_, -, hsame⟩ | ⟨_, _, hx, hy⟩
  · cases hsame
    exact Nat.le_succ _
  · cases hx
    cases hy
    exact Nat.le_refl _
  · cases hsame
    exact Nat.le_succ _
  · cases hx
    cases hy
    exact Nat.le_refl _

theorem moves_read (s : LookupStore) (i k : Nat) : Moves (s.get? k) ((s.read i).2.get? k) := by
  cases h : s.read i with
  | mk reading s' =>
    cases reading with
    | answer a => exact .inl (settles_of_answer h k)
    | refused =>
      obtain ⟨path, hpath⟩ := exists_stops_of_refused h
      obtain ⟨s₁, hread, hon, hoff⟩ := hpath.read_eq
      obtain rfl : s' = s₁ := congrArg Prod.snd (h.symm.trans hread)
      by_cases hk : k ∈ path
      · exact .inr (hon k hk)
      · exact .inl (hoff k hk)

theorem moves_readAll (k : Nat) : ∀ (is : List Nat) (s : LookupStore), Moves (s.get? k) ((s.readAll is).get? k)
  | [], _ => .refl _
  | i :: is, s => (moves_read s i k).trans (moves_readAll k is (s.read i).2)

theorem readAll_append (s : LookupStore) (is js : List Nat) : s.readAll (is ++ js) = (s.readAll is).readAll js :=
  List.foldl_append

/-- What has lost its resolver stays as it is over whatever is read. -/
theorem get?_readAll {l : Lookup} (h : s.get? k = some l) (hl : l.isPending = false) (is : List Nat) :
    (s.readAll is).get? k = some l := by
  have hmoves := moves_readAll k is s
  rw [h] at hmoves
  exact hmoves.eq_of_not_pending hl

/-! ## Answers that do not depend on what was read -/

/-- **What a resolver answers in a collection** when each lookup it asks for is read for itself. -/
inductive Gives (c : LookupStore) : Resolver → Option TypeRef → Prop
  | known (a : Option TypeRef) : Gives c (.known a) a
  | absent {j : Nat} {next : Option TypeRef → Resolver} {a : Option TypeRef} : c.get? j = none → Gives c (next none) a →
      Gives c (.ask j next) a
  | resolved {j n : Nat} {next : Option TypeRef → Resolver} {a b : Option TypeRef} :
      c.get? j = some ⟨.resolved b, n⟩ → Gives c (next b) a → Gives c (.ask j next) a
  | pending {j n : Nat} {next : Option TypeRef → Resolver} {q : Resolver} {a b : Option TypeRef} :
      c.get? j = some ⟨.pending q, n⟩ → Gives c q b → Gives c (next b) a → Gives c (.ask j next) a

/-- The answer of a lookup: that of a resolver which asks for it and for nothing else. -/
def Answers (c : LookupStore) (i : Nat) (a : Option TypeRef) : Prop := Gives c (.ask i .known) a

/-- **There is one answer at most.** -/
theorem Gives.unique (h : Gives c q a) : ∀ {b : Option TypeRef}, Gives c q b → a = b := by
  induction h with
  | known =>
    intro b h'
    cases h'
    rfl
  | absent hj _ ih =>
    intro b h'
    cases h' with
    | absent _ h' => exact ih h'
    | resolved hj' | pending hj' =>
      rw [hj] at hj'
      cases hj'
  | resolved hj _ ih =>
    intro b h'
    cases h' with
    | resolved hj' h' =>
      rw [hj] at hj'
      cases hj'
      exact ih h'
    | absent hj' | pending hj' =>
      rw [hj] at hj'
      cases hj'
  | pending hj _ _ ihq ih =>
    intro b h'
    cases h' with
    | pending hj' hq h' =>
      rw [hj] at hj'
      cases hj'
      obtain rfl := ihq hq
      exact ih h'
    | absent hj' | resolved hj' =>
      rw [hj] at hj'
      cases hj'

theorem Answers.gives {b : Option TypeRef} (h : Answers c j b) {next : Option TypeRef → Resolver}
    (hn : Gives c (next b) a) : Gives c (.ask j next) a := by
  cases h with
  | absent hj hb =>
    cases hb
    exact .absent hj hn
  | resolved hj hb =>
    cases hb
    exact .resolved hj hn
  | pending hj hq hb =>
    cases hb
    exact .pending hj hq hn

/-- **A store that reads make of a collection**, also while resolvers run: lookups have moved, and what is resolved is
resolved to its answer. -/
structure Within (c s : LookupStore) : Prop where
  moves : ∀ k, Moves (c.get? k) (s.get? k)
  answers : ∀ k n a, s.get? k = some ⟨.resolved a, n⟩ → c.Answers k a

theorem Within.refl (c : LookupStore) : Within c c :=
  ⟨fun _ => .refl _, fun _ _ a hk => .resolved hk (.known a)⟩

theorem Within.pending (h : Within c s) (hi : s.get? i = some ⟨.pending q, n⟩) : c.get? i = some ⟨.pending q, n⟩ := by
  have hmoves := h.moves i
  rw [hi] at hmoves
  exact hmoves.pending

/-- A resolver is started. -/
theorem Within.take (h : Within c s) (hi : s.get? i = some ⟨.pending q, n⟩) : Within c (s.set i ⟨.taken, n + 1⟩) := by
  refine ⟨fun k => ?_, fun k m a hk => ?_⟩
  · by_cases hki : k = i
    · subst hki
      rw [get?_set_self hi]
      exact (h.moves k).trans (.inr (.inr ⟨q, n, hi, rfl⟩))
    · rw [get?_set_ne hki]
      exact h.moves k
  · by_cases hki : k = i
    · subst hki
      rw [get?_set_self hi] at hk
      cases hk
    · rw [get?_set_ne hki] at hk
      exact h.answers k m a hk

/-- A resolver has come to its answer. -/
theorem Within.settle (h : Within c s) (hi : c.get? i = some ⟨.pending q, n⟩) (ha : Gives c q a) :
    Within c (s.set i ⟨.resolved a, n + 1⟩) := by
  obtain ⟨l, hl⟩ : ∃ l, s.get? i = some l := by
    cases hs : s.get? i with
    | some l => exact ⟨l, rfl⟩
    | none =>
      have hmoves := h.moves i
      rw [hs] at hmoves
      rw [hmoves.absent] at hi
      cases hi
  refine ⟨fun k => ?_, fun k m b hk => ?_⟩
  · by_cases hki : k = i
    · subst hki
      rw [get?_set_self hl]
      exact .inl (.inr ⟨q, n, a, hi, rfl⟩)
    · rw [get?_set_ne hki]
      exact h.moves k
  · by_cases hki : k = i
    · subst hki
      rw [get?_set_self hl] at hk
      cases hk
      exact .pending hi ha (.known a)
    · rw [get?_set_ne hki] at hk
      exact h.answers k m b hk

theorem Within.resolve {read : LookupStore → Nat → Reading × LookupStore}
    (hread : ∀ {s i}, Within c s → Within c (read s i).2 ∧ ∀ a, (read s i).1 = .answer a → c.Answers i a) :
    ∀ (q : Resolver) {s : LookupStore}, Within c s → Within c (LookupStore.resolve read s q).2 ∧
      ∀ a, (LookupStore.resolve read s q).1 = .answer a → Gives c q a
  | .known a, s, h => ⟨h, fun b hb => by cases hb; exact .known a⟩
  | .ask target next, s, h => by
    obtain ⟨hs, ha⟩ := hread (i := target) h
    unfold LookupStore.resolve
    split
    · rename_i e
      rw [e] at hs
      exact ⟨hs, nofun⟩
    · rename_i found s₁ e
      rw [e] at hs ha
      obtain ⟨hs', ha'⟩ := Within.resolve hread (next found) hs
      exact ⟨hs', fun b hb => (ha found rfl).gives (ha' b hb)⟩

theorem Within.readWithin : ∀ (fuel : Nat) {s : LookupStore} {i : Nat}, Within c s →
    Within c (s.readWithin fuel i).2 ∧ ∀ a, (s.readWithin fuel i).1 = .answer a → c.Answers i a
  | 0, _, _, h => ⟨h, nofun⟩
  | fuel + 1, s, i, h => by
    unfold LookupStore.readWithin
    split
    · rename_i hi
      have hmoves := h.moves i
      rw [hi] at hmoves
      exact ⟨h, fun a ha => by cases ha; exact .absent hmoves.absent (.known none)⟩
    · rename_i hi
      exact ⟨h, fun a ha => by cases ha; exact h.answers i _ _ hi⟩
    · exact ⟨h, nofun⟩
    · rename_i q n hi
      obtain ⟨hs, ha⟩ := Within.resolve (Within.readWithin fuel) q (h.take hi)
      have hci := h.pending hi
      split
      · rename_i e
        rw [e] at hs
        exact ⟨hs, nofun⟩
      · rename_i found s₁ e
        rw [e] at hs ha
        have hgives := ha found rfl
        exact ⟨hs.settle hci hgives, fun b hb => by cases hb; exact .pending hci hgives (.known found)⟩

/-- **A read that is answered gives the answer of the collection**, and leaves such a store. -/
theorem Within.read (h : Within c s) (i : Nat) :
    Within c (s.read i).2 ∧ ∀ a, (s.read i).1 = .answer a → c.Answers i a := Within.readWithin _ h

theorem Within.readAll : ∀ {s : LookupStore}, Within c s → ∀ is : List Nat, Within c (s.readAll is)
  | _, h, [] => h
  | _, h, i :: is => Within.readAll (h.read i).1 is

/-! ## Collections in which no lookup comes to read itself -/

/-- **A resolver asks for a lookup**, those that it asked for before having given their answers. -/
inductive Needs (c : LookupStore) : Resolver → Nat → Prop
  | first {j : Nat} {next : Option TypeRef → Resolver} : Needs c (.ask j next) j
  | later {j k : Nat} {next : Option TypeRef → Resolver} {b : Option TypeRef} : c.Answers j b → Needs c (next b) k →
      Needs c (.ask j next) k

/-- The resolver of a lookup asks for another. -/
def ReadsFrom (c : LookupStore) (i j : Nat) : Prop := ∃ q n, c.get? i = some ⟨.pending q, n⟩ ∧ Needs c q j

def Acyclic (c : LookupStore) : Prop := ∀ i, ¬ Relation.TransGen c.ReadsFrom i i

theorem Asks.needs (h : Asks s q s' j) (hs : Within c s) : Within c s' ∧ Needs c q j := by
  induction h with
  | here => exact ⟨hs, .first⟩
  | @after s s₁ s' j k next a hread _ ih =>
    obtain ⟨hs₁, ha⟩ := hs.read j
    rw [hread] at hs₁ ha
    obtain ⟨hs', hk⟩ := ih hs₁
    exact ⟨hs', .later (ha a rfl) hk⟩

/-- **Where no lookup comes to read itself, a refused read comes down to a lookup that was without resolver and answer
before**: none of those that wait above. -/
theorem Stops.exists_taken (h : Stops s i path) (hs : Within c s) (hc : c.Acyclic) :
    ∃ k n, Relation.ReflTransGen c.ReadsFrom i k ∧ s.get? k = some ⟨.taken, n⟩ := by
  induction h with
  | @taken s i n hi => exact ⟨i, n, .refl, hi⟩
  | @waits s s' i j n q path hi hasks _ ih =>
    obtain ⟨hs', hneeds⟩ := hasks.needs (hs.take hi)
    obtain ⟨k, m, hjk, hk⟩ := ih hs'
    have hik : Relation.TransGen c.ReadsFrom i k := .head' ⟨q, n, hs.pending hi, hneeds⟩ hjk
    by_cases hki : k = i
    · subst hki
      exact absurd hik (hc k)
    · have hsettles := hasks.settles_of_ne hki
      rw [hk] at hsettles
      exact ⟨k, m, hik.to_reflTransGen, hsettles.taken⟩

/-- **None is without resolver and answer.** -/
def Ready (s : LookupStore) : Prop := ∀ k n, s.get? k ≠ some ⟨.taken, n⟩

theorem Ready.exists_answer (h : Ready s) (hs : Within c s) (hc : c.Acyclic) (i : Nat) :
    ∃ a, (s.read i).1 = .answer a := by
  cases hread : (s.read i).1 with
  | answer a => exact ⟨a, rfl⟩
  | refused =>
    obtain ⟨path, hpath⟩ := refused_iff_stops.1 hread
    obtain ⟨k, n, -, hk⟩ := hpath.exists_taken hs hc
    exact absurd hk (h k n)

theorem Ready.read (h : Ready s) (hs : Within c s) (hc : c.Acyclic) (i : Nat) : Ready (s.read i).2 := by
  obtain ⟨a, ha⟩ := h.exists_answer hs hc i
  intro k n hk
  have hsettles : Settles (s.get? k) ((s.read i).2.get? k) := settles_of_answer (Prod.ext ha rfl) k
  rw [hk] at hsettles
  exact h k n hsettles.taken

theorem Ready.readAll (hc : c.Acyclic) : ∀ {s : LookupStore}, Ready s → Within c s → ∀ is : List Nat,
    Ready (s.readAll is)
  | _, h, _, [] => h
  | _, h, hs, i :: is => Ready.readAll hc (h.read hs hc i) (hs.read i).1 is

/-! ## Sequences of reads -/

/-- **No one has read the lookups**: each has its resolver, which was never started, or was given its answer. -/
def Unread (c : LookupStore) : Prop := ∀ i l, c.get? i = some l → l.runs = 0 ∧ l.state ≠ .taken

theorem Unread.ready (h : c.Unread) : c.Ready := fun k _ hk => (h k _ hk).2 rfl

theorem Unread.runs_le (h : c.Unread) (is : List Nat) {l : Lookup} (hl : (c.readAll is).get? i = some l) :
    l.runs ≤ 1 := by
  have hmoves := moves_readAll i is c
  rw [hl] at hmoves
  cases hi : c.get? i with
  | none =>
    rw [hi] at hmoves
    rcases hmoves with (hy | ⟨_, _, _, hx, -⟩) | ⟨_, hx, -⟩ | ⟨_, _, hx, -⟩
    · cases hy
    · cases hx
    · cases hx
    · cases hx
  | some l₀ =>
    rw [hi] at hmoves
    have hruns := hmoves.runs_le
    rwa [(h i l₀ hi).1] at hruns

/-- After a refused read the lookups of its way have neither resolver nor answer, and are refused ever after. -/
theorem Stops.refused_after (h : Stops s i path) (hk : k ∈ path) :
    (∃ n, (s.read i).2.get? k = some ⟨.taken, n⟩) ∧ ∀ js : List Nat, (((s.read i).2.readAll js).read k).1 = .refused := by
  obtain ⟨s', hread, hon, -⟩ := h.read_eq
  obtain ⟨n, hn⟩ := (hon k hk).taken
  rw [hread]
  refine ⟨⟨n, hn⟩, fun js => ?_⟩
  rw [read_taken (get?_readAll hn rfl js)]

/-- **Lookups that no one has read, over any sequence of reads.** -/
theorem reads_of_unread (hc : c.Unread) :
    (∀ is : List Nat,
      -- A resolver is started at most once.
      (∀ i l, (c.readAll is).get? i = some l → l.runs ≤ 1) ∧
      -- What is resolved stays so and answers so.
      (∀ i n a, (c.readAll is).get? i = some ⟨.resolved a, n⟩ → ∀ js : List Nat,
        (c.readAll (is ++ js)).get? i = some ⟨.resolved a, n⟩ ∧ ((c.readAll (is ++ js)).read i).1 = .answer a) ∧
      -- A read is refused exactly when it comes down to a lookup without resolver and answer,
      (∀ i, ((c.readAll is).read i).1 = .refused ↔ ∃ path, Stops (c.readAll is) i path) ∧
      ∀ i path, Stops (c.readAll is) i path →
        -- which is being resolved, or was left so before;
        (∃ front last, path = front ++ [last] ∧ (last ∈ front ∨ ∃ n, (c.readAll is).get? last = some ⟨.taken, n⟩)) ∧
        -- it leaves all on its way without resolver and answer, and they are refused ever after;
        (∀ k ∈ path, (∃ n, (c.readAll (is ++ [i])).get? k = some ⟨.taken, n⟩) ∧
          ∀ js : List Nat, ((c.readAll (is ++ i :: js)).read k).1 = .refused) ∧
        -- it leaves the others as they were, or resolved.
        ∀ k, k ∉ path → Settles ((c.readAll is).get? k) ((c.readAll (is ++ [i])).get? k)) ∧
    -- Where no lookup comes to read itself, no read is refused, and each answers the same whatever was read before.
    (c.Acyclic → ∀ i, ∃ a, ∀ is : List Nat, ((c.readAll is).read i).1 = .answer a) := by
  refine ⟨fun is => ⟨fun i l hl => hc.runs_le is hl, fun i n a hi js => ?_, fun i => refused_iff_stops,
    fun i path hpath => ⟨hpath.exists_last, fun k hk => ?_, fun k hk => ?_⟩⟩, fun hacyclic i => ?_⟩
  · rw [readAll_append]
    have hkept := get?_readAll hi rfl js
    refine ⟨hkept, ?_⟩
    rw [read_resolved hkept]
  · obtain ⟨htaken, hafter⟩ := hpath.refused_after hk
    simp only [readAll_append]
    exact ⟨htaken, hafter⟩
  · obtain ⟨s', hread, -, hoff⟩ := hpath.read_eq
    have hs' : c.readAll (is ++ [i]) = s' := by
      rw [readAll_append]
      exact congrArg Prod.snd hread
    rw [hs']
    exact hoff k hk
  · have hanswer (is : List Nat) : ∃ a, ((c.readAll is).read i).1 = .answer a :=
      (Ready.readAll hacyclic hc.ready (.refl c) is).exists_answer ((Within.refl c).readAll is) hacyclic i
    obtain ⟨a, ha⟩ := hanswer []
    refine ⟨a, fun is => ?_⟩
    obtain ⟨b, hb⟩ := hanswer is
    have hfirst : c.Answers i a := (((Within.refl c).readAll []).read i).2 a ha
    have hlater : c.Answers i b := (((Within.refl c).readAll is).read i).2 b hb
    rw [hb, hlater.unique hfirst]

/-- The first lookup asks for itself, the second for the first. -/
def loop : LookupStore := ⟨[.deferred (.via 0 none), .deferred (.via 0 none)]⟩

/-- The first lookup asks for two that ask for the same one. -/
def diamond : LookupStore :=
  ⟨[.deferred (.ask 1 fun found => .via 2 found), .deferred (.via 3 none), .deferred (.via 3 none),
    .deferred (.known (some (.builtIn .string)))]⟩

theorem Needs.of_via {t : Nat} {b : Option TypeRef} (h : Needs c (.via t b) j) : j = t := by
  cases h with
  | first => rfl
  | later _ h => cases h

/-- In the diamond each asks for later ones only. -/
theorem acyclic_diamond : diamond.Acyclic := by
  have hlt : ∀ i j, diamond.ReadsFrom i j → i < j := by
    rintro i j ⟨q, n, hi, hq⟩
    match i, hi with
    | 0, rfl =>
      cases hq with
      | first => exact Nat.one_pos
      | later _ hq => rw [hq.of_via]; exact Nat.two_pos
    | 1, rfl => rw [hq.of_via]; decide
    | 2, rfl => rw [hq.of_via]; decide
    | 3, rfl => cases hq
  intro i h
  have hi : Relation.TransGen (fun i j : Nat => i < j) i i := Relation.TransGen.mono hlt i i h
  rw [Relation.transGen_eq_self] at hi
  exact Nat.lt_irrefl i hi

theorem reads_loop_and_diamond :
    loop.Unread ∧ Stops loop 1 [1, 0, 0] ∧ (∀ js : List Nat, ((loop.readAll (1 :: js)).read 0).1 = .refused) ∧
      diamond.Unread ∧ diamond.Acyclic ∧ ∃ a, ∀ is : List Nat, ((diamond.readAll is).read 0).1 = .answer a := by
  have hloop : loop.Unread := by
    intro i l hl
    match i, hl with
    | 0, rfl => exact ⟨rfl, nofun⟩
    | 1, rfl => exact ⟨rfl, nofun⟩
  have hdiamond : diamond.Unread := by
    intro i l hl
    match i, hl with
    | 0, rfl => exact ⟨rfl, nofun⟩
    | 1, rfl => exact ⟨rfl, nofun⟩
    | 2, rfl => exact ⟨rfl, nofun⟩
    | 3, rfl => exact ⟨rfl, nofun⟩
  have hstops : Stops loop 1 [1, 0, 0] := .waits rfl .here (.waits rfl .here (.taken rfl))
  obtain ⟨hreads, -⟩ := reads_of_unread hloop
  obtain ⟨-, -, -, hway⟩ := hreads []
  obtain ⟨-, hon, -⟩ := hway 1 [1, 0, 0] hstops
  exact ⟨hloop, hstops, (hon 0 (by decide)).2, hdiamond, acyclic_diamond,
    (reads_of_unread hdiamond).2 acyclic_diamond 0⟩

end LookupStore
end DomainModel
