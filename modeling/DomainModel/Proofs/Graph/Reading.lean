import DomainModel.Graph.Session
/-!
# Reading — lookups answer the same whenever they are read

In a session each lookup is unread and knows what it will answer, or has answered so (`Session.Faithful`).  A session
begins so and every read keeps it so; hence a lookup of the graph gives its answer, never a refusal, after whatever was
read before (`read_after_readAll`).
-/
namespace DomainModel

namespace LookupStore

theorem read_known {s : LookupStore} {i runs : Nat} {answer : Option TypeRef}
    (h : s.get? i = some ⟨.pending (.known answer), runs⟩) :
    s.read i = (.answer answer, (s.set i ⟨.taken, runs + 1⟩).set i ⟨.resolved answer, runs + 1⟩) := by
  simp [read, readWithin, h, resolve]

end LookupStore

namespace Graph

variable {g : Graph}

theorem mem_slots_iff {s : GraphSymbol} {slot : Symbol.Slot} : slot ∈ s.slots ↔ (s.lookup? slot).isSome := by
  unfold Symbol.slots
  rw [List.mem_filter]
  refine ⟨fun h => h.2, fun h => ⟨?_, h⟩⟩
  rw [List.mem_append, List.mem_append]
  cases slot with
  | base | identity | result | argument => simp
  | property i =>
    rw [Symbol.lookup?, Option.isSome_map, isSome_getElem?] at h
    exact .inl (.inr (List.mem_map.2 ⟨i, List.mem_range.2 h, rfl⟩))
  | filter i =>
    rw [Symbol.lookup?, Option.isSome_map, isSome_getElem?] at h
    exact .inr (List.mem_map.2 ⟨i, List.mem_range.2 h, rfl⟩)

/-- **The addresses are those at which there is a lookup.** -/
theorem mem_addresses_iff {a : LookupAddress} : a ∈ g.addresses ↔ (g.lookup? a).isSome := by
  obtain ⟨id, slot⟩ := a
  unfold addresses lookup?
  rw [List.mem_flatMap]
  constructor
  · rintro ⟨id', -, ha⟩
    unfold addressesAt at ha
    cases hs : g.symbol? id' with
    | none => rw [hs] at ha; cases ha
    | some s =>
      rw [hs] at ha
      obtain ⟨slot', hslot, heq⟩ := List.mem_map.1 ha
      cases heq
      rw [hs]
      exact mem_slots_iff.1 hslot
  · intro h
    obtain ⟨l, hl⟩ := Option.isSome_iff_exists.1 h
    obtain ⟨s, hs, hslot⟩ := Option.bind_eq_some_iff.1 hl
    obtain ⟨hlt, -⟩ := List.getElem?_eq_some_iff.1 hs
    refine ⟨id, List.mem_map.2 ⟨id.index, List.mem_range.2 hlt, rfl⟩, ?_⟩
    unfold addressesAt
    rw [hs]
    exact List.mem_map.2 ⟨slot, mem_slots_iff.2 (Option.isSome_of_eq_some hslot), rfl⟩

end Graph

namespace Session

/-- **A session of a graph whose lookups have answered right, or will.** -/
structure Faithful (g : Graph) (s : Session) : Prop where
  /-- The graph is the one that was taken up. -/
  graph : s.graph = g
  /-- Every address has a lookup, which has answered what the graph says or is going to. -/
  lookups : ∀ i a, g.addresses[i]? = some a → ∃ runs,
    s.lookups.get? i = some ⟨.pending (.known (g.lookup? a).join), runs⟩ ∨
      s.lookups.get? i = some ⟨.resolved (g.lookup? a).join, runs⟩

variable {g : Graph} {s : Session}

/-- **A session begins faithful.** -/
theorem faithful_start (g : Graph) : Faithful g (start g) := by
  refine ⟨rfl, fun i a h => ⟨0, .inl ?_⟩⟩
  rw [start, Graph.deferred, LookupStore.get?, List.getElem?_map, h]
  rfl

/-- What stands at an address changes to its answer, and nothing else does. -/
theorem Faithful.set (h : Faithful g s) {i runs : Nat} {a : LookupAddress} (ha : g.addresses[i]? = some a) :
    Faithful g { s with lookups := (s.lookups.set i ⟨.taken, runs⟩).set i ⟨.resolved (g.lookup? a).join, runs⟩ } := by
  refine ⟨h.graph, fun j b hb => ?_⟩
  obtain ⟨runs', hj⟩ := h.lookups j b hb
  by_cases hij : i = j
  · subst hij
    obtain rfl := Option.some_inj.1 (ha.symm.trans hb)
    refine ⟨runs, .inr ?_⟩
    rw [LookupStore.get?_set, if_pos rfl, LookupStore.get?_set, if_pos rfl]
    rcases hj with hj | hj <;> rw [hj] <;> rfl
  · refine ⟨runs', ?_⟩
    rwa [LookupStore.get?_set, if_neg hij, LookupStore.get?_set, if_neg hij]

/-- **A read of a faithful session answers what the graph says, and keeps it faithful.** -/
theorem Faithful.read (h : Faithful g s) (a : LookupAddress) :
    (s.read a).1 = (g.lookup? a).map Reading.answer ∧ Faithful g (s.read a).2 := by
  obtain rfl := h.graph
  unfold Session.read at?
  cases hi : s.graph.addresses.idxOf? a with
  | none =>
    have hno : a ∉ s.graph.addresses := List.idxOf?_eq_none_iff.1 hi
    rw [Graph.mem_addresses_iff, Option.not_isSome_iff_eq_none] at hno
    exact ⟨by rw [hno]; rfl, h⟩
  | some i =>
    have ha : s.graph.addresses[i]? = some a := by
      obtain ⟨hlt, heq, -⟩ := List.idxOf?_eq_some_iff.1 hi
      rw [List.getElem?_eq_getElem hlt, heq]
    have hsome : (s.graph.lookup? a).isSome := Graph.mem_addresses_iff.1 (List.mem_of_getElem? ha)
    obtain ⟨answer, hanswer⟩ := Option.isSome_iff_exists.1 hsome
    obtain ⟨runs, hpending | hresolved⟩ := h.lookups i a ha
    · simp only [LookupStore.read_known hpending]
      refine ⟨?_, h.set ha⟩
      rw [hanswer]
      rfl
    · simp only [LookupStore.read_resolved hresolved]
      exact ⟨by rw [hanswer]; rfl, h⟩

theorem Faithful.readAll : ∀ {s : Session}, Faithful g s → ∀ as : List LookupAddress, Faithful g (s.readAll as)
  | _, h, [] => h
  | _, h, a :: as => Faithful.readAll (h.read a).2 as

/-- **A lookup answers what the graph says, whatever was read before**, and is never refused. -/
theorem read_after_readAll (g : Graph) (as : List LookupAddress) (a : LookupAddress) :
    (((start g).readAll as).read a).1 = (g.lookup? a).map Reading.answer :=
  (((faithful_start g).readAll as).read a).1

end Session
end DomainModel
