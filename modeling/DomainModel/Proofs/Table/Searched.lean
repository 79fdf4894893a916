import DomainModel.Proofs.Table.Chain
import DomainModel.Table.Search
/-!
# Searched — a search along bases ends, and answers right

A search that starts at a declaration of the table passes each name at most once, so it ends within as many rounds as
there are declarations and one more; then it has answered whether the bases of the kind lead to the name
(`searchWithin_eq`).
-/
namespace DomainModel
namespace Table

variable {t : Table} {name : QualifiedName} {kind : DeclarationKind} {first : Declaration} {s s' : BaseSearch}

/-- What a round does, by the base of the kind. -/
theorem searchRound_eq : t.searchRound name kind s =
    if s.current.fullName = name then .inl true
    else if s.current.fullName ∈ s.seen then .inl false
    else
      match t.baseOfKind kind s.current with
      | some next => .inr ⟨s.seen ++ [s.current.fullName], next⟩
      | none => .inl false := by
  unfold searchRound baseOfKind
  cases t.baseOf s.current with
  | none => rfl
  | some m => cases m with
    | builtIn | external => rfl
    | declaration d => by_cases h : d.kind = kind <;> simp [h]

/-- **What a search has done**: it passed declarations of the table with different names, none of them the one it looks
for, each base of them being the next one or where the search is. -/
structure Passed (t : Table) (name : QualifiedName) (kind : DeclarationKind) (first : Declaration) (s : BaseSearch)
    (ds : List Declaration) : Prop where
  seen : s.seen = ds.map (·.fullName)
  nodup : s.seen.Nodup
  found : ∀ d ∈ ds ++ [s.current], t.find? d.fullName = some d
  other : ∀ d ∈ ds, d.fullName ≠ name
  bases : ∀ d ∈ ds, ∀ b, t.baseOfKind kind d = some b → b ∈ ds ++ [s.current]
  start : first ∈ ds ++ [s.current]
  led : Relation.ReflTransGen (fun d b => t.Derives d b ∧ b.kind = kind) first s.current

theorem passed_start (h : t.find? first.fullName = some first) : Passed t name kind first ⟨[], first⟩ [] where
  seen := rfl
  nodup := .nil
  found := fun d hd => by rwa [List.mem_singleton.1 hd]
  other := nofun
  bases := nofun
  start := List.mem_singleton.2 rfl
  led := .refl

theorem find?_of_resolveIn {s : Scope} {r : QualifiedName} {d : Declaration}
    (h : t.resolveIn s r = some (.declaration d)) : t.find? d.fullName = some d := by
  rw [resolveIn, Scope.resolve_eq] at h
  obtain ⟨name, -, hname⟩ := List.exists_of_findSome?_eq_some h
  have hfind := mem_of_resolve hname
  rwa [← fullName_of_find? hfind] at hfind

theorem find?_of_baseOf {d e : Declaration} (h : t.baseOf d = some (.declaration e)) : t.find? e.fullName = some e := by
  obtain ⟨base, -, hbase⟩ := Option.bind_eq_some_iff.1 h
  exact find?_of_resolveIn hbase

theorem find?_of_baseOfKind {d b : Declaration} (h : t.baseOfKind kind d = some b) :
    t.find? b.fullName = some b := by
  obtain ⟨r, -, hr⟩ := Option.bind_eq_some_iff.1 (baseOfKind_eq_some_iff.1 h).1
  exact find?_of_resolveIn hr

/-- **No name is found by a search that passed declarations whose bases it passed as well.** -/
theorem reaches_eq_false {ds : List Declaration} (hfirst : first ∈ ds) (hother : ∀ d ∈ ds, d.fullName ≠ name)
    (hnext : ∀ d ∈ ds, ∀ b, t.baseOfKind kind d = some b → b ∈ ds) : t.reaches name kind first = false := by
  rw [Bool.eq_false_iff]
  intro h
  obtain ⟨b, hb, hn⟩ := reaches_iff.1 h
  have hmem : b ∈ ds := by
    clear hn
    induction hb with
    | refl => exact hfirst
    | tail _ hbc ih => exact hnext _ ih _ (baseOfKind_eq_some_iff.2 hbc)
  exact hother b hmem hn

variable {ds : List Declaration}

/-- A round that goes on has passed one declaration more. -/
theorem Passed.round (h : Passed t name kind first s ds) (hs : t.searchRound name kind s = .inr s') :
    Passed t name kind first s' (ds ++ [s.current]) := by
  rw [searchRound_eq] at hs
  split at hs
  · cases hs
  split at hs
  · cases hs
  rename_i hname hnew
  split at hs
  · rename_i b hb
    cases hs
    have hderives := baseOfKind_eq_some_iff.1 hb
    refine ⟨?seen, ?nodup, ?found, ?other, ?bases, List.mem_append_left _ h.start, h.led.tail hderives⟩
    case seen => rw [h.seen, List.map_append, List.map_singleton]
    case nodup => exact List.nodup_append.2 ⟨h.nodup, List.nodup_singleton _, fun x hx y hy hxy =>
        hnew (List.mem_singleton.1 hy ▸ hxy ▸ hx)⟩
    case found =>
      intro d hd
      rcases List.mem_append.1 hd with hd | hd
      · exact h.found d hd
      · rw [List.mem_singleton.1 hd]
        exact find?_of_baseOfKind hb
    case other =>
      intro d hd
      rcases List.mem_append.1 hd with hd | hd
      · exact h.other d hd
      · rwa [List.mem_singleton.1 hd]
    case bases =>
      intro d hd c hc
      rcases List.mem_append.1 hd with hd | hd
      · exact List.mem_append_left _ (h.bases d hd c hc)
      · rw [List.mem_singleton.1 hd, hb] at hc
        cases hc
        exact List.mem_append_right _ (List.mem_singleton.2 rfl)
  · cases hs

/-- **A round that answers answers right.** -/
theorem Passed.answer (h : Passed t name kind first s ds) {answer : Bool}
    (hs : t.searchRound name kind s = .inl answer) : answer = t.reaches name kind first := by
  rw [searchRound_eq] at hs
  split at hs
  · rename_i hname
    cases hs
    exact (reaches_iff.2 ⟨s.current, h.led, hname⟩).symm
  split at hs
  · -- The name was passed before, and with it the declaration: from here on nothing new comes up.
    rename_i hname hseen
    cases hs
    rw [h.seen] at hseen
    obtain ⟨d, hd, hdn⟩ := List.mem_map.1 hseen
    have hfound := h.found d (List.mem_append_left _ hd)
    rw [hdn, h.found s.current (List.mem_append_right _ (List.mem_singleton.2 rfl))] at hfound
    cases hfound
    have hmem : ∀ b, b ∈ ds ++ [s.current] → b ∈ ds := by
      intro b hb
      rcases List.mem_append.1 hb with hb | hb
      · exact hb
      · rwa [List.mem_singleton.1 hb]
    exact (reaches_eq_false (hmem _ h.start) h.other fun d hd b hb => hmem b (h.bases d hd b hb)).symm
  · rename_i hname _
    split at hs
    · cases hs
    · rename_i hnone
      cases hs
      refine (reaches_eq_false h.start (fun d hd => ?_) fun d hd b hb => ?_).symm
      · rcases List.mem_append.1 hd with hd | hd
        · exact h.other d hd
        · rwa [List.mem_singleton.1 hd]
      · rcases List.mem_append.1 hd with hd | hd
        · exact h.bases d hd b hb
        · rw [List.mem_singleton.1 hd, hnone] at hb
          cases hb

/-- Different names that a table finds are not more than it has declarations. -/
theorem length_le_size {names : List QualifiedName} (hnodup : names.Nodup)
    (hfound : ∀ n ∈ names, ∃ d, t.find? n = some d) : names.length ≤ t.size := by
  have hsub : names ⊆ t.declarations.map (·.fullName) := by
    intro n hn
    obtain ⟨d, hd⟩ := hfound n hn
    exact List.mem_map.2 ⟨d, List.mem_of_find?_eq_some hd, fullName_of_find? hd⟩
  have hle := (hnodup.subperm hsub).length_le
  rwa [List.length_map] at hle

/-- A search has not passed more names than there are declarations. -/
theorem Passed.length_le (h : Passed t name kind first s ds) : s.seen.length ≤ t.size := by
  refine length_le_size h.nodup fun n hn => ?_
  rw [h.seen] at hn
  obtain ⟨d, hd, rfl⟩ := List.mem_map.1 hn
  exact ⟨d, h.found d (List.mem_append_left _ hd)⟩

/-- **A search under way ends and answers right**, with rounds left for the declarations that it has not passed. -/
theorem Passed.searchWithin_eq : ∀ {rounds : Nat} {s : BaseSearch} {ds : List Declaration},
    Passed t name kind first s ds → t.size < rounds + s.seen.length →
      t.searchWithin name kind rounds s = some (t.reaches name kind first)
  | 0, s, ds, h, hlt => by
    have hle := h.length_le
    omega
  | rounds + 1, s, ds, h, hlt => by
    unfold searchWithin
    cases hs : t.searchRound name kind s with
    | inl answer => simp only [h.answer hs]
    | inr s' =>
      have hpassed := h.round hs
      refine hpassed.searchWithin_eq ?_
      have hlength : s'.seen.length = s.seen.length + 1 := by
        rw [hpassed.seen, h.seen, List.length_map, List.length_map, List.length_append, List.length_singleton]
      omega

/-- **A search from a declaration of the table ends and answers right.** -/
theorem searchWithin_eq (h : t.find? first.fullName = some first) (name : QualifiedName) (kind : DeclarationKind) :
    t.searchWithin name kind (t.size + 1) ⟨[], first⟩ = some (t.reaches name kind first) :=
  (passed_start h).searchWithin_eq (Nat.lt_succ_self _)

end Table
end DomainModel
