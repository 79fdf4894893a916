import DomainModel.Proofs.Table.Collected
import DomainModel.Proofs.Table.Searched
/-!
# Single — which types are single values

A type is a single value in the least sense of `Table.Scalar`: bases lead from it over values without properties to a
built-in type or an enumeration.  Whatever is none comes along its bases to a fault: to what no single value derives
from, to a value with properties or without a base, or to a circle (`Table.isScalar_eq_false_iff`).  A search with a
list of the names seen, in a table that definitions made, ends with the right answer (`Table.single_of_defined`).
-/
namespace DomainModel
namespace Table

variable {t : Table} {m b : Meaning}

/-! ## What is wrong with a type that is no single value -/

/-- **The base of what is no enumeration**, if it means anything. -/
inductive HasBase (t : Table) : Meaning → Meaning → Prop
  | intro {d : Declaration} {b : Meaning} : d.kind ≠ .externalEnum → t.baseOf d = some b → HasBase t (.declaration d) b

/-- **What keeps a type from being a single value**, if it has it or its bases lead to what has it. -/
inductive Fault (t : Table) : Meaning → Prop
  | external (e : ExternalType) : Fault t (.external e)
  | entity {d : Declaration} : d.kind = .entity → Fault t (.declaration d)
  | event {d : Declaration} : d.kind = .event → Fault t (.declaration d)
  | webApi {d : Declaration} : d.kind = .webApi → Fault t (.declaration d)
  | properties {d : Declaration} : d.kind = .value → d.hasProperties = true → Fault t (.declaration d)
  | baseless {d : Declaration} : d.kind = .value → d.base = none → Fault t (.declaration d)
  | unresolved {d : Declaration} {base : QualifiedName} : d.kind = .value → d.base = some base →
      t.resolveIn d.scope base = none → Fault t (.declaration d)
  | circle {m : Meaning} : Relation.TransGen t.HasBase m m → Fault t m

/-- **The base of a single value is one.** -/
theorem Scalar.base (h : t.Scalar m) (hb : t.HasBase m b) : t.Scalar b := by
  obtain ⟨hk, hb⟩ := hb
  cases h with
  | externalEnum hk' => exact absurd hk' hk
  | value _ _ hm h => rwa [Option.some_inj.1 (hb.symm.trans hm)]

theorem Scalar.bases (h : t.Scalar m) (hb : Relation.ReflTransGen t.HasBase m b) : t.Scalar b := by
  induction hb with
  | refl => exact h
  | tail _ hb ih => exact ih.base hb

/-- **A single value is on no circle of bases**: a circle at it would be one at its base. -/
theorem Scalar.not_circle (h : t.Scalar m) : ¬ Relation.TransGen t.HasBase m m := by
  induction h with
  | builtIn b =>
    intro hcircle
    obtain ⟨c, hc, -⟩ := Relation.TransGen.head'_iff.1 hcircle
    cases hc
  | externalEnum hk =>
    intro hcircle
    obtain ⟨c, ⟨hk', -⟩, -⟩ := Relation.TransGen.head'_iff.1 hcircle
    exact hk' hk
  | @value d b hk _ hb _ ih =>
    intro hcircle
    obtain ⟨c, ⟨-, hc⟩, hback⟩ := Relation.TransGen.head'_iff.1 hcircle
    obtain rfl := Option.some_inj.1 (hb.symm.trans hc)
    exact ih (.tail' hback ⟨by rw [hk]; decide, hb⟩)

theorem Fault.not_scalar (hf : t.Fault m) : ¬ t.Scalar m := by
  intro h
  cases hf with
  | external e => cases h
  | entity hk | event hk | webApi hk =>
    cases h with
    | externalEnum hk' => cases hk.symm.trans hk'
    | value hk' => cases hk.symm.trans hk'
  | properties hk hp =>
    cases h with
    | externalEnum hk' => cases hk.symm.trans hk'
    | value _ hp' => cases hp.symm.trans hp'
  | baseless hk hbase =>
    cases h with
    | externalEnum hk' => cases hk.symm.trans hk'
    | value _ _ hb => rw [baseOf, hbase] at hb; cases hb
  | unresolved hk hbase hnone =>
    cases h with
    | externalEnum hk' => cases hk.symm.trans hk'
    | value _ _ hb => rw [baseOf, hbase, Option.bind_some, hnone] at hb; cases hb
  | circle hcircle => exact h.not_circle hcircle

/-- **Every single value may be the type of a property.** -/
theorem Scalar.isValue (h : t.Scalar m) : t.isValue m = true := by
  cases h with
  | builtIn b => rfl
  | externalEnum hk | value hk => simp [Table.isValue, hk]

/-! ## The search -/

/-- What a round does: it goes on to the base of a value without properties that is new, or it answers. -/
theorem singleRound_cases (t : Table) (s : SingleSearch) :
    (∃ d b, s.current = .declaration d ∧ d.kind = .value ∧ d.hasProperties = false ∧ d.fullName ∉ s.seen ∧
        t.baseOf d = some b ∧ t.singleRound s = .inr ⟨s.seen ++ [d.fullName], b⟩) ∨
      (t.singleRound s = .inl true ∧ t.Scalar s.current) ∨
      (t.singleRound s = .inl false ∧
        (t.Fault s.current ∨ ∃ d, s.current = .declaration d ∧ d.fullName ∈ s.seen)) := by
  obtain ⟨seen, current⟩ := s
  cases current with
  | builtIn b => exact .inr (.inl ⟨rfl, .builtIn b⟩)
  | external e => exact .inr (.inr ⟨rfl, .inl (.external e)⟩)
  | declaration d =>
    cases hk : d.kind with
    | entity => exact .inr (.inr ⟨by simp [singleRound, hk], .inl (.entity hk)⟩)
    | event => exact .inr (.inr ⟨by simp [singleRound, hk], .inl (.event hk)⟩)
    | webApi => exact .inr (.inr ⟨by simp [singleRound, hk], .inl (.webApi hk)⟩)
    | externalEnum => exact .inr (.inl ⟨by simp [singleRound, hk], .externalEnum hk⟩)
    | value =>
      cases hp : d.hasProperties with
      | true => exact .inr (.inr ⟨by simp [singleRound, hk, hp], .inl (.properties hk hp)⟩)
      | false =>
        by_cases hseen : d.fullName ∈ seen
        · exact .inr (.inr ⟨by simp [singleRound, hk, hp, hseen], .inr ⟨d, rfl, hseen⟩⟩)
        · cases hb : t.baseOf d with
          | some b => exact .inl ⟨d, b, rfl, hk, hp, hseen, hb, by simp [singleRound, hk, hp, hseen, hb]⟩
          | none =>
            refine .inr (.inr ⟨by simp [singleRound, hk, hp, hseen, hb], .inl ?_⟩)
            cases hbase : d.base with
            | none => exact .baseless hk hbase
            | some base =>
              rw [baseOf, hbase] at hb
              exact .unresolved hk hbase hb

/-- **What a search has done**: it passed declarations of the table with different names, whose bases lead to where it
is, and where it is there is a single value only if there was one at the start. -/
structure Followed (t : Table) (first : Meaning) (s : SingleSearch) (ds : List Declaration) : Prop where
  seen : s.seen = ds.map (·.fullName)
  nodup : s.seen.Nodup
  found : ∀ d ∈ ds, t.find? d.fullName = some d
  current : ∀ d, s.current = .declaration d → t.find? d.fullName = some d
  led : Relation.ReflTransGen t.HasBase first s.current
  behind : ∀ d ∈ ds, Relation.TransGen t.HasBase (.declaration d) s.current
  single : t.Scalar s.current → t.Scalar first

theorem followed_start {first : Meaning} (h : ∀ d, first = .declaration d → t.find? d.fullName = some d) :
    Followed t first ⟨[], first⟩ [] where
  seen := rfl
  nodup := .nil
  found := nofun
  current := h
  led := .refl
  behind := nofun
  single := id

variable {first : Meaning} {s : SingleSearch} {ds : List Declaration}

/-- A round that goes on has passed one declaration more. -/
theorem Followed.round (h : Followed t first s ds) {d : Declaration} (hcurrent : s.current = .declaration d)
    (hk : d.kind = .value) (hp : d.hasProperties = false) (hnew : d.fullName ∉ s.seen) (hb : t.baseOf d = some b) :
    Followed t first ⟨s.seen ++ [d.fullName], b⟩ (ds ++ [d]) := by
  have hstep : t.HasBase s.current b := hcurrent ▸ ⟨by rw [hk]; decide, hb⟩
  refine ⟨?seen, ?nodup, ?found, ?current, h.led.tail hstep, ?behind, fun hm => h.single ?single⟩
  case seen => rw [h.seen, List.map_append, List.map_singleton]
  case nodup =>
    refine List.nodup_append.2 ⟨h.nodup, List.nodup_singleton _, fun x hx y hy hxy => hnew ?_⟩
    rwa [← List.mem_singleton.1 hy, ← hxy]
  case found =>
    intro e he
    rcases List.mem_append.1 he with he | he
    · exact h.found e he
    · rw [List.mem_singleton.1 he]
      exact h.current d hcurrent
  case current =>
    rintro e rfl
    exact find?_of_baseOf hb
  case behind =>
    intro e he
    rcases List.mem_append.1 he with he | he
    · exact (h.behind e he).tail hstep
    · rw [List.mem_singleton.1 he, ← hcurrent]
      exact .single hstep
  case single =>
    rw [hcurrent]
    exact .value hk hp hb hm

/-- A name that comes up a second time is that of the same declaration: its bases have come back to it. -/
theorem Followed.circle (h : Followed t first s ds) {d : Declaration} (hcurrent : s.current = .declaration d)
    (hseen : d.fullName ∈ s.seen) : t.Fault s.current := by
  rw [h.seen] at hseen
  obtain ⟨e, he, hname⟩ := List.mem_map.1 hseen
  have hfound := h.found e he
  rw [hname, h.current d hcurrent, Option.some_inj] at hfound
  subst hfound
  have hback := h.behind d he
  rw [← hcurrent] at hback
  exact .circle hback

theorem Followed.length_le (h : Followed t first s ds) : s.seen.length ≤ t.size := by
  refine length_le_size h.nodup fun n hn => ?_
  rw [h.seen] at hn
  obtain ⟨d, hd, rfl⟩ := List.mem_map.1 hn
  exact ⟨d, h.found d hd⟩

/-- **A search under way ends**: with a single value found, or at a fault. -/
theorem Followed.exists_answer : ∀ {rounds : Nat} {s : SingleSearch} {ds : List Declaration}, Followed t first s ds →
    t.size < rounds + s.seen.length → ∃ answer, t.singleWithin rounds s = some answer ∧
      (answer = true → t.Scalar first) ∧
      (answer = false → ∃ b, Relation.ReflTransGen t.HasBase first b ∧ t.Fault b)
  | 0, s, ds, h, hlt => by
    have hle := h.length_le
    omega
  | rounds + 1, s, ds, h, hlt => by
    rw [singleWithin]
    rcases singleRound_cases t s with ⟨d, b, hcurrent, hk, hp, hnew, hb, hround⟩ | ⟨hround, hscalar⟩ | ⟨hround, hfault⟩
    · simp only [hround]
      refine (h.round hcurrent hk hp hnew hb).exists_answer ?_
      rw [List.length_append, List.length_singleton]
      omega
    · exact ⟨true, by simp only [hround], fun _ => h.single hscalar, nofun⟩
    · have hfault : t.Fault s.current := by
        rcases hfault with hfault | ⟨d, hcurrent, hseen⟩
        · exact hfault
        · exact h.circle hcurrent hseen
      exact ⟨false, by simp only [hround], nofun, fun _ => ⟨s.current, h.led, hfault⟩⟩

section Found

variable (hm : ∀ d, m = .declaration d → t.find? d.fullName = some d)
include hm

/-- **A type that is no single value comes along its bases to a fault**, and no single value does. -/
theorem isScalar_eq_false_iff :
    t.isScalar m = false ↔ ∃ b, Relation.ReflTransGen t.HasBase m b ∧ t.Fault b := by
  constructor
  · intro hfalse
    obtain ⟨answer, -, htrue, hfault⟩ := (followed_start hm).exists_answer (Nat.lt_succ_self _)
    cases answer with
    | false => exact hfault rfl
    | true => cases hfalse.symm.trans (isScalar_iff.2 (htrue rfl))
  · rintro ⟨b, hbases, hfault⟩
    rw [Bool.eq_false_iff]
    exact fun h => hfault.not_scalar ((isScalar_iff.1 h).bases hbases)

/-- **The search with its list of names ends and answers right.** -/
theorem singleWithin_eq : t.singleWithin (t.size + 1) ⟨[], m⟩ = some (t.isScalar m) := by
  obtain ⟨answer, hanswer, htrue, hfault⟩ := (followed_start hm).exists_answer (Nat.lt_succ_self _)
  rw [hanswer, Option.some_inj]
  cases answer with
  | true => exact (isScalar_iff.2 (htrue rfl)).symm
  | false => exact ((isScalar_eq_false_iff hm).2 (hfault rfl)).symm

end Found

/-! ## Tables that definitions made -/

/-- **What can be had of a table**: what it resolves, by itself, in a scope or as a base, and what it holds. -/
inductive Obtained (t : Table) : Meaning → Prop
  | resolve {name : QualifiedName} {m : Meaning} : t.resolve name = some m → Obtained t m
  | resolveIn {s : Scope} {r : QualifiedName} {m : Meaning} : t.resolveIn s r = some m → Obtained t m
  | baseOf {d : Declaration} {m : Meaning} : t.baseOf d = some m → Obtained t m
  | declared {d : Declaration} : d ∈ t.declarations → Obtained t (.declaration d)

theorem Obtained.find? (hdistinct : Distinct t.declarations) (h : t.Obtained m) :
    ∀ d, m = .declaration d → t.find? d.fullName = some d := by
  rintro d rfl
  cases h with
  | resolve h =>
    have hfind := mem_of_resolve h
    rwa [← fullName_of_find? hfind] at hfind
  | resolveIn h => exact find?_of_resolveIn h
  | baseOf h => exact find?_of_baseOf h
  | declared h => exact (find?_eq_some_iff hdistinct).2 ⟨h, rfl⟩

/-- **Single values of a table that definitions made**, whatever is defined: the search for one ends, it finds those
that are single values in the least sense and no others, what is none comes along its bases to a fault, and single
values are values. -/
theorem single_of_defined (outside : Universe) (ds : List Declaration) {m : Meaning}
    (hm : ((empty outside).defineAll ds).1.Obtained m) :
    let t := ((empty outside).defineAll ds).1
    t.singleWithin (t.size + 1) ⟨[], m⟩ = some (t.isScalar m) ∧
      (t.isScalar m = true ↔ t.Scalar m) ∧
      (t.isScalar m = false ↔ ∃ b, Relation.ReflTransGen t.HasBase m b ∧ t.Fault b) ∧
      (t.isScalar m = true → t.isValue m = true) := by
  intro t
  have hfind := hm.find? (keeps_defineAll outside ds).distinct
  exact ⟨singleWithin_eq hfind, isScalar_iff, isScalar_eq_false_iff hfind, fun h => (isScalar_iff.1 h).isValue⟩

/-- A value without properties in a unit without imports. -/
def bare (name base : QualifiedName) : Declaration := ⟨.value, name, false, some base, false, .top []⟩

def low : QualifiedName := ⟨⟨"S", by decide⟩, [⟨"Low", by decide⟩]⟩

def high : QualifiedName := ⟨⟨"S", by decide⟩, [⟨"High", by decide⟩]⟩

def free : QualifiedName := ⟨⟨"S", by decide⟩, [⟨"Free", by decide⟩]⟩

/-- Two values in a circle, one that runs into it, and one that is defined twice. -/
def around : List Declaration :=
  [bare low high, bare high low, bare free (.single ⟨"int", by decide⟩), bare free low]

theorem single_of_defined_around :
    let t := ((empty .empty).defineAll around).1
    (∃ b, Relation.ReflTransGen t.HasBase (.declaration (bare low high)) b ∧ t.Fault b) ∧
      t.Scalar (.declaration (bare free (.single ⟨"int", by decide⟩))) := by
  intro t
  obtain ⟨-, -, hlow, -⟩ := single_of_defined .empty around (m := .declaration (bare low high))
    (@Obtained.resolve _ low _ (by decide))
  obtain ⟨-, hfree, -⟩ := single_of_defined .empty around
    (m := .declaration (bare free (.single ⟨"int", by decide⟩))) (.declared (by decide))
  exact ⟨hlow.1 (by decide), hfree.1 (by decide)⟩

end Table
end DomainModel
