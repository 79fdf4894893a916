import DomainModel.Table
import Mathlib.Data.List.Nodup
import Mathlib.Data.List.Perm.Subperm
import Mathlib.Data.Nat.Find
import Mathlib.Logic.Relation
/-!
# Chain — following bases

The searches along bases take at most as many steps as there are declarations, and a chain of bases comes within as many
steps to whatever it comes to at all (`exists_follow_le`).  So the searches answer what a chain of any length does:
`reaches` whether the bases of one kind lead to a name (`reaches_iff`), `isScalar` whether they end in a single value
(`isScalar_iff`).
-/
namespace DomainModel

/-! ## Steps of a partial function -/

section Follow

variable {α : Type} {next : α → Option α}

/-- So many steps of a partial function. -/
def follow (next : α → Option α) : Nat → α → Option α
  | 0, a => some a
  | n + 1, a => (next a).bind (follow next n)

theorem follow_add : ∀ (m n : Nat) (a : α), follow next (m + n) a = (follow next m a).bind (follow next n)
  | 0, n, a => by rw [Nat.zero_add]; rfl
  | m + 1, n, a => by
    rw [Nat.succ_add, follow, follow, Option.bind_assoc]
    exact congrArg _ (funext fun b => follow_add m n b)

theorem follow_succ_mem {L : List α} (hL : ∀ a b, next a = some b → b ∈ L) : ∀ {n : Nat} {a b : α},
    follow next (n + 1) a = some b → b ∈ L
  | 0, a, b, h => by
    obtain ⟨c, hc, hb⟩ := Option.bind_eq_some_iff.1 h
    cases hb
    exact hL _ _ hc
  | n + 1, a, b, h => by
    obtain ⟨c, -, hb⟩ := Option.bind_eq_some_iff.1 h
    exact follow_succ_mem hL hb

theorem reflTransGen_iff_follow {a b : α} :
    Relation.ReflTransGen (fun a b => next a = some b) a b ↔ ∃ n, follow next n a = some b := by
  constructor
  · intro h
    induction h with
    | refl => exact ⟨0, rfl⟩
    | tail _ hbc ih =>
      obtain ⟨n, hn⟩ := ih
      exact ⟨n + 1, by rw [follow_add, hn]; simp [follow, hbc]⟩
  · rintro ⟨n, hn⟩
    induction n generalizing a with
    | zero => cases hn; exact .refl
    | succ n ih =>
      obtain ⟨c, hc, hb⟩ := Option.bind_eq_some_iff.1 hn
      exact .head hc (ih hb)

/-- **What steps come to at all, they come to within as many steps as there are places to come to.**  On the shortest
way no place comes up twice: what lies between could be left out. -/
theorem exists_follow_le {L : List α} (hL : ∀ a b, next a = some b → b ∈ L) {P : α → Prop} {a : α}
    (h : ∃ n b, follow next n a = some b ∧ P b) : ∃ n ≤ L.length, ∃ b, follow next n a = some b ∧ P b := by
  classical
  let n := Nat.find h
  obtain ⟨b, hb, hP⟩ := Nat.find_spec h
  refine ⟨n, ?_, b, hb, hP⟩
  let way := (List.range n).map fun i => follow next (i + 1) a
  have hsplit : ∀ {i : Nat}, i < n → follow next n a = (follow next (i + 1) a).bind (follow next (n - (i + 1))) := by
    intro i hi
    rw [← follow_add, Nat.add_sub_cancel' hi]
  -- A place met twice would cut the way short, against its being the shortest.
  have hne : ∀ i < n, ∀ j < n, i < j → follow next (i + 1) a ≠ follow next (j + 1) a := by
    intro i _ j hj hij heq
    have hshort : follow next (i + 1 + (n - (j + 1))) a = some b := by
      rw [follow_add, heq, ← hsplit hj]
      exact hb
    exact Nat.find_min h (by omega) ⟨b, hshort, hP⟩
  have hnodup : way.Nodup := by
    refine List.Nodup.map_on (fun i hi j hj heq => ?_) List.nodup_range
    rw [List.mem_range] at hi hj
    by_contra hij
    rcases Nat.lt_or_gt_of_ne hij with hij | hij
    · exact hne i hi j hj hij heq
    · exact hne j hj i hi hij heq.symm
  have hsub : way ⊆ L.map some := by
    intro x hx
    obtain ⟨i, hi, rfl⟩ := List.mem_map.1 hx
    have hs := hsplit (List.mem_range.1 hi)
    obtain ⟨c, hc, -⟩ := Option.bind_eq_some_iff.1 (hs.symm.trans hb)
    exact List.mem_map.2 ⟨c, follow_succ_mem hL hc, hc.symm⟩
  have := (hnodup.subperm hsub).length_le
  simpa [way] using this

end Follow

namespace Table

variable {t : Table}

/-! ## Bases -/

theorem mem_of_resolve {name : QualifiedName} {d : Declaration} (h : t.resolve name = some (.declaration d)) :
    t.find? name = some d := by
  unfold resolve at h
  split at h
  · cases h
  · split at h
    · rename_i e he
      cases h
      exact he
    · obtain ⟨e, -, he⟩ := Option.map_eq_some_iff.1 h
      split at he <;> cases he

theorem mem_of_resolveIn {s : Scope} {r : QualifiedName} {d : Declaration}
    (h : t.resolveIn s r = some (.declaration d)) : d ∈ t.declarations := by
  rw [resolveIn, Scope.resolve_eq] at h
  obtain ⟨name, -, hname⟩ := List.exists_of_findSome?_eq_some h
  exact List.mem_of_find?_eq_some (mem_of_resolve hname)

theorem mem_of_baseOf {d b : Declaration} (h : t.baseOf d = some (.declaration b)) : b ∈ t.declarations := by
  obtain ⟨r, -, hr⟩ := Option.bind_eq_some_iff.1 h
  exact mem_of_resolveIn hr

/-- **A declaration derives from another** when its base means it. -/
def Derives (t : Table) (d b : Declaration) : Prop := t.baseOf d = some (.declaration b)

/-- The base of a declaration, if it is of a kind. -/
def baseOfKind (t : Table) (kind : DeclarationKind) (d : Declaration) : Option Declaration :=
  (t.baseOf d).bind fun
    | .declaration b => if b.kind = kind then some b else none
    | _ => none

theorem baseOfKind_eq_some_iff {kind : DeclarationKind} {d b : Declaration} :
    t.baseOfKind kind d = some b ↔ t.Derives d b ∧ b.kind = kind := by
  unfold baseOfKind Derives
  cases t.baseOf d with
  | none => simp
  | some m => cases m with
    | builtIn | external => simp
    | declaration e =>
      by_cases h : e.kind = kind
      · simp only [Option.bind_some, if_pos h, Option.some.injEq, Meaning.declaration.injEq]
        exact ⟨fun he => ⟨he, he ▸ h⟩, And.left⟩
      · simp only [Option.bind_some, if_neg h, Option.some.injEq, Meaning.declaration.injEq, reduceCtorEq, false_iff]
        rintro ⟨rfl, he⟩
        exact h he

theorem reachesWithin_succ (name : QualifiedName) (kind : DeclarationKind) (fuel : Nat) (d : Declaration) :
    t.reachesWithin name kind (fuel + 1) d =
      (d.fullName == name || (t.baseOfKind kind d).any (t.reachesWithin name kind fuel)) := by
  rw [reachesWithin, baseOfKind]
  cases t.baseOf d with
  | none => rfl
  | some m => cases m with
    | builtIn | external => rfl
    | declaration e => by_cases h : e.kind = kind <;> simp [h]

/-- The search sees what comes up in fewer steps than it may take. -/
theorem reachesWithin_iff {name : QualifiedName} {kind : DeclarationKind} : ∀ {fuel : Nat} {d : Declaration},
    t.reachesWithin name kind fuel d = true ↔
      ∃ n < fuel, ∃ b, follow (t.baseOfKind kind) n d = some b ∧ b.fullName = name
  | 0, d => by simp [reachesWithin]
  | fuel + 1, d => by
    rw [reachesWithin_succ, Bool.or_eq_true, beq_iff_eq, Option.any_eq_true]
    constructor
    · rintro (h | ⟨e, he, h⟩)
      · exact ⟨0, Nat.zero_lt_succ _, d, rfl, h⟩
      · obtain ⟨n, hn, b, hb, h⟩ := reachesWithin_iff.1 h
        exact ⟨n + 1, Nat.succ_lt_succ hn, b, by rw [follow, he]; exact hb, h⟩
    · rintro ⟨n, hn, b, hb, h⟩
      cases n with
      | zero => cases hb; exact .inl h
      | succ n =>
        obtain ⟨e, he, hb⟩ := Option.bind_eq_some_iff.1 hb
        exact .inr ⟨e, he, reachesWithin_iff.2 ⟨n, Nat.lt_of_succ_lt_succ hn, b, hb, h⟩⟩

/-- **The bases of a kind lead from a declaration to a name**, in however many steps. -/
theorem reaches_iff {name : QualifiedName} {kind : DeclarationKind} {d : Declaration} :
    t.reaches name kind d = true ↔
      ∃ b, Relation.ReflTransGen (fun d b => t.Derives d b ∧ b.kind = kind) d b ∧ b.fullName = name := by
  have hL : ∀ a b, t.baseOfKind kind a = some b → b ∈ t.declarations :=
    fun a b h => mem_of_baseOf (baseOfKind_eq_some_iff.1 h).1
  simp only [← baseOfKind_eq_some_iff, reflTransGen_iff_follow]
  rw [reaches, reachesWithin_iff]
  constructor
  · rintro ⟨n, -, b, hb, h⟩
    exact ⟨b, ⟨n, hb⟩, h⟩
  · rintro ⟨b, ⟨n, hb⟩, h⟩
    obtain ⟨n, hn, b, hb, h⟩ := exists_follow_le hL (P := fun b => b.fullName = name) ⟨n, b, hb, h⟩
    exact ⟨n, Nat.lt_succ_of_le hn, b, hb, h⟩

/-! ## Single values -/

/-- **A single value**: a built-in, an enumeration, or a value without properties that derives from a single value. -/
inductive Scalar (t : Table) : Meaning → Prop
  | builtIn (b : BuiltIn) : Scalar t (.builtIn b)
  | externalEnum {d : Declaration} : d.kind = .externalEnum → Scalar t (.declaration d)
  | value {d : Declaration} {m : Meaning} : d.kind = .value → d.hasProperties = false → t.baseOf d = some m →
      Scalar t m → Scalar t (.declaration d)

/-- The value or enumeration that a value without properties derives from. -/
def scalarBase (t : Table) (d : Declaration) : Option Declaration :=
  if d.kind = .value ∧ d.hasProperties = false then (t.baseOf d).bind Meaning.declaration? else none

/-- A declaration at which the search for a single value ends well. -/
def ScalarEnd (t : Table) (d : Declaration) : Prop :=
  d.kind = .externalEnum ∨ d.kind = .value ∧ d.hasProperties = false ∧ ∃ b, t.baseOf d = some (.builtIn b)

theorem scalarBase_eq_some_iff {d b : Declaration} :
    t.scalarBase d = some b ↔ d.kind = .value ∧ d.hasProperties = false ∧ t.Derives d b := by
  unfold scalarBase Derives
  split
  · rename_i h
    simp only [h, true_and]
    cases t.baseOf d with
    | none => simp
    | some m => cases m <;> simp [Meaning.declaration?]
  · rename_i h
    simp only [reduceCtorEq, false_iff]
    exact fun h' => h ⟨h'.1, h'.2.1⟩

theorem isScalarWithin_value {fuel : Nat} {d : Declaration} (hk : d.kind = .value) (hp : d.hasProperties = false) :
    t.isScalarWithin (fuel + 1) (.declaration d) = (t.baseOf d).any (t.isScalarWithin fuel) := by
  unfold isScalarWithin
  simp only [hk, hp]
  cases t.baseOf d <;> rfl

theorem kind_of_isScalarWithin {fuel : Nat} {d : Declaration} :
    t.isScalarWithin fuel (.declaration d) = true →
      d.kind = .externalEnum ∨ d.kind = .value ∧ d.hasProperties = false ∧ fuel ≠ 0 := by
  unfold isScalarWithin
  cases d.kind <;> cases d.hasProperties <;> cases fuel <;> simp

theorem scalar_of_isScalarWithin : ∀ {fuel : Nat} {m : Meaning}, t.isScalarWithin fuel m = true → t.Scalar m
  | _, .builtIn b, _ => .builtIn b
  | _, .external _, h => by simp [isScalarWithin] at h
  | 0, .declaration d, h => by
    rcases kind_of_isScalarWithin h with hk | ⟨-, -, hf⟩
    · exact .externalEnum hk
    · exact absurd rfl hf
  | fuel + 1, .declaration d, h => by
    rcases kind_of_isScalarWithin h with hk | ⟨hk, hp, -⟩
    · exact .externalEnum hk
    · rw [isScalarWithin_value hk hp, Option.any_eq_true] at h
      obtain ⟨m, hm, h⟩ := h
      exact .value hk hp hm (scalar_of_isScalarWithin h)

theorem exists_follow_of_scalar {m : Meaning} (h : t.Scalar m) : ∀ {d : Declaration}, m = .declaration d →
    ∃ n b, follow t.scalarBase n d = some b ∧ t.ScalarEnd b := by
  induction h with
  | builtIn => rintro _ ⟨⟩
  | externalEnum hk => rintro _ ⟨⟩; exact ⟨0, _, rfl, .inl hk⟩
  | @value d m hk hp hb hm ih =>
    rintro _ ⟨⟩
    cases hm with
    | builtIn b => exact ⟨0, _, rfl, .inr ⟨hk, hp, b, hb⟩⟩
    | @externalEnum e _ | @value e _ _ _ _ _ =>
      obtain ⟨n, b, hn, hend⟩ := ih rfl
      exact ⟨n + 1, b, by rw [follow, scalarBase_eq_some_iff.2 ⟨hk, hp, hb⟩]; exact hn, hend⟩

/-- The search accepts a declaration whose bases end well in fewer steps than it may take. -/
theorem isScalarWithin_of_follow {b : Declaration} (hend : t.ScalarEnd b) : ∀ {n fuel : Nat} {d : Declaration},
    n < fuel → follow t.scalarBase n d = some b → t.isScalarWithin fuel (.declaration d) = true
  | _, 0, _, hn, _ => absurd hn (Nat.not_lt_zero _)
  | 0, fuel + 1, d, _, h => by
    cases h
    rcases hend with hk | ⟨hk, hp, c, hc⟩
    · unfold isScalarWithin
      simp [hk]
    · rw [isScalarWithin_value hk hp, hc, Option.any_some]
      simp [isScalarWithin]
  | n + 1, fuel + 1, d, hn, h => by
    obtain ⟨e, he, hb⟩ := Option.bind_eq_some_iff.1 h
    obtain ⟨hk, hp, hd⟩ := scalarBase_eq_some_iff.1 he
    rw [isScalarWithin_value hk hp, show t.baseOf d = _ from hd]
    exact isScalarWithin_of_follow hend (Nat.lt_of_succ_lt_succ hn) hb

/-- **The search for a single value answers by its definition**, however long the chain of bases is. -/
theorem isScalar_iff {m : Meaning} : t.isScalar m = true ↔ t.Scalar m := by
  refine ⟨scalar_of_isScalarWithin, fun h => ?_⟩
  cases m with
  | builtIn b => simp [isScalar, isScalarWithin]
  | external e => cases h
  | declaration d =>
    have hL : ∀ a b, t.scalarBase a = some b → b ∈ t.declarations :=
      fun a b h => mem_of_baseOf (scalarBase_eq_some_iff.1 h).2.2
    obtain ⟨n, hn, b, hb, hend⟩ := exists_follow_le hL (P := t.ScalarEnd) (exists_follow_of_scalar h rfl)
    exact isScalarWithin_of_follow hend (Nat.lt_succ_of_le hn) hb

end Table
end DomainModel
