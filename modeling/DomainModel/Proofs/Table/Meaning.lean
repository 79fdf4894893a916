import DomainModel.Proofs.Table.Chain
import DomainModel.Proofs.Table.Defined
/-!
# Meaning — what names mean in a forest

What a full name means, what a reference means where it is written, which meanings are values and which are single
values, said of the forest and without a table.  In a forest without conflicts the table says the same
(`resolveIn_eq_some_iff`, `isScalar_ofForest_iff`).
-/
namespace DomainModel
namespace Source

/-- **What a forest declares**, in source order. -/
def declarationsOf (forest : List Tree) : List Declaration := (places forest).filterMap fun x => x.2.declaration? x.1

def IsKeyword (name : QualifiedName) (b : BuiltIn) : Prop := name.rest = [] ∧ name.first.text = b.keyword

/-- **What a full name means**: a keyword its built-in type, another name what the forest declares under it, and else
what the name denotes outside, which may stand for a built-in type. -/
inductive Names (outside : Universe) (forest : List Tree) (name : QualifiedName) : Meaning → Prop
  | keyword {b : BuiltIn} : IsKeyword name b → Names outside forest name (.builtIn b)
  | declared {d : Declaration} : (∀ b, ¬ IsKeyword name b) → d ∈ declarationsOf forest → d.fullName = name →
      Names outside forest name (.declaration d)
  | alias {e : ExternalType} {b : BuiltIn} : (∀ b, ¬ IsKeyword name b) →
      (∀ d ∈ declarationsOf forest, d.fullName ≠ name) → outside.lookup name = some e → e.standsFor = some b →
      Names outside forest name (.builtIn b)
  | external {e : ExternalType} : (∀ b, ¬ IsKeyword name b) → (∀ d ∈ declarationsOf forest, d.fullName ≠ name) →
      outside.lookup name = some e → e.standsFor = none → Names outside forest name (.external e)

/-- **What a reference means where it is written**: what the first of its candidates means that means anything. -/
def Means (outside : Universe) (forest : List Tree) (s : Scope) (r : QualifiedName) (m : Meaning) : Prop :=
  ∃ before name after, s.candidates r = before ++ name :: after ∧ (∀ n ∈ before, ∀ m, ¬ Names outside forest n m) ∧
    Names outside forest name m

/-- **Values**: built-in types, enumerations, values, and what the outside calls a value type. -/
def IsValue (outside : Universe) : Meaning → Prop
  | .builtIn _ => True
  | .declaration d => d.kind = .externalEnum ∨ d.kind = .value
  | .external e => outside.isValueType e = true

/-- **Single values**: built-in types, enumerations, and values without properties that derive from a single value. -/
inductive IsScalar (outside : Universe) (forest : List Tree) : Meaning → Prop
  | builtIn (b : BuiltIn) : IsScalar outside forest (.builtIn b)
  | externalEnum {d : Declaration} : d.kind = .externalEnum → IsScalar outside forest (.declaration d)
  | value {d : Declaration} {base : QualifiedName} {m : Meaning} : d.kind = .value → d.hasProperties = false →
      d.base = some base → Means outside forest d.scope base m → IsScalar outside forest m →
      IsScalar outside forest (.declaration d)

/-- **A declaration derives from another**: its base, where it is written, means the other. -/
def DerivesFrom (outside : Universe) (forest : List Tree) (d b : Declaration) : Prop :=
  ∃ base, d.base = some base ∧ Means outside forest d.scope base (.declaration b)

section

variable {outside : Universe} {forest others : List Tree}

/-- **A full name means the same where the same declarations have it.** -/
theorem Names.of_same {name : QualifiedName}
    (h : ∀ d : Declaration, d.fullName = name → (d ∈ declarationsOf forest ↔ d ∈ declarationsOf others)) {m : Meaning}
    (hm : Names outside forest name m) : Names outside others name m := by
  have hnot : (∀ d ∈ declarationsOf forest, d.fullName ≠ name) → ∀ d ∈ declarationsOf others, d.fullName ≠ name :=
    fun hno d hd hn => hno d ((h d hn).2 hd) hn
  rcases hm with hb | ⟨hno, hd, hn⟩ | ⟨hno, hd, he, hs⟩ | ⟨hno, hd, he, hs⟩
  · exact .keyword hb
  · exact .declared hno ((h _ hn).1 hd) hn
  · exact .alias hno (hnot hd) he hs
  · exact .external hno (hnot hd) he hs

/-- **A reference depends on what its candidates name**, and on no other name. -/
theorem means_iff_of_candidates {s : Scope} {r : QualifiedName}
    (h : ∀ name ∈ s.candidates r, ∀ m, Names outside forest name m ↔ Names outside others name m) {m : Meaning} :
    Means outside forest s r m ↔ Means outside others s r m := by
  unfold Means
  refine exists_congr fun before => exists_congr fun name => exists_congr fun after => and_congr_right fun hc => ?_
  rw [hc] at h
  refine and_congr (forall₂_congr fun n hn => forall_congr' fun m => not_congr ?_) ?_
  · exact h n (List.mem_append_left _ hn) m
  · exact h name (List.mem_append_right _ List.mem_cons_self) m

theorem mem_of_means {s : Scope} {r : QualifiedName} {d : Declaration}
    (h : Means outside forest s r (.declaration d)) : d ∈ declarationsOf forest := by
  obtain ⟨_, _, _, -, -, hnames⟩ := h
  cases hnames with
  | declared _ hd _ => exact hd

end

/-! ## The table agrees -/

theorem declarationsOf_perm (forest : List Tree) : (Table.declared (Group.merge forest)).Perm (declarationsOf forest) := by
  rw [Group.declared_eq]
  exact (Group.places_merge_perm forest).filterMap _

theorem mem_declarationsOf_iff {forest : List Tree} {d : Declaration} :
    d ∈ declarationsOf forest ↔ ∃ s n, At forest s n ∧ n.declaration? s = some d := by
  rw [← (declarationsOf_perm forest).mem_iff, Group.mem_declared_iff]

theorem keyword_iff {name : QualifiedName} {b : BuiltIn} :
    (if name.rest.isEmpty then BuiltIn.ofKeyword? name.first.text else none) = some b ↔ IsKeyword name b := by
  unfold IsKeyword
  constructor
  · intro h
    split at h
    · rename_i hr
      exact ⟨List.isEmpty_iff.1 hr, (BuiltIn.keyword_of_ofKeyword? h).symm⟩
    · cases h
  · rintro ⟨hr, ht⟩
    rw [hr, ht, if_pos List.isEmpty_nil, BuiltIn.ofKeyword?_keyword]

end Source

namespace Table

open Source

variable {outside : Universe} {forest : List Tree}

/-- **The table of a forest without conflicts knows what full names mean.** -/
theorem resolve_eq_some_iff (h : Distinct (declarationsOf forest)) {name : QualifiedName} {m : Meaning} :
    (ofForest outside forest).resolve name = some m ↔ Names outside forest name m := by
  have hd : Distinct (declared (Group.merge forest)) := (Distinct.perm (declarationsOf_perm forest)).2 h
  have hfind : ∀ {d}, (ofForest outside forest).find? name = some d ↔ d ∈ declarationsOf forest ∧ d.fullName = name := by
    intro d
    rw [find?_ofForest_iff hd, (declarationsOf_perm forest).mem_iff]
  have hnone : (ofForest outside forest).find? name = none ↔ ∀ d ∈ declarationsOf forest, d.fullName ≠ name := by
    rw [Option.eq_none_iff_forall_ne_some]
    exact ⟨fun hn d hd he => hn d (hfind.2 ⟨hd, he⟩), fun hn d hd => hn d (hfind.1 hd).1 (hfind.1 hd).2⟩
  have hout : (ofForest outside forest).outside = outside := by rw [ofForest, ofGroups_of_distinct hd]
  -- The table asks in the order in which the constructors exclude each other: each answer rules the others out.
  unfold resolve
  rw [hout]
  cases hk : (if name.rest.isEmpty then BuiltIn.ofKeyword? name.first.text else none) with
  | some b =>
    have hb := keyword_iff.1 hk
    constructor
    · rintro ⟨⟩
      exact .keyword hb
    · rintro (hb' | ⟨hno, -⟩ | ⟨hno, -⟩ | ⟨hno, -⟩)
      · rw [keyword_iff.2 hb'] at hk
        exact congrArg (Option.map Meaning.builtIn) hk.symm
      all_goals exact absurd hb (hno b)
  | none =>
    have hno : ∀ b, ¬ IsKeyword name b := fun b hb => by rw [keyword_iff.2 hb] at hk; cases hk
    cases hf : (ofForest outside forest).find? name with
    | some d =>
      obtain ⟨hd, hn⟩ := hfind.1 hf
      constructor
      · rintro ⟨⟩
        exact .declared hno hd hn
      · rintro (hb | ⟨-, hd', hn'⟩ | ⟨-, hnot, -⟩ | ⟨-, hnot, -⟩)
        · exact absurd hb (hno _)
        · rw [h.eq hd hd' (hn.trans hn'.symm)]
        all_goals exact absurd hn (hnot d hd)
    | none =>
      have hnot := hnone.1 hf
      constructor
      · intro hm
        obtain ⟨e, he, hm⟩ := Option.map_eq_some_iff.1 hm
        cases hs : e.standsFor with
        | some b => rw [hs] at hm; subst hm; exact .alias hno hnot he hs
        | none => rw [hs] at hm; subst hm; exact .external hno hnot he hs
      · rintro (hb | ⟨-, hd, hn⟩ | ⟨-, -, he, hs⟩ | ⟨-, -, he, hs⟩)
        · exact absurd hb (hno _)
        · exact absurd hn (hnot _ hd)
        all_goals simp [he, hs]

/-- **The table of a forest without conflicts knows what references mean.** -/
theorem resolveIn_eq_some_iff (h : Distinct (declarationsOf forest)) {s : Scope} {r : QualifiedName} {m : Meaning} :
    (ofForest outside forest).resolveIn s r = some m ↔ Means outside forest s r m := by
  have hnone : ∀ n, (ofForest outside forest).resolve n = none ↔ ∀ m, ¬ Names outside forest n m := by
    intro n
    rw [Option.eq_none_iff_forall_ne_some]
    exact forall_congr' fun m => not_congr (resolve_eq_some_iff h)
  rw [resolveIn, Scope.resolve_eq, List.findSome?_eq_some_iff]
  simp only [resolve_eq_some_iff h, hnone, Means]
  constructor
  · rintro ⟨before, n, after, hc, hm, hb⟩
    exact ⟨before, n, after, hc, hb, hm⟩
  · rintro ⟨before, n, after, hc, hb, hm⟩
    exact ⟨before, n, after, hc, hm, hb⟩

/-- **A reference means one thing** in a forest without conflicts. -/
theorem means_unique (h : Distinct (declarationsOf forest)) {s : Scope} {r : QualifiedName} {m m' : Meaning}
    (hm : Means outside forest s r m) (hm' : Means outside forest s r m') : m = m' :=
  Option.some_inj.1 (((resolveIn_eq_some_iff h).2 hm).symm.trans ((resolveIn_eq_some_iff h).2 hm'))

theorem outside_ofForest (h : Distinct (declarationsOf forest)) : (ofForest outside forest).outside = outside := by
  rw [ofForest, ofGroups_of_distinct ((Distinct.perm (declarationsOf_perm forest)).2 h)]

theorem mem_declarations_ofForest (h : Distinct (declarationsOf forest)) {d : Declaration} :
    d ∈ (ofForest outside forest).declarations ↔ d ∈ declarationsOf forest := by
  rw [ofForest, ofGroups_of_distinct ((Distinct.perm (declarationsOf_perm forest)).2 h)]
  exact (declarationsOf_perm forest).mem_iff

theorem baseOf_eq_some_iff (h : Distinct (declarationsOf forest)) {d : Declaration} {m : Meaning} :
    (ofForest outside forest).baseOf d = some m ↔ ∃ base, d.base = some base ∧ Means outside forest d.scope base m := by
  rw [baseOf, Option.bind_eq_some_iff]
  exact exists_congr fun _ => and_congr_right' (resolveIn_eq_some_iff h)

theorem derives_iff (h : Distinct (declarationsOf forest)) {d b : Declaration} :
    (ofForest outside forest).Derives d b ↔ DerivesFrom outside forest d b := baseOf_eq_some_iff h

theorem isValue_ofForest_iff (h : Distinct (declarationsOf forest)) {m : Meaning} :
    (ofForest outside forest).isValue m = true ↔ IsValue outside m := by
  cases m with
  | builtIn => simp [isValue, IsValue]
  | declaration => simp [isValue, IsValue]
  | external => rw [isValue, outside_ofForest h]; exact Iff.rfl

/-- **The table's search for single values answers by their definition.** -/
theorem isScalar_ofForest_iff (h : Distinct (declarationsOf forest)) {m : Meaning} :
    (ofForest outside forest).isScalar m = true ↔ IsScalar outside forest m := by
  rw [isScalar_iff]
  constructor
  · intro hm
    induction hm with
    | builtIn b => exact .builtIn b
    | externalEnum hk => exact .externalEnum hk
    | value hk hp hb _ ih =>
      obtain ⟨base, hbase, hmeans⟩ := (baseOf_eq_some_iff h).1 hb
      exact .value hk hp hbase hmeans ih
  · intro hm
    induction hm with
    | builtIn b => exact .builtIn b
    | externalEnum hk => exact .externalEnum hk
    | value hk hp hbase hmeans _ ih => exact .value hk hp ((baseOf_eq_some_iff h).2 ⟨_, hbase, hmeans⟩) ih

end Table
end DomainModel
