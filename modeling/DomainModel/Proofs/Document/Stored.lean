import DomainModel.Document.Stored
import Mathlib.Data.List.Forall2
/-!
# Stored — which values documents are read as

A name is read from its written form alone, so reading one is the check of its text.  The bounds of a range and the pairs
of a tag are read field by field, and nothing looks at them together: whatever bounds there are and whatever keys, they
are stored and read back, though a builder gives valid ranges and distinct keys only (`names_alone_are_checked`).
-/
namespace DomainModel

variable {d : Document}

namespace Document

theorem text?_eq_some_iff {t : String} : d.text? = some t ↔ d = .text t := by
  cases d <;> simp [text?]

theorem items?_eq_some_iff {ds : List Document} : d.items? = some ds ↔ d = .array ds := by
  cases d <;> simp [items?]

/-- **A count is stored as its number.** -/
theorem count?_eq_some_iff {n : UInt32} : d.count? = some n ↔ d = .integer n.toNat := by
  cases d with
  | integer k =>
    rw [count?, integer.injEq]
    have hn := n.toNat_lt
    split
    · rename_i hk
      obtain ⟨k, rfl⟩ := Int.eq_ofNat_of_zero_le hk.1
      have hk' : k < 2 ^ 32 := by omega
      rw [Option.some_inj, Int.toNat_natCast, ← UInt32.toNat_inj, UInt32.toNat_ofNat_of_lt' hk', Int.natCast_inj]
    · rename_i hk
      refine iff_of_false nofun fun h => hk ?_
      omega
  | null | bool | decimal | text | array | object => simp [count?]

theorem mapM_eq_some_iff {α β : Type} {f : α → Option β} : ∀ {as : List α} {bs : List β},
    as.mapM f = some bs ↔ List.Forall₂ (fun a b => f a = some b) as bs
  | [], bs => by simp [eq_comm]
  | a :: as, bs => by
    rw [List.mapM_cons, List.forall₂_cons_left_iff]
    cases ha : f a with
    | none => simp
    | some b =>
      cases has : as.mapM f with
      | none =>
        refine iff_of_false nofun ?_
        rintro ⟨_, bs', -, hrest, -⟩
        rw [mapM_eq_some_iff.2 hrest] at has
        cases has
      | some bs' =>
        have hrest := mapM_eq_some_iff.1 has
        constructor
        · intro h
          cases h
          exact ⟨b, bs', rfl, hrest, rfl⟩
        · rintro ⟨_, bs'', hb, hrest', rfl⟩
          cases hb
          rw [mapM_eq_some_iff.2 hrest'] at has
          cases has
          rfl

theorem toOption_eq_some_iff {ε α : Type} {x : Except ε α} {a : α} : x.toOption = some a ↔ x = .ok a := by
  cases x <;> simp [Except.toOption]

end Document

open Document (text?_eq_some_iff items?_eq_some_iff count?_eq_some_iff mapM_eq_some_iff toOption_eq_some_iff)

/-! ## Names -/

/-- **An identifier is read from its text and from nothing else.** -/
theorem Identifier.ofDocument?_eq_some_iff {i : Identifier} : ofDocument? d = some i ↔ d = i.toDocument := by
  unfold ofDocument? toDocument
  rw [Option.bind_eq_some_iff]
  constructor
  · rintro ⟨t, ht, hi⟩
    rw [text?_eq_some_iff.1 ht, parse_eq_ok_iff.1 (toOption_eq_some_iff.1 hi)]
  · rintro rfl
    exact ⟨i.text, rfl, toOption_eq_some_iff.2 i.parse_text⟩

/-- The text that an identifier is read from passes its check. -/
theorem Identifier.ofDocument?_eq_some_iff_checked {i : Identifier} : ofDocument? d = some i ↔
    ∃ text, d = .text text ∧ isToken text = true ∧ parse text = .ok i := by
  rw [ofDocument?_eq_some_iff]
  constructor
  · rintro rfl
    exact ⟨i.text, rfl, i.valid, i.parse_text⟩
  · rintro ⟨text, rfl, -, hi⟩
    rw [← parse_eq_ok_iff.1 hi]
    rfl

/-- **A chain is read from its written form and from nothing else.** -/
theorem QualifiedName.ofDocument?_eq_some_iff {n : QualifiedName} : ofDocument? d = some n ↔ d = n.toDocument := by
  unfold ofDocument? toDocument
  rw [Option.bind_eq_some_iff]
  constructor
  · rintro ⟨t, ht, hn⟩
    rw [text?_eq_some_iff.1 ht, parse_eq_ok_iff.1 (toOption_eq_some_iff.1 hn)]
  · rintro rfl
    exact ⟨n.text, rfl, toOption_eq_some_iff.2 n.parse_text⟩

/-- The chain that is read from a text has a segment, and all its segments are identifiers. -/
theorem QualifiedName.ofDocument?_eq_some_iff_checked {n : QualifiedName} : ofDocument? d = some n ↔
    ∃ text, d = .text text ∧ n.segments ≠ [] ∧ (∀ i ∈ n.segments, isToken i.text = true) ∧ parse text = .ok n := by
  rw [ofDocument?_eq_some_iff]
  constructor
  · rintro rfl
    exact ⟨n.text, rfl, n.segments_ne_nil, fun i _ => i.valid, n.parse_text⟩
  · rintro ⟨text, rfl, -, -, hn⟩
    rw [← parse_eq_ok_iff.1 hn]
    rfl

/-! ## Records -/

namespace Cardinality

/-- **A range is read from a record of its bounds, whatever they are.** -/
theorem ofDocument?_eq_some_iff {c : Cardinality} : ofDocument? d = some c ↔ ∃ maximum,
    d.record? ["minimum", "maximum"] = some [some (.integer c.minimum.toNat), maximum] ∧
      maximumOf? maximum = some c.maximum := by
  unfold ofDocument?
  split
  · rename_i minimum maximum hrecord
    rw [hrecord]
    constructor
    · intro h
      obtain ⟨min, hmin, h⟩ := Option.bind_eq_some_iff.1 h
      obtain ⟨max, hmax, h⟩ := Option.bind_eq_some_iff.1 h
      cases h
      rw [count?_eq_some_iff.1 hmin]
      exact ⟨maximum, rfl, hmax⟩
    · rintro ⟨_, h, hmax⟩
      cases h
      have hmin : (Document.integer c.minimum.toNat).count? = some c.minimum := count?_eq_some_iff.2 rfl
      simp [hmin, hmax]
  · rename_i hno
    refine iff_of_false nofun ?_
    rintro ⟨maximum, h, -⟩
    exact hno _ _ h

/-- An upper bound is read from its number. -/
theorem maximumOf?_eq_some_some_iff {o : Option Document} {max : UInt32} :
    maximumOf? o = some (some max) ↔ o = some (.integer max.toNat) := by
  unfold maximumOf?
  split
  · simp
  · simp
  · rw [Option.map_eq_some_iff]
    simp [count?_eq_some_iff]

/-- **Every range is read from its stored form**, valid or not. -/
theorem ofDocument?_toDocument (c : Cardinality) : ofDocument? c.toDocument = some c := by
  obtain ⟨minimum, maximum⟩ := c
  cases maximum with
  | none => exact ofDocument?_eq_some_iff.2 ⟨some .null, rfl, rfl⟩
  | some max => exact ofDocument?_eq_some_iff.2 ⟨some (.integer max.toNat), rfl, maximumOf?_eq_some_some_iff.2 rfl⟩

/-- The builder gives the valid ranges. -/
theorem exists_of_eq_ok_iff {c : Cardinality} : (∃ minimum maximum, of minimum maximum = .ok c) ↔ c.IsValid := by
  constructor
  · rintro ⟨_, _, h⟩
    exact (of_eq_ok_iff.1 h).2
  · intro h
    exact ⟨c.minimum, c.maximum, of_eq_ok_iff.2 ⟨rfl, h⟩⟩

/-- **The range that is read is valid if the bounds of the record are.** -/
theorem forall_isValid_iff : (∀ c, ofDocument? d = some c → c.IsValid) ↔ ∀ minimum maximum : UInt32,
    d.record? ["minimum", "maximum"] = some [some (.integer minimum.toNat), some (.integer maximum.toNat)] →
      maximum ≠ 0 ∧ minimum ≤ maximum := by
  constructor
  · intro h minimum maximum hrecord
    have hread : ofDocument? d = some ⟨minimum, some maximum⟩ :=
      ofDocument?_eq_some_iff.2 ⟨_, hrecord, maximumOf?_eq_some_some_iff.2 rfl⟩
    exact h _ hread maximum rfl
  · intro h c hc max hmax
    obtain ⟨maximum, hrecord, hread⟩ := ofDocument?_eq_some_iff.1 hc
    rw [hmax] at hread
    rw [maximumOf?_eq_some_some_iff.1 hread] at hrecord
    exact h c.minimum max hrecord

end Cardinality

namespace Pair

theorem ofDocument?_eq_some_iff {p : Pair} : ofDocument? d = some p ↔
    d.record? ["name", "value"] = some [some p.key.toDocument, some (.text p.value)] := by
  unfold ofDocument?
  split
  · rename_i name value hrecord
    rw [hrecord]
    constructor
    · intro h
      obtain ⟨key, hkey, h⟩ := Option.bind_eq_some_iff.1 h
      obtain ⟨text, htext, h⟩ := Option.bind_eq_some_iff.1 h
      cases h
      rw [Identifier.ofDocument?_eq_some_iff.1 hkey, text?_eq_some_iff.1 htext]
    · intro h
      cases h
      simp [Identifier.ofDocument?_eq_some_iff.2 rfl, Document.text?]
  · rename_i hno
    exact iff_of_false nofun fun h => hno _ _ h

theorem ofDocument?_toDocument (p : Pair) : ofDocument? p.toDocument = some p := ofDocument?_eq_some_iff.2 rfl

end Pair

namespace Tag

/-- **A tag is read from a record of its name and its pairs, whatever their keys are.** -/
theorem ofDocument?_eq_some_iff {t : Tag} : ofDocument? d = some t ↔ ∃ items,
    d.record? ["name", "pairs"] = some [some t.name.toDocument, some (.array items)] ∧
      List.Forall₂ (fun item p => Pair.ofDocument? item = some p) items t.pairs := by
  unfold ofDocument?
  split
  · rename_i name pairs hrecord
    rw [hrecord]
    constructor
    · intro h
      obtain ⟨key, hkey, h⟩ := Option.bind_eq_some_iff.1 h
      obtain ⟨items, hitems, h⟩ := Option.bind_eq_some_iff.1 h
      obtain ⟨ps, hps, h⟩ := Option.bind_eq_some_iff.1 h
      cases h
      rw [Identifier.ofDocument?_eq_some_iff.1 hkey, items?_eq_some_iff.1 hitems]
      exact ⟨items, rfl, mapM_eq_some_iff.1 hps⟩
    · rintro ⟨items, h, hps⟩
      cases h
      simp [Identifier.ofDocument?_eq_some_iff.2 rfl, Document.items?, mapM_eq_some_iff.2 hps]
  · rename_i hno
    refine iff_of_false nofun ?_
    rintro ⟨items, h, -⟩
    exact hno _ _ h

/-- **Every tag is read from its stored form**, whatever its keys. -/
theorem ofDocument?_toDocument (t : Tag) : ofDocument? t.toDocument = some t := by
  refine ofDocument?_eq_some_iff.2 ⟨_, rfl, ?_⟩
  rw [List.forall₂_map_left_iff]
  exact List.forall₂_same.2 fun p _ => p.ofDocument?_toDocument

/-- The builder gives the tags with distinct keys. -/
theorem exists_of_eq_ok_iff {t : Tag} : (∃ name pairs, of name pairs = .ok t) ↔ t.DistinctKeys := by
  constructor
  · rintro ⟨_, _, h⟩
    exact (of_eq_ok_iff.1 h).2
  · intro h
    exact ⟨t.name, t.pairs, of_eq_ok_iff.2 ⟨rfl, h⟩⟩

/-- **The tag that is read has distinct keys if the pairs of the record do.** -/
theorem forall_distinctKeys_iff : (∀ t, ofDocument? d = some t → t.DistinctKeys) ↔
    ∀ (name : Identifier) items pairs,
      d.record? ["name", "pairs"] = some [some name.toDocument, some (.array items)] →
        List.Forall₂ (fun item p => Pair.ofDocument? item = some p) items pairs → (pairs.map (·.key)).Nodup := by
  constructor
  · intro h name items pairs hrecord hps
    exact h ⟨name, pairs⟩ (ofDocument?_eq_some_iff.2 ⟨items, hrecord, hps⟩)
  · intro h t ht
    obtain ⟨items, hrecord, hps⟩ := ofDocument?_eq_some_iff.1 ht
    exact h t.name items t.pairs hrecord hps

end Tag

/-! ## What is checked -/

/-- **Of what is read from a document, names alone are checked.**  What is read could have been built if the document
itself gives valid bounds or distinct keys. -/
theorem names_alone_are_checked (d : Document) :
    -- An identifier is read from a text that its check accepts,
    (∀ i, Identifier.ofDocument? d = some i ↔
      ∃ text, d = .text text ∧ isToken text = true ∧ Identifier.parse text = .ok i) ∧
    -- and so is a chain, which has a segment;
    (∀ n, QualifiedName.ofDocument? d = some n ↔ ∃ text, d = .text text ∧ n.segments ≠ [] ∧
      (∀ i ∈ n.segments, isToken i.text = true) ∧ QualifiedName.parse text = .ok n) ∧
    -- the key of a pair and the name of a tag are read so, and the pairs of a tag one by one.
    (∀ p, Pair.ofDocument? d = some p ↔ ∃ key, d.record? ["name", "value"] = some [some key, some (.text p.value)] ∧
      Identifier.ofDocument? key = some p.key) ∧
    (∀ t, Tag.ofDocument? d = some t ↔ ∃ name items,
      d.record? ["name", "pairs"] = some [some name, some (.array items)] ∧ Identifier.ofDocument? name = some t.name ∧
        List.Forall₂ (fun item p => Pair.ofDocument? item = some p) items t.pairs) ∧
    -- A builder gives the range if the upper bound, where there is one, is no zero and not below the lower,
    ((∀ c, Cardinality.ofDocument? d = some c → ∃ minimum maximum, Cardinality.of minimum maximum = .ok c) ↔
      ∀ minimum maximum : UInt32, d.record? ["minimum", "maximum"] =
          some [some (.integer minimum.toNat), some (.integer maximum.toNat)] →
        maximum ≠ 0 ∧ minimum ≤ maximum) ∧
    -- and the tag if no two of its pairs have one key.
    ((∀ t, Tag.ofDocument? d = some t → ∃ name pairs, Tag.of name pairs = .ok t) ↔
      ∀ (name : Identifier) items pairs, d.record? ["name", "pairs"] = some [some name.toDocument, some (.array items)] →
        List.Forall₂ (fun item p => Pair.ofDocument? item = some p) items pairs → (pairs.map (·.key)).Nodup) := by
  refine ⟨fun i => Identifier.ofDocument?_eq_some_iff_checked, fun n => QualifiedName.ofDocument?_eq_some_iff_checked,
    fun p => ?pair, fun t => ?tag, ?range, ?keys⟩
  case pair =>
    rw [Pair.ofDocument?_eq_some_iff]
    simp only [Identifier.ofDocument?_eq_some_iff, exists_eq_right]
  case tag =>
    rw [Tag.ofDocument?_eq_some_iff]
    constructor
    · rintro ⟨items, hrecord, hps⟩
      exact ⟨_, items, hrecord, Identifier.ofDocument?_eq_some_iff.2 rfl, hps⟩
    · rintro ⟨name, items, hrecord, hname, hps⟩
      rw [Identifier.ofDocument?_eq_some_iff.1 hname] at hrecord
      exact ⟨items, hrecord, hps⟩
  case range =>
    simp only [Cardinality.exists_of_eq_ok_iff]
    exact Cardinality.forall_isValid_iff
  case keys =>
    simp only [Tag.exists_of_eq_ok_iff]
    exact Tag.forall_distinctKeys_iff

/-- A range that ends before it begins is read, and a tag that gives a key twice. -/
theorem unbuildable_values_are_read :
    (∃ c, Cardinality.ofDocument? (.object [("minimum", .integer 2), ("maximum", .integer 1)]) = some c ∧
      ¬ ∃ minimum maximum, Cardinality.of minimum maximum = .ok c) ∧
    ∃ t, Tag.ofDocument? (.object [("name", .text "a"), ("pairs", .array
        [.object [("name", .text "k"), ("value", .text "1")], .object [("name", .text "k"), ("value", .text "2")]])]) =
        some t ∧
      ¬ ∃ name pairs, Tag.of name pairs = .ok t := by
  constructor
  · refine ⟨⟨2, some 1⟩, rfl, ?_⟩
    rw [Cardinality.exists_of_eq_ok_iff]
    decide
  · refine ⟨⟨⟨"a", by decide⟩, [⟨⟨"k", by decide⟩, "1"⟩, ⟨⟨"k", by decide⟩, "2"⟩]⟩, by decide, ?_⟩
    rw [Tag.exists_of_eq_ok_iff, Tag.DistinctKeys]
    decide

end DomainModel
