import DomainModel.Name.Identifier
/-!
# Tag — named lists of pairs on a declaration

A tag annotates a declaration: it has a name and pairs of a key and a text.  `Tag.of` refuses a repeated key; the
record itself holds any pairs, since a stored tag is taken as it stands.
-/
namespace DomainModel

/-- A key with its text. -/
structure Pair where
  key : Identifier
  value : String
deriving DecidableEq, Repr

/-- **A tag**: its name and its pairs in source order. -/
structure Tag where
  name : Identifier
  pairs : List Pair
deriving DecidableEq, Repr

/-- **A key that a tag gives more than once.** -/
structure DuplicateKey where
  tag : Identifier
  key : Identifier
deriving DecidableEq, Repr

namespace DuplicateKey

def message (e : DuplicateKey) : String :=
  "annotation '" ++ e.tag.text ++ "' has more than one pair named '" ++ e.key.text ++ "'"

end DuplicateKey

namespace Tag

def marker (name : Identifier) : Tag := ⟨name, []⟩

/-- **No two pairs share a key.** -/
def DistinctKeys (t : Tag) : Prop := (t.pairs.map (·.key)).Nodup

/-- The first key that an earlier pair has, the earlier keys being given. -/
def firstRepeated (seen : List Identifier) : List Pair → Option Identifier
  | [] => none
  | p :: ps => if p.key ∈ seen then some p.key else firstRepeated (p.key :: seen) ps

/-- The tag of a name and pairs, if no key is repeated. -/
def of (name : Identifier) (pairs : List Pair) : Except DuplicateKey Tag :=
  match firstRepeated [] pairs with
  | none => .ok ⟨name, pairs⟩
  | some key => .error ⟨name, key⟩

/-- The first pair of a key, the key given as a text. -/
def pair? (t : Tag) (key : String) : Option Pair := t.pairs.find? fun p => p.key.text == key

def value? (t : Tag) (key : String) : Option String := (t.pair? key).map (·.value)

theorem firstRepeated_eq_none_iff : ∀ {seen : List Identifier} {ps : List Pair},
    firstRepeated seen ps = none ↔ (∀ p ∈ ps, p.key ∉ seen) ∧ (ps.map (·.key)).Nodup
  | seen, [] => by simp [firstRepeated]
  | seen, p :: ps => by
    unfold firstRepeated
    split
    · rename_i h; simp [h]
    · rename_i h
      rw [firstRepeated_eq_none_iff]
      simp only [List.mem_cons, not_or, forall_eq_or_imp, List.map_cons, List.nodup_cons, List.mem_map, not_exists,
        not_and]
      constructor
      · rintro ⟨h1, h2⟩
        exact ⟨⟨h, fun q hq => (h1 q hq).2⟩, fun q hq => (h1 q hq).1, h2⟩
      · rintro ⟨⟨-, h1⟩, h2, h3⟩
        exact ⟨fun q hq => ⟨h2 q hq, h1 q hq⟩, h3⟩

/-- **The builder gives every tag with distinct keys and no other.** -/
theorem of_eq_ok_iff {name : Identifier} {pairs : List Pair} {t : Tag} :
    of name pairs = .ok t ↔ t = ⟨name, pairs⟩ ∧ t.DistinctKeys := by
  unfold of
  split
  · rename_i h
    have := (firstRepeated_eq_none_iff.1 h).2
    constructor
    · intro h'; cases h'; exact ⟨rfl, this⟩
    · rintro ⟨rfl, -⟩; rfl
  · rename_i key h
    constructor
    · intro h'; cases h'
    · rintro ⟨rfl, h'⟩
      rw [firstRepeated_eq_none_iff.2 ⟨by simp, h'⟩] at h
      cases h

end Tag
end DomainModel
