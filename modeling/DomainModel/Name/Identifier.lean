import DomainModel.Text.Blank
/-!
# Identifier — one segment of a name

A letter followed by letters and digits, all of them ASCII; case counts.  `Identifier.parse` accepts exactly these
texts and says why it refuses another.
-/
namespace DomainModel

/-- **Why a text is no name.** -/
inductive NameError where
  /-- The text is empty or blank. -/
  | empty
  /-- The text, or a segment of it, is not a letter followed by letters or digits. -/
  | invalid (text : String)
  /-- A dotted name was to be made of no segments. -/
  | emptyChain
deriving DecidableEq, Repr

namespace NameError

def message : NameError → String
  | .empty => "an identifier cannot be empty"
  | .invalid text => "`" ++ text ++ "` is not a valid identifier; expected a letter followed by letters or digits"
  | .emptyChain => "a qualified identifier needs at least one segment"

end NameError

/-- **The pattern of an identifier**: an ASCII letter, then ASCII letters and digits. -/
def isToken (text : String) : Bool :=
  match text.toList with
  | [] => false
  | c :: cs => c.isAlpha && cs.all Char.isAlphanum

/-- A text of the pattern. -/
structure Identifier where
  text : String
  valid : isToken text = true
deriving DecidableEq, Repr

namespace Identifier

@[ext] theorem ext {a b : Identifier} (h : a.text = b.text) : a = b := by
  cases a; cases b; cases h; rfl

/-- Read a text: a blank one is empty, any other must have the pattern. -/
def parse (text : String) : Except NameError Identifier :=
  if Text.isBlankText text then .error .empty
  else if h : isToken text = true then .ok ⟨text, h⟩
  else .error (.invalid text)

def inspect (i : Identifier) : String := "Identifier(\"" ++ i.text ++ "\")"

instance : ToString Identifier := ⟨text⟩

/-- Identifiers are ordered by their texts, byte by byte. -/
instance : Ord Identifier := ⟨fun a b => compare a.text b.text⟩

theorem isBlank_of_isAlphanum {c : Char} (h : c.isAlphanum = true) : Text.isBlank c = false := by
  have hc : c.toNat ≤ 122 ∧ 48 ≤ c.toNat := by
    unfold Char.isAlphanum Char.isAlpha Char.isUpper Char.isLower Char.isDigit at h
    simp only [Bool.or_eq_true, Bool.and_eq_true, decide_eq_true_eq, ge_iff_le, UInt32.le_iff_toNat_le] at h
    simp at h
    omega
  simp only [Text.isBlank, Text.blankRanges, List.any_cons, List.any_nil, Bool.or_false, Bool.or_eq_false_iff,
    Bool.and_eq_false_iff, decide_eq_false_iff_not]
  omega

theorem isBlankText_of_isToken {text : String} (h : isToken text = true) : Text.isBlankText text = false := by
  unfold isToken at h
  unfold Text.isBlankText
  cases hl : text.toList with
  | nil => simp [hl] at h
  | cons c cs =>
    rw [hl] at h
    simp only [Bool.and_eq_true] at h
    have : c.isAlphanum = true := by simp [Char.isAlphanum, h.1]
    simp [isBlank_of_isAlphanum this]

/-- **An identifier's text reads back as it.** -/
theorem parse_text (i : Identifier) : parse i.text = .ok i := by
  unfold parse
  rw [isBlankText_of_isToken i.valid]
  simp [i.valid]

/-- **Reading accepts a text exactly when it has the pattern**, and keeps it. -/
theorem parse_eq_ok_iff {text : String} {i : Identifier} : parse text = .ok i ↔ i.text = text := by
  constructor
  · intro h
    unfold parse at h
    split at h
    · cases h
    · split at h
      · cases h; rfl
      · cases h
  · rintro rfl
    exact parse_text i

end Identifier
end DomainModel
