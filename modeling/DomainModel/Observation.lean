/-!
# Observation — what is reported about a model

An observation is a message with the place it is about, when that is known.  A reader's failure knows its place only
when it knows both the line and the column.
-/
namespace DomainModel

/-- **A place in a source**; a source without a name is the input itself. -/
structure Location where
  source : Option String
  line : Nat
  column : Nat
deriving DecidableEq, Repr

namespace Location

/-- How a source without a name is written. -/
def unnamed : String := "\x7binput\x7d"

def text (l : Location) : String :=
  l.source.getD unnamed ++ ": line:" ++ toString l.line ++ ", column:" ++ toString l.column

end Location

/-- **A message and where it belongs.** -/
structure Observation where
  message : String
  location : Option Location
deriving DecidableEq, Repr

namespace Observation

def ofMessage (message : String) : Observation := ⟨message, none⟩

/-- The message, followed by its place in parentheses. -/
def text (o : Observation) : String :=
  match o.location with
  | none => o.message
  | some l => o.message ++ " (" ++ l.text ++ ")"

/-- The texts of observations, one a line. -/
def display (os : List Observation) : String := "\n".intercalate (os.map text)

def more (count : Nat) : Observation := ofMessage ("... and " ++ toString count ++ " more observations")

/-- **At most so many observations**: the first `limit` and a note on the others; a limit of zero is none. -/
def limited (limit : Nat) (os : List Observation) : List Observation :=
  if limit = 0 ∨ os.length ≤ limit then os else os.take limit ++ [more (os.length - limit)]

@[simp] theorem limited_zero (os : List Observation) : limited 0 os = os := by simp [limited]

theorem limited_eq_nil_iff {limit : Nat} {os : List Observation} : limited limit os = [] ↔ os = [] := by
  unfold limited
  split
  · exact Iff.rfl
  · rename_i h
    constructor
    · intro h'; simp at h'
    · rintro rfl; simp at h

end Observation

/-- **What a reader reports of a text it refuses.** -/
structure ReadFailure where
  message : String
  source : Option String
  line : Option Nat
  column : Option Nat
deriving DecidableEq, Repr

namespace ReadFailure

def located (message : String) (line column : Nat) : ReadFailure := ⟨message, none, some line, some column⟩

/-- The place, known when the line and the column are. -/
def location (f : ReadFailure) : Option Location :=
  match f.line, f.column with
  | some line, some column => some ⟨f.source, line, column⟩
  | _, _ => none

def observation (f : ReadFailure) : Observation := ⟨f.message, f.location⟩

/-- The message, followed by its place if that is known. -/
def text (f : ReadFailure) : String := f.observation.text

/-- The same failure in the named source, unless it names one already. -/
def within (source : Option String) (f : ReadFailure) : ReadFailure := { f with source := f.source <|> source }

end ReadFailure
end DomainModel
