import DomainModel.Observation
/-!
# Report — observations gathered in order

A report only grows: each operation puts observations after those it has.
-/
namespace DomainModel

/-- **The observations so far**, the oldest first. -/
structure Report where
  observations : List Observation
deriving DecidableEq, Repr

namespace Report

def empty : Report := ⟨[]⟩

instance : Inhabited Report := ⟨empty⟩

def push (r : Report) (o : Observation) : Report := ⟨r.observations ++ [o]⟩

/-- Several observations more, in order. -/
def extend (r : Report) (os : List Observation) : Report := ⟨r.observations ++ os⟩

def fail (r : Report) (message : String) : Report := r.push (.ofMessage message)

/-- **A message, built only if the condition holds.** -/
def failIf (r : Report) (condition : Bool) (message : Unit → String) : Report :=
  if condition then r.fail (message ()) else r

def size (r : Report) : Nat := r.observations.length

def isEmpty (r : Report) : Bool := r.observations.isEmpty

def texts (r : Report) : List String := r.observations.map (·.text)

def limited (r : Report) (limit : Nat) : List Observation := Observation.limited limit r.observations

@[simp] theorem observations_push (r : Report) (o : Observation) :
    (r.push o).observations = r.observations ++ [o] := rfl

@[simp] theorem observations_extend (r : Report) (os : List Observation) :
    (r.extend os).observations = r.observations ++ os := rfl

end Report
end DomainModel
