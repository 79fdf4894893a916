import DomainModel.Lookup.Type
/-!
# Store — lookups that are resolved when first read

A lookup holds a resolver until it is read for the first time; reading takes the resolver away, runs it once and keeps
the answer.  A resolver may read other lookups of the store.  A lookup that is read while its own resolver runs is
refused, and so is every read that waits for it: those lookups have lost their resolvers and stay without an answer.
-/
namespace DomainModel

/-- **How a lookup finds its answer.** -/
inductive Resolver where
  /-- The answer is known. -/
  | known (answer : Option TypeRef)
  /-- Read another lookup and go on by what it answers. -/
  | ask (target : Nat) (next : Option TypeRef → Resolver)

namespace Resolver

/-- The answer of another lookup; where that has none, the one given. -/
def via (target : Nat) (otherwise : Option TypeRef) : Resolver := ask target fun found => known (found <|> otherwise)

end Resolver

/-- **What a lookup holds.** -/
inductive LookupState where
  /-- The resolver, which has not run. -/
  | pending (resolver : Resolver)
  /-- Nothing: the resolver runs, or it did not come to an end. -/
  | taken
  /-- The answer. -/
  | resolved (answer : Option TypeRef)

/-- A lookup and how often its resolver was started. -/
structure Lookup where
  state : LookupState
  runs : Nat

namespace Lookup

def ofAnswer (answer : Option TypeRef) : Lookup := ⟨.resolved answer, 0⟩

def deferred (resolver : Resolver) : Lookup := ⟨.pending resolver, 0⟩

def isResolved (l : Lookup) : Bool :=
  match l.state with
  | .resolved _ => true
  | _ => false

def inspect (l : Lookup) : String :=
  match l.state with
  | .resolved none => "TypeLookup(None)"
  | .resolved (some t) => "TypeLookup(Some(" ++ t.inspect ++ "))"
  | _ => "TypeLookup(<pending>)"

end Lookup

/-- **What a read gives.** -/
inductive Reading where
  /-- The answer, which may be that the reference names nothing. -/
  | answer (type : Option TypeRef)
  /-- The lookup was being resolved, or its resolver did not come to an end. -/
  | refused
deriving DecidableEq, Repr

namespace Reading

/-- What a refused read is stopped with. -/
def refusal : String := "type lookup read while it was being resolved"

end Reading

/-- **Lookups by number.** -/
structure LookupStore where
  lookups : List Lookup

namespace LookupStore

def size (s : LookupStore) : Nat := s.lookups.length

def get? (s : LookupStore) (i : Nat) : Option Lookup := s.lookups[i]?

def set (s : LookupStore) (i : Nat) (l : Lookup) : LookupStore := ⟨s.lookups.set i l⟩

/-- **Run a resolver**, given how a lookup is read.  A refused read ends it. -/
def resolve (read : LookupStore → Nat → Reading × LookupStore) (s : LookupStore) : Resolver → Reading × LookupStore
  | .known answer => (.answer answer, s)
  | .ask target next =>
    match read s target with
    | (.refused, s) => (.refused, s)
    | (.answer found, s) => resolve read s (next found)

/-- A read below which resolvers wait for each other at most `fuel` deep. -/
def readWithin : Nat → LookupStore → Nat → Reading × LookupStore
  | 0, s, _ => (.refused, s)
  | fuel + 1, s, i =>
    match s.get? i with
    | none => (.answer none, s)
    | some ⟨.resolved answer, _⟩ => (.answer answer, s)
    | some ⟨.taken, _⟩ => (.refused, s)
    | some ⟨.pending resolver, runs⟩ =>
      match resolve (readWithin fuel) (s.set i ⟨.taken, runs + 1⟩) resolver with
      | (.refused, s) => (.refused, s)
      | (.answer found, s) => (.answer found, s.set i ⟨.resolved found, runs + 1⟩)

/-- **Read a lookup**: its answer, or a refusal, and the store afterwards.  A resolver that waits is one of the resolvers
taken, so as many levels as lookups and one more suffice. -/
def read (s : LookupStore) (i : Nat) : Reading × LookupStore := s.readWithin (s.size + 1) i

def readAll (s : LookupStore) (is : List Nat) : LookupStore := is.foldl (fun s i => (s.read i).2) s

theorem get?_set (s : LookupStore) (i j : Nat) (l : Lookup) :
    (s.set i l).get? j = if i = j then (s.get? j).map fun _ => l else s.get? j := by
  unfold set get?
  rw [List.getElem?_set]
  by_cases h : i = j
  · subst h
    by_cases hi : i < s.lookups.length <;> simp [hi]
  · simp [h]

/-- **A lookup with its answer gives it and changes nothing.** -/
theorem read_resolved {s : LookupStore} {i runs : Nat} {answer : Option TypeRef}
    (h : s.get? i = some ⟨.resolved answer, runs⟩) : s.read i = (.answer answer, s) := by
  simp [read, readWithin, h]

end LookupStore
end DomainModel
