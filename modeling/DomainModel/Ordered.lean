/-!
# Ordered — lists kept in the order of a key

`insertByKey` puts an entry where its key belongs and keeps the entry that has the key already; `orderedBy` builds the
list in key order, one entry a key.
-/
namespace DomainModel

/-- **Put an entry at the place of its key**; a key that is there keeps its first entry. -/
def insertByKey {α κ : Type} [Ord κ] (key : α → κ) (x : α) : List α → List α
  | [] => [x]
  | y :: ys =>
    match compare (key x) (key y) with
    | .lt => x :: y :: ys
    | .eq => y :: ys
    | .gt => y :: insertByKey key x ys

/-- The entries in the order of their keys, the first of each key. -/
def orderedBy {α κ : Type} [Ord κ] (key : α → κ) (xs : List α) : List α :=
  xs.foldl (fun ys x => insertByKey key x ys) []

end DomainModel
