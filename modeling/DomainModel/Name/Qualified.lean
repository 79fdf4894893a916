import DomainModel.Name.Identifier
import DomainModel.Text.Pieces
/-!
# Qualified — dotted names

A qualified name is a chain of at least one identifier.  It is written with a dot between neighbours, and the written
form reads back as the chain (`parse_text`).  Chains are compared, extended and shortened by segments, never by
text: `Foo.Bar` is no start of `Foo.Barn`.
-/
namespace DomainModel

/-- **A dotted name**: its first segment and the segments after it. -/
structure QualifiedName where
  first : Identifier
  rest : List Identifier
deriving DecidableEq, Repr

namespace QualifiedName

/-- All the segments, never none. -/
def segments (n : QualifiedName) : List Identifier := n.first :: n.rest

@[ext] theorem ext {a b : QualifiedName} (h : a.segments = b.segments) : a = b := by
  cases a; cases b
  simp only [segments, List.cons.injEq] at h
  obtain ⟨rfl, rfl⟩ := h
  rfl

def single (i : Identifier) : QualifiedName := ⟨i, []⟩

/-- The chain of the given segments; none when there is no segment. -/
def ofSegments : List Identifier → Except NameError QualifiedName
  | [] => .error .emptyChain
  | i :: is => .ok ⟨i, is⟩

/-- **Read a dotted text**: a blank text is empty; else the first bad segment from the left gives its error. -/
def parse (text : String) : Except NameError QualifiedName :=
  if Text.isBlankText text then .error .empty
  else do
    let (w, ws) := Text.cut (· == '.') text.toList
    let first ← Identifier.parse (String.ofList w)
    let rest ← ws.mapM fun w => Identifier.parse (String.ofList w)
    return ⟨first, rest⟩

/-- The written form: the segments with a dot between neighbours. -/
def text (n : QualifiedName) : String :=
  String.ofList (Text.join '.' n.first.text.toList (n.rest.map (·.text.toList)))

instance : ToString QualifiedName := ⟨text⟩

def inspect (n : QualifiedName) : String := "QualifiedIdentifier(\"" ++ n.text ++ "\")"

/-- The number of segments, at least one. -/
def size (n : QualifiedName) : Nat := n.segments.length

/-- The size of the longest of several chains, zero for none. -/
def longest (names : List QualifiedName) : Nat := (names.map (·.size)).foldr max 0

/-- The last segment: the short name. -/
def last (n : QualifiedName) : Identifier := n.rest.getLastD n.first

/-- The chain of the first `k + 1` segments. -/
def take (n : QualifiedName) (k : Nat) : QualifiedName := ⟨n.first, n.rest.take k⟩

/-- The chain without its last segment; none for a chain of one. -/
def parent (n : QualifiedName) : Option QualifiedName :=
  if n.rest.isEmpty then none else some ⟨n.first, n.rest.dropLast⟩

/-- **The proper beginnings of a chain**, the longest first. -/
def ancestors (n : QualifiedName) : List QualifiedName :=
  (List.range n.rest.length).reverse.map n.take

def child (n : QualifiedName) (i : Identifier) : QualifiedName := ⟨n.first, n.rest ++ [i]⟩

def join (a b : QualifiedName) : QualifiedName := ⟨a.first, a.rest ++ b.segments⟩

/-- The second chain is a beginning of the first, segment by segment. -/
def startsWith (a b : QualifiedName) : Bool := b.segments.isPrefixOf a.segments

def startsWithSegment (a : QualifiedName) (i : Identifier) : Bool := a.first == i

/-- The chain is what a raw text spells: the pieces of the text between dots are its segments. -/
def spells (n : QualifiedName) (text : String) : Bool :=
  (Text.pieces (· == '.') text.toList).map String.ofList == n.segments.map (·.text)

/-- A name under the full name of what encloses it, if anything does. -/
def under (outer : Option QualifiedName) (n : QualifiedName) : QualifiedName :=
  match outer with
  | none => n
  | some o => o.join n

/-- Chains are ordered by their segments; a beginning comes before the longer chain. -/
instance : Ord QualifiedName := ⟨fun a b => compare a.segments b.segments⟩

instance : HAdd QualifiedName QualifiedName QualifiedName := ⟨join⟩

instance : HAdd QualifiedName Identifier QualifiedName := ⟨child⟩

@[simp] theorem segments_single (i : Identifier) : (single i).segments = [i] := rfl

@[simp] theorem segments_child (n : QualifiedName) (i : Identifier) : (n.child i).segments = n.segments ++ [i] := rfl

@[simp] theorem segments_join (a b : QualifiedName) : (a.join b).segments = a.segments ++ b.segments := rfl

@[simp] theorem segments_take (n : QualifiedName) (k : Nat) : (n.take k).segments = n.segments.take (k + 1) := rfl

theorem segments_ne_nil (n : QualifiedName) : n.segments ≠ [] := by simp [segments]

theorem child_eq_join (n : QualifiedName) (i : Identifier) : n.child i = n.join (single i) := rfl

theorem join_assoc (a b c : QualifiedName) : (a.join b).join c = a.join (b.join c) :=
  QualifiedName.ext (by simp)

theorem startsWith_iff {a b : QualifiedName} : a.startsWith b = true ↔ b.segments <+: a.segments := by
  simp [startsWith]

theorem last_eq (n : QualifiedName) : n.last = n.segments.getLast n.segments_ne_nil := by
  obtain ⟨first, rest⟩ := n
  cases rest with
  | nil => rfl
  | cons i is => simp [last, segments, List.getLastD_eq_getLast?, List.getLast?_eq_some_getLast]

@[simp] theorem last_child (n : QualifiedName) (i : Identifier) : (n.child i).last = i := by
  simp [last_eq]

theorem size_le_longest {n : QualifiedName} : ∀ {names : List QualifiedName}, n ∈ names → n.size ≤ longest names
  | [], h => by cases h
  | m :: names, h => by
    rw [longest, List.map_cons, List.foldr_cons]
    rcases List.mem_cons.1 h with rfl | h
    · exact Nat.le_max_left _ _
    · exact Nat.le_trans (size_le_longest h) (Nat.le_max_right _ _)

theorem longest_le {k : Nat} : ∀ {names : List QualifiedName}, (∀ n ∈ names, n.size ≤ k) → longest names ≤ k
  | [], _ => Nat.zero_le k
  | _ :: _, h => Nat.max_le.2 ⟨h _ List.mem_cons_self, longest_le fun n hn => h n (List.mem_cons_of_mem _ hn)⟩

theorem dot_not_mem (i : Identifier) : '.' ∉ i.text.toList := by
  have h := i.valid
  unfold isToken at h
  intro hm
  cases hl : i.text.toList with
  | nil => simp [hl] at hm
  | cons c cs =>
    rw [hl] at h hm
    simp only [Bool.and_eq_true, List.all_eq_true] at h
    rcases List.mem_cons.1 hm with rfl | hm
    · exact absurd h.1 (by decide)
    · exact absurd (h.2 _ hm) (by decide)

/-- **Cutting the written form gives the texts of the segments.** -/
theorem cut_text (n : QualifiedName) :
    Text.cut (· == '.') n.text.toList = (n.first.text.toList, n.rest.map (·.text.toList)) := by
  unfold text
  rw [String.toList_ofList]
  refine Text.cut_join '.' _ _ (dot_not_mem _) ?_
  intro v hv
  obtain ⟨i, -, rfl⟩ := List.mem_map.1 hv
  exact dot_not_mem i

theorem isBlankText_text (n : QualifiedName) : Text.isBlankText n.text = false := by
  have h := n.first.valid
  have hb := Identifier.isBlankText_of_isToken h
  unfold Text.isBlankText text at *
  rw [String.toList_ofList]
  cases hr : n.rest with
  | nil => simpa using hb
  | cons i is => simp [Text.join, List.all_append, hb]

/-- **The written form of a chain reads back as the chain.** -/
theorem parse_text (n : QualifiedName) : parse n.text = .ok n := by
  unfold parse
  rw [isBlankText_text, cut_text]
  simp only [Bool.false_eq_true, if_false, String.ofList_toList, Identifier.parse_text]
  have : ∀ is : List Identifier,
      (is.map (·.text.toList)).mapM (fun w => Identifier.parse (String.ofList w)) = .ok is := by
    intro is
    induction is with
    | nil => rfl
    | cons i is ih =>
      rw [List.map_cons, List.mapM_cons, ih]
      simp only [String.ofList_toList, Identifier.parse_text]
      rfl
  rw [this]
  rfl

theorem texts_of_mapM_parse : ∀ {ws : List (List Char)} {is : List Identifier},
    ws.mapM (fun w => Identifier.parse (String.ofList w)) = .ok is → is.map (·.text.toList) = ws
  | [], is, h => by cases h; rfl
  | w :: ws, is, h => by
    rw [List.mapM_cons] at h
    cases hw : Identifier.parse (String.ofList w) with
    | error e => rw [hw] at h; cases h
    | ok i =>
      cases hws : ws.mapM fun w => Identifier.parse (String.ofList w) with
      | error e => rw [hw, hws] at h; cases h
      | ok js =>
        rw [hw, hws] at h
        cases h
        rw [List.map_cons, Identifier.parse_eq_ok_iff.1 hw, String.toList_ofList, texts_of_mapM_parse hws]

/-- **Reading accepts the written forms of chains and nothing else.** -/
theorem parse_eq_ok_iff {text : String} {n : QualifiedName} : parse text = .ok n ↔ n.text = text := by
  constructor
  · intro h
    unfold parse at h
    split at h
    · cases h
    · cases hfirst : Identifier.parse (String.ofList (Text.cut (· == '.') text.toList).1) with
      | error e => simp only [hfirst] at h; cases h
      | ok first =>
        cases hrest : (Text.cut (· == '.') text.toList).2.mapM fun w => Identifier.parse (String.ofList w) with
        | error e => simp only [hfirst, hrest] at h; cases h
        | ok rest =>
          simp only [hfirst, hrest] at h
          cases h
          unfold QualifiedName.text
          rw [Identifier.parse_eq_ok_iff.1 hfirst, texts_of_mapM_parse hrest, String.toList_ofList, Text.join_cut,
            String.ofList_toList]
  · rintro rfl
    exact parse_text n

end QualifiedName
end DomainModel
