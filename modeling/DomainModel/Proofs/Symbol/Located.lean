import DomainModel.Symbol.Placed
/-!
# Located — where the trees inside a tree come to stand

Placing trees gives each tree inside them a number, a parent and the names above it.  `locateAll` lists the trees with
these, and `placeAll` is that list read as symbols (`placeAll_eq`).  The numbers count up (`map_number_locateAll`); a
tree is at the top, or one of the trees directly inside another that comes before it (`mem_locateAll_cases`); and
whatever is inside a listed tree is listed (`mem_locateAll_of_inside`).
-/
namespace DomainModel

/-- **A tree in its place**: its number, the number of the tree it is directly inside of, and the names above it. -/
structure Located where
  tree : SymbolTree
  number : Nat
  parent : Option SymbolId
  above : List Identifier

namespace Located

def id (q : Located) : SymbolId := ⟨q.number⟩

/-- The names down to the tree and its own. -/
def path (q : Located) : List Identifier := q.above ++ [q.tree.name]

def children (q : Located) : List SymbolId := SymbolTree.roots (q.number + 1) q.tree.inside

/-- The symbol that stands in the place. -/
def symbol (q : Located) : Symbol Written :=
  ⟨q.tree.name, q.parent, q.tree.tags, SymbolTree.withChildren q.tree.content q.children⟩

def placed (q : Located) : Placed := ⟨q.symbol, q.tree.declares⟩

end Located

namespace SymbolTree

mutual

/-- **A tree and the trees inside it**, each before those inside, numbered from a number on. -/
def locate (parent : Option SymbolId) (above : List Identifier) (start : Nat) : SymbolTree → List Located
  | ⟨name, tags, content, declares, inside⟩ =>
    ⟨⟨name, tags, content, declares, inside⟩, start, parent, above⟩ ::
      locateAll (some ⟨start⟩) (above ++ [name]) (start + 1) inside

/-- Trees and the trees inside them, one tree after the other. -/
def locateAll (parent : Option SymbolId) (above : List Identifier) (start : Nat) : List SymbolTree → List Located
  | [] => []
  | t :: ts => t.locate parent above start ++ locateAll parent above (start + t.size) ts

end

variable {parent : Option SymbolId} {above : List Identifier} {start : Nat}

theorem size_eq (t : SymbolTree) : t.size = 1 + sizeAll t.inside := by cases t; rfl

theorem locate_eq (t : SymbolTree) :
    t.locate parent above start =
      ⟨t, start, parent, above⟩ :: locateAll (some ⟨start⟩) (above ++ [t.name]) (start + 1) t.inside := by
  cases t; rfl

theorem roots_append : ∀ (start : Nat) (ts us : List SymbolTree),
    roots start (ts ++ us) = roots start ts ++ roots (start + sizeAll ts) us
  | _, [], _ => rfl
  | start, t :: ts, us => by
    rw [List.cons_append, roots, roots, roots_append, sizeAll, Nat.add_assoc, List.cons_append]

theorem placeAll_append : ∀ (start : Nat) (ts us : List SymbolTree),
    placeAll parent start (ts ++ us) = placeAll parent start ts ++ placeAll parent (start + sizeAll ts) us
  | _, [], _ => rfl
  | start, t :: ts, us => by
    rw [List.cons_append, placeAll, placeAll, placeAll_append, sizeAll, Nat.add_assoc, List.append_assoc]

theorem locateAll_append : ∀ (start : Nat) (ts us : List SymbolTree), locateAll parent above start (ts ++ us) =
    locateAll parent above start ts ++ locateAll parent above (start + sizeAll ts) us
  | _, [], _ => rfl
  | start, t :: ts, us => by
    rw [List.cons_append, locateAll, locateAll, locateAll_append, sizeAll, Nat.add_assoc, List.append_assoc]

theorem locateAll_singleton (t : SymbolTree) : locateAll parent above start [t] =
    ⟨t, start, parent, above⟩ :: locateAll (some ⟨start⟩) (above ++ [t.name]) (start + 1) t.inside := by
  rw [← locate_eq]
  exact List.append_nil _

mutual

theorem place_eq (parent : Option SymbolId) (above : List Identifier) (start : Nat) : ∀ t : SymbolTree,
    t.place parent start = (t.locate parent above start).map Located.placed
  | ⟨name, tags, content, declares, inside⟩ => by
    rw [place, locate, List.map_cons, placeAll_eq (some ⟨start⟩) (above ++ [name]) (start + 1) inside]
    rfl

theorem placeAll_eq (parent : Option SymbolId) (above : List Identifier) (start : Nat) : ∀ ts : List SymbolTree,
    placeAll parent start ts = (locateAll parent above start ts).map Located.placed
  | [] => rfl
  | t :: ts => by
    rw [placeAll, locateAll, List.map_append, place_eq parent above start t, placeAll_eq parent above (start + t.size) ts]

end

mutual

theorem map_number_locate (parent : Option SymbolId) (above : List Identifier) (start : Nat) : ∀ t : SymbolTree,
    (t.locate parent above start).map Located.number = List.range' start t.size
  | ⟨name, tags, content, declares, inside⟩ => by
    rw [locate, List.map_cons, map_number_locateAll (some ⟨start⟩) (above ++ [name]) (start + 1) inside, size,
      Nat.add_comm 1, List.range'_succ]

/-- **The numbers count up** from the first. -/
theorem map_number_locateAll (parent : Option SymbolId) (above : List Identifier) (start : Nat) :
    ∀ ts : List SymbolTree, (locateAll parent above start ts).map Located.number = List.range' start (sizeAll ts)
  | [] => rfl
  | t :: ts => by
    rw [locateAll, List.map_append, map_number_locate parent above start t,
      map_number_locateAll parent above (start + t.size) ts, sizeAll, List.range'_append_1]

end

theorem length_locateAll (ts : List SymbolTree) : (locateAll parent above start ts).length = sizeAll ts := by
  have h := congrArg List.length (map_number_locateAll parent above start ts)
  rwa [List.length_map, List.length_range'] at h

theorem number_mem {ts : List SymbolTree} {q : Located} (h : q ∈ locateAll parent above start ts) :
    start ≤ q.number ∧ q.number < start + sizeAll ts := by
  have hq := List.mem_map_of_mem (f := Located.number) h
  rwa [map_number_locateAll, List.mem_range'_1] at hq

/-- **A listed tree stands at its number.** -/
theorem getElem?_locateAll_iff {ts : List SymbolTree} {i : Nat} {q : Located} :
    (locateAll parent above start ts)[i]? = some q ↔ q ∈ locateAll parent above start ts ∧ q.number = start + i := by
  have hnum : ∀ {j : Nat} {p : Located}, (locateAll parent above start ts)[j]? = some p → p.number = start + j := by
    intro j p hp
    have h := congrArg (·[j]?) (map_number_locateAll parent above start ts)
    simp only [List.getElem?_map, hp, Option.map_some] at h
    obtain ⟨hj, -⟩ := List.getElem?_eq_some_iff.1 hp
    rw [length_locateAll] at hj
    simpa [List.getElem?_range' hj] using h
  constructor
  · exact fun hq => ⟨List.mem_of_getElem? hq, hnum hq⟩
  · rintro ⟨hq, hn⟩
    obtain ⟨j, hj⟩ := List.mem_iff_getElem?.1 hq
    have := hnum hj
    rwa [show i = j by omega]

/-! ## Parents -/

theorem mem_locateAll_cons {t : SymbolTree} {ts : List SymbolTree} {q : Located} :
    q ∈ locateAll parent above start (t :: ts) ↔
      q = ⟨t, start, parent, above⟩ ∨ q ∈ locateAll (some ⟨start⟩) (above ++ [t.name]) (start + 1) t.inside ∨
        q ∈ locateAll parent above (start + t.size) ts := by
  rw [locateAll, List.mem_append, locate_eq, List.mem_cons, or_assoc]

mutual

theorem mem_locate_of_inside {p q : Located} : ∀ {parent : Option SymbolId} {above : List Identifier} {start : Nat}
    {t : SymbolTree}, p ∈ t.locate parent above start →
      q ∈ locateAll (some p.id) p.path (p.number + 1) p.tree.inside → q ∈ t.locate parent above start
  | _, _, _, ⟨_, _, _, _, _⟩, hp, hq => by
    rw [locate] at hp ⊢
    rcases List.mem_cons.1 hp with rfl | hp
    · exact List.mem_cons_of_mem _ hq
    · exact List.mem_cons_of_mem _ (mem_locateAll_of_inside hp hq)

/-- **Whatever is inside a listed tree is listed**, below it. -/
theorem mem_locateAll_of_inside {p q : Located} : ∀ {parent : Option SymbolId} {above : List Identifier} {start : Nat}
    {ts : List SymbolTree}, p ∈ locateAll parent above start ts →
      q ∈ locateAll (some p.id) p.path (p.number + 1) p.tree.inside → q ∈ locateAll parent above start ts
  | _, _, _, [], hp, _ => by cases hp
  | _, _, _, _ :: _, hp, hq => by
    rw [locateAll, List.mem_append] at hp ⊢
    rcases hp with hp | hp
    · exact .inl (mem_locate_of_inside hp hq)
    · exact .inr (mem_locateAll_of_inside hp hq)

end

/-- A tree at the top of a list of trees, in its place. -/
def IsTop (parent : Option SymbolId) (above : List Identifier) (start : Nat) (ts : List SymbolTree) (q : Located) : Prop :=
  q.parent = parent ∧ q.above = above ∧ q.tree ∈ ts ∧ q.id ∈ roots start ts

theorem IsTop.cons {t : SymbolTree} {ts : List SymbolTree} {q : Located}
    (h : IsTop parent above (start + t.size) ts q) : IsTop parent above start (t :: ts) q := by
  obtain ⟨hp, ha, ht, hr⟩ := h
  exact ⟨hp, ha, List.mem_cons_of_mem _ ht, List.mem_cons_of_mem _ hr⟩

mutual

theorem mem_locate_cases {q : Located} : ∀ {parent : Option SymbolId} {above : List Identifier} {start : Nat}
    {t : SymbolTree}, q ∈ t.locate parent above start → q = ⟨t, start, parent, above⟩ ∨
      ∃ p ∈ t.locate parent above start, p.number < q.number ∧ IsTop (some p.id) p.path (p.number + 1) p.tree.inside q
  | parent, above, start, ⟨name, tags, content, declares, inside⟩, hq => by
    rw [locate] at hq ⊢
    rcases List.mem_cons.1 hq with rfl | hq
    · exact .inl rfl
    · refine .inr ?_
      rcases mem_locateAll_cases hq with htop | ⟨p, hp, hlt, htop⟩
      · exact ⟨_, List.mem_cons_self, (number_mem hq).1, htop⟩
      · exact ⟨p, List.mem_cons_of_mem _ hp, hlt, htop⟩

/-- **A listed tree is at the top or directly inside one that comes before it.** -/
theorem mem_locateAll_cases {q : Located} : ∀ {parent : Option SymbolId} {above : List Identifier} {start : Nat}
    {ts : List SymbolTree}, q ∈ locateAll parent above start ts → IsTop parent above start ts q ∨
      ∃ p ∈ locateAll parent above start ts, p.number < q.number ∧
        IsTop (some p.id) p.path (p.number + 1) p.tree.inside q
  | _, _, _, [], hq => by cases hq
  | parent, above, start, t :: ts, hq => by
    rw [locateAll, List.mem_append] at hq
    rcases hq with hq | hq
    · rcases mem_locate_cases hq with rfl | ⟨p, hp, h⟩
      · exact .inl ⟨rfl, rfl, List.mem_cons_self, List.mem_cons_self⟩
      · exact .inr ⟨p, by rw [locateAll]; exact List.mem_append_left _ hp, h⟩
    · rcases mem_locateAll_cases hq with htop | ⟨p, hp, h⟩
      · exact .inl htop.cons
      · exact .inr ⟨p, by rw [locateAll]; exact List.mem_append_right _ hp, h⟩

end

/-- **The roots are the numbers of the trees at the top.** -/
theorem exists_mem_of_mem_roots (parent : Option SymbolId) (above : List Identifier) : ∀ {ts : List SymbolTree}
    {start : Nat} {i : SymbolId}, i ∈ roots start ts →
      ∃ q ∈ locateAll parent above start ts, q.id = i ∧ IsTop parent above start ts q
  | t :: ts, start, i, h => by
    rcases List.mem_cons.1 h with rfl | h
    · exact ⟨_, mem_locateAll_cons.2 (.inl rfl), rfl, rfl, rfl, List.mem_cons_self, List.mem_cons_self⟩
    · obtain ⟨q, hq, hi, htop⟩ := exists_mem_of_mem_roots parent above h
      exact ⟨q, mem_locateAll_cons.2 (.inr (.inr hq)), hi, htop.cons⟩

theorem exists_located_of_mem (parent : Option SymbolId) (above : List Identifier) {t : SymbolTree} :
    ∀ {ts : List SymbolTree} (start : Nat), t ∈ ts →
    ∃ q ∈ locateAll parent above start ts, q.tree = t
  | u :: ts, start, h => by
    rcases List.mem_cons.1 h with rfl | h
    · exact ⟨_, mem_locateAll_cons.2 (.inl rfl), rfl⟩
    · obtain ⟨q, hq, ht⟩ := exists_located_of_mem parent above (start + u.size) h
      exact ⟨q, mem_locateAll_cons.2 (.inr (.inr hq)), ht⟩

theorem le_of_mem_roots : ∀ {ts : List SymbolTree} {start : Nat} {i : SymbolId}, i ∈ roots start ts → start ≤ i.index
  | t :: ts, start, i, h => by
    rcases List.mem_cons.1 h with rfl | h
    · exact Nat.le_refl _
    · exact Nat.le_trans (Nat.le_add_right _ _) (le_of_mem_roots h)

theorem nodup_roots : ∀ (ts : List SymbolTree) (start : Nat), (roots start ts).Nodup
  | [], _ => List.nodup_nil
  | t :: ts, start => by
    refine List.nodup_cons.2 ⟨fun h => ?_, nodup_roots ts _⟩
    have := le_of_mem_roots h
    rw [size_eq] at this
    simp only at this
    omega

/-- **What holds at the top and goes from each tree to those directly inside holds of every listed tree.** -/
theorem forall_mem_locateAll {P : List Identifier → SymbolTree → Prop}
    (hstep : ∀ above t, P above t → ∀ c ∈ t.inside, P (above ++ [t.name]) c) {ts : List SymbolTree}
    (htop : ∀ t ∈ ts, P above t) {q : Located} (hq : q ∈ locateAll parent above start ts) : P q.above q.tree := by
  -- The trees that come before are settled first.
  induction hn : q.number using Nat.strongRecOn generalizing q with
  | ind n ih =>
    subst hn
    rcases mem_locateAll_cases hq with ⟨-, ha, ht, -⟩ | ⟨p, hp, hlt, -, ha, ht, -⟩
    · exact ha ▸ htop _ ht
    · rw [ha]
      exact hstep _ _ (ih _ hlt hp rfl) _ ht

end SymbolTree
end DomainModel
