import DomainModel.Proofs.Graph.Naming
import DomainModel.Proofs.Text.Runs
/-!
# Level — how deep symbols stand

The level of a symbol is the number of names above it.  Numbers are given in pre-order, so what is below a symbol is the
run of deeper symbols behind it.  Hence the levels tell who owns whom: graphs of one size whose symbols are at the same
levels have the same namespaces, children and parents (`Graph.IsForest.ownsLike_of_level`), and if the names agree as
well, the full names do (`Graph.fullName?_eq_of_names`).
-/
namespace DomainModel
namespace Graph

open Text (Stops append_inj_of_all)

/-- **How many names are above a symbol.** -/
def level (g : Graph) (id : SymbolId) : Nat := ((g.fullName? id).map (·.rest.length)).getD 0

variable {g h : Graph}

namespace IsForest

theorem level_top (hg : g.IsForest) {id : SymbolId} (hid : id ∈ g.namespaces) : g.level id = 0 := by
  obtain ⟨x, hx, hp⟩ := (hg.top id).1 hid
  have hname : g.fullName? id = some (.single x.name) := hg.fullName?_of_climb (.top hx hp)
  rw [level, hname]
  rfl

/-- **Children are one level deeper.** -/
theorem level_children (hg : g.IsForest) {id : SymbolId} {x : GraphSymbol} {d : Nat} (hx : g.symbol? id = some x)
    (hd : g.level id = d) : ∀ child ∈ x.children, g.level child = d + 1 := by
  intro child hchild
  obtain ⟨name, hname, hclimb⟩ := hg.climb id (mem_ids_of_symbol? hx)
  obtain ⟨y, hy, hparent⟩ := Option.bind_eq_some_iff.1 ((hg.mem_children_iff hx).1 hchild)
  have hfull : g.fullName? child = some (name.child y.name) := hg.fullName?_of_climb (.step hy hparent hclimb)
  rw [← hd, level, level, hfull, hname]
  simp [QualifiedName.child]

theorem exists_parent (hg : g.IsForest) {id parent : SymbolId} (hp : g.parent? id = some parent) :
    ∃ x, g.symbol? parent = some x ∧ id ∈ x.children := by
  obtain ⟨y, hy, -⟩ := Option.bind_eq_some_iff.1 hp
  obtain ⟨hlt, -⟩ := List.getElem?_eq_some_iff.1 hy
  have hparent : g.symbol? parent = some _ := List.getElem?_eq_getElem (Nat.lt_trans (hg.parent_lt id parent hp) hlt)
  exact ⟨_, hparent, (hg.mem_children_iff hparent).2 hp⟩

theorem exists_fullName (hg : g.IsForest) {id : SymbolId} {x : GraphSymbol} (hx : g.symbol? id = some x) :
    ∃ name, g.fullName? id = some name ∧ name.last = x.name := by
  obtain ⟨name, hname, hclimb⟩ := hg.climb id (mem_ids_of_symbol? hx)
  obtain ⟨above, habove⟩ : ∃ above, name.segments = above ++ [x.name] := by
    generalize name.segments = names at hclimb
    cases hclimb with
    | top hy _ => exact ⟨[], by rw [Option.some_inj.1 (hx.symm.trans hy)]; rfl⟩
    | step hy _ _ => exact ⟨_, by rw [Option.some_inj.1 (hx.symm.trans hy)]⟩
  refine ⟨name, hname, ?_⟩
  simp [name.last_eq, habove]

end IsForest

/-! ## Walks and levels -/

theorem Walk.exists_of_cons {ids passed : List SymbolId} {id : SymbolId} (hw : g.Walk ids (id :: passed)) :
    ∃ x later below after, ids = id :: later ∧ passed = below ++ after ∧ g.symbol? id = some x ∧
      g.Walk x.children below ∧ g.Walk later after := by
  generalize hpassed : id :: passed = all at hw
  cases hw with
  | nil => cases hpassed
  | cons hx hbelow hafter =>
    cases hpassed
    exact ⟨_, _, _, _, rfl, rfl, hx, hbelow, hafter⟩

/-- A walk passes nothing above the symbols from which it starts. -/
theorem Walk.le_level (hg : g.IsForest) {ids passed : List SymbolId} (hw : g.Walk ids passed) {d : Nat}
    (hids : ∀ i ∈ ids, g.level i = d) : ∀ i ∈ passed, d ≤ g.level i := by
  induction hw generalizing d with
  | nil => simp
  | @cons id x ids below after hx _ _ ihbelow ihafter =>
    obtain ⟨hid, hids⟩ := List.forall_mem_cons.1 hids
    intro i hi
    rcases List.mem_cons.1 hi with rfl | hi
    · exact Nat.le_of_eq hid.symm
    rcases List.mem_append.1 hi with hi | hi
    · exact Nat.le_of_succ_le (ihbelow (hg.level_children hx hid) i hi)
    · exact ihafter hids i hi

theorem Walk.stops {ids passed : List SymbolId} (hw : g.Walk ids passed) {d : Nat} (hids : ∀ i ∈ ids, g.level i = d) :
    Stops (fun i => decide (d < g.level i)) passed := by
  cases hw with
  | nil => exact .nil
  | cons => simp [hids _ List.mem_cons_self]

/-- **Walks that pass the same symbols at the same levels start and branch alike.** -/
theorem Walk.eq_of_level (hg : g.IsForest) (hh : h.IsForest) {ids passed : List SymbolId} (hw : g.Walk ids passed) :
    ∀ {others : List SymbolId} {d : Nat}, h.Walk others passed → (∀ i ∈ ids, g.level i = d) →
      (∀ i ∈ others, h.level i = d) → (∀ i ∈ passed, g.level i = h.level i) →
      ids = others ∧ ∀ i ∈ passed, ∀ x y, g.symbol? i = some x → h.symbol? i = some y → x.children = y.children := by
  induction hw with
  | nil =>
    intro others d hw' _ _ _
    cases hw' with
    | nil => exact ⟨rfl, by simp⟩
  | @cons id x ids below after hx hbelow hafter ihbelow ihafter =>
    intro others d hw' hids hothers hlevel
    obtain ⟨y, later, below', after', rfl, hpassed, hy, hbelow', hafter'⟩ := hw'.exists_of_cons
    obtain ⟨hid, hids⟩ := List.forall_mem_cons.1 hids
    obtain ⟨hid', hlater⟩ := List.forall_mem_cons.1 hothers
    obtain ⟨-, hlevel⟩ := List.forall_mem_cons.1 hlevel
    have hchildren := hg.level_children hx hid
    have hchildren' := hh.level_children hy hid'
    -- What is below the first symbol is what is deeper, up to the next symbol that is not.
    have hdeeper : ∀ i ∈ below, decide (d < g.level i) = true :=
      fun i hi => decide_eq_true (hbelow.le_level hg hchildren i hi)
    have hdeeper' : ∀ i ∈ below', decide (d < g.level i) = true := by
      intro i hi
      rw [hlevel i (hpassed ▸ List.mem_append_left _ hi)]
      exact decide_eq_true (hbelow'.le_level hh hchildren' i hi)
    have hstops' : Stops (fun i => decide (d < g.level i)) after' := by
      intro i hi
      have hi' : g.level i = h.level i := hlevel i (hpassed ▸ List.mem_append_right _ (List.mem_of_mem_head? hi))
      simp only [hi']
      exact hafter'.stops hlater i hi
    obtain ⟨rfl, rfl⟩ := append_inj_of_all hdeeper hdeeper' (hafter.stops hids) hstops' hpassed
    obtain ⟨hsame, hinside⟩ := ihbelow hbelow' hchildren hchildren' fun i hi => hlevel i (List.mem_append_left _ hi)
    obtain ⟨rfl, hrest⟩ := ihafter hafter' hids hlater fun i hi => hlevel i (List.mem_append_right _ hi)
    refine ⟨rfl, fun i hi u v hu hv => ?_⟩
    rcases List.mem_cons.1 hi with rfl | hi
    · rwa [Option.some_inj.1 (hu.symm.trans hx), Option.some_inj.1 (hv.symm.trans hy)]
    rcases List.mem_append.1 hi with hi | hi
    · exact hinside i hi u v hu hv
    · exact hrest i hi u v hu hv

/-! ## What levels tell -/

/-- **The symbols of two graphs own each other alike.** -/
structure OwnsLike (g h : Graph) : Prop where
  namespaces : g.namespaces = h.namespaces
  children : ∀ id x y, g.symbol? id = some x → h.symbol? id = some y → x.children = y.children
  parent : ∀ id, g.parent? id = h.parent? id

theorem exists_symbol_of_mem_ids {id : SymbolId} (hid : id ∈ g.ids) : ∃ x, g.symbol? id = some x := by
  obtain ⟨i, hi, rfl⟩ := List.mem_map.1 hid
  exact ⟨_, List.getElem?_eq_getElem (List.mem_range.1 hi)⟩

/-- **Who owns whom is known from the levels.** -/
theorem IsForest.ownsLike_of_level (hg : g.IsForest) (hh : h.IsForest) (hids : g.ids = h.ids)
    (hlevel : ∀ id ∈ g.ids, g.level id = h.level id) : g.OwnsLike h := by
  obtain ⟨htop, hchildren⟩ := hg.walk.eq_of_level hg hh (hids ▸ hh.walk) (fun i hi => hg.level_top hi)
    (fun i hi => hh.level_top hi) hlevel
  have hsame : ∀ id x y, g.symbol? id = some x → h.symbol? id = some y → x.children = y.children :=
    fun id x y hx hy => hchildren id (mem_ids_of_symbol? hx) x y hx hy
  refine ⟨htop, hsame, fun id => Option.ext fun p => ⟨fun hp => ?_, fun hp => ?_⟩⟩
  · obtain ⟨x, hx, hmem⟩ := hg.exists_parent hp
    obtain ⟨y, hy⟩ := exists_symbol_of_mem_ids (hids ▸ mem_ids_of_symbol? hx)
    exact (hh.mem_children_iff hy).1 (hsame p x y hx hy ▸ hmem)
  · obtain ⟨y, hy, hmem⟩ := hh.exists_parent hp
    obtain ⟨x, hx⟩ := exists_symbol_of_mem_ids (hids ▸ mem_ids_of_symbol? hy)
    exact (hg.mem_children_iff hx).1 (hsame p x y hx hy ▸ hmem)

theorem symbol?_cases (hids : g.ids = h.ids) (id : SymbolId) :
    g.symbol? id = none ∧ h.symbol? id = none ∨ ∃ x y, g.symbol? id = some x ∧ h.symbol? id = some y := by
  cases hx : g.symbol? id with
  | some x =>
    obtain ⟨y, hy⟩ := exists_symbol_of_mem_ids (hids ▸ mem_ids_of_symbol? hx)
    exact .inr ⟨x, y, rfl, hy⟩
  | none => cases hy : h.symbol? id with
    | none => exact .inl ⟨rfl, rfl⟩
    | some y =>
      obtain ⟨x, hx'⟩ := exists_symbol_of_mem_ids (hids ▸ mem_ids_of_symbol? hy)
      rw [hx] at hx'
      cases hx'

/-- **Full names are made of names and parents.** -/
theorem fullName?_eq_of_names (hnames : ∀ id, (g.symbol? id).map (·.name) = (h.symbol? id).map (·.name))
    (hparent : ∀ id, g.parent? id = h.parent? id) (id : SymbolId) : g.fullName? id = h.fullName? id := by
  have hpath : ∀ fuel id, g.pathWithin fuel id = h.pathWithin fuel id := by
    intro fuel
    induction fuel with
    | zero => exact fun _ => rfl
    | succ fuel ih =>
      intro id
      have hname := hnames id
      have hup := hparent id
      unfold parent? at hup
      unfold pathWithin
      cases hx : g.symbol? id with
      | none => cases hy : h.symbol? id with
        | none => rfl
        | some y => rw [hx, hy] at hname; cases hname
      | some x => cases hy : h.symbol? id with
        | none => rw [hx, hy] at hname; cases hname
        | some y =>
          rw [hx, hy] at hname hup
          simp only [show x.name = y.name from Option.some_inj.1 hname, show x.parent = y.parent from hup, ih]
  rw [fullName?, fullName?, hpath]

end Graph
end DomainModel
