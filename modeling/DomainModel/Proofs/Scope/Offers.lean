import DomainModel.Scope
/-!
# Offers — where candidates come from, and in which order

A candidate is formed from a name around the place, or from an import of one of the blocks around it or of the unit.
Without those of imports the candidates are the reference inside each beginning of the full name of the place, the
longest first and none left out, however the name is spread over blocks.  The imports of a block stand behind what lies
inside the block and before what lies further out, those of the unit at the end (`Scope.offers_in_order`).
-/
namespace DomainModel

/-- An entry of two lists put together is in the first or in the second. -/
theorem append_eq_append_cons {α : Type} {as bs before after : List α} {a : α} (h : as ++ bs = before ++ a :: after) :
    (∃ between, as = before ++ a :: between ∧ after = between ++ bs) ∨
      ∃ between, before = as ++ between ∧ bs = between ++ a :: after := by
  rcases List.append_eq_append_iff.1 h with ⟨between, hbefore, hbs⟩ | ⟨rest, has, hafter⟩
  · exact .inr ⟨between, hbefore, hbs⟩
  · cases rest with
    | nil => exact .inr ⟨[], by rw [has, List.append_nil, List.append_nil], hafter.symm⟩
    | cons b between =>
      rw [List.cons_append, List.cons.injEq] at hafter
      obtain ⟨rfl, hafter⟩ := hafter
      exact .inl ⟨between, has, hafter⟩

/-- **A candidate and what offers it**: the unit or block that imports it, or none for a name around the place. -/
structure Offer where
  name : QualifiedName
  importer : Option Scope

namespace Offer

def isLexical (o : Offer) : Bool := o.importer.isNone

/-- The names that are offered without an import. -/
def lexical (os : List Offer) : List QualifiedName := (os.filter isLexical).map (·.name)

variable {os os' : List Offer}

@[simp] theorem lexical_append : lexical (os ++ os') = lexical os ++ lexical os' := by
  simp only [lexical, List.filter_append, List.map_append]

theorem lexical_cons_none {name : QualifiedName} : lexical (⟨name, none⟩ :: os) = name :: lexical os := rfl

end Offer

namespace Scope

open Offer (lexical)

/-- What a unit or a block imports. -/
def imports : Scope → List QualifiedName
  | top imports => imports
  | block _ _ imports => imports
  | declaration _ _ => []

/-- The full name by its segments; a unit has none. -/
def path (s : Scope) : List Identifier := (s.fullName.map (·.segments)).getD []

/-- What the imports of a place offer. -/
def imported (s : Scope) (r : QualifiedName) : List Offer := s.imports.map fun i => ⟨i.join r, some s⟩

/-- **What the innermost enclosing thing offers**: a candidate each. -/
def frameOffers : Scope → QualifiedName → List Offer
  | top imports, r => ⟨r, none⟩ :: (top imports).imported r
  | block outer name imports, r =>
    ⟨(name.under outer.fullName).join r, none⟩ ::
      ((block outer name imports).imported r ++
        name.ancestors.map fun a => ⟨(a.under outer.fullName).join r, none⟩)
  | declaration outer name, r => [⟨(outer.qualify name).join r, none⟩]

/-- **All candidates with what offers them.** -/
def offers : Scope → QualifiedName → List Offer
  | top imports, r => (top imports).frameOffers r
  | block outer name imports, r => (block outer name imports).frameOffers r ++ outer.offers r
  | declaration outer name, r => (declaration outer name).frameOffers r ++ outer.offers r

/-- **A reference inside the beginnings of a path** that have fewer than so many segments, the longest first. -/
def inside (path : List Identifier) (n : Nat) (r : QualifiedName) : List (List Identifier) :=
  (List.range n).reverse.map fun k => path.take k ++ r.segments

variable {s f : Scope} {r : QualifiedName}

/-! ## Paths -/

theorem segments_under (n : QualifiedName) (s : Scope) : (n.under s.fullName).segments = s.path ++ n.segments := by
  unfold path
  cases s.fullName <;> rfl

theorem path_block (outer : Scope) (name : QualifiedName) (imports : List QualifiedName) :
    (block outer name imports).path = outer.path ++ name.segments := segments_under name outer

theorem path_declaration (outer : Scope) (name : Identifier) : (declaration outer name).path = outer.path ++ [name] :=
  segments_under (.single name) outer

theorem inside_succ (path : List Identifier) (n : Nat) (r : QualifiedName) :
    inside path (n + 1) r = (path.take n ++ r.segments) :: inside path n r := by
  unfold inside
  rw [List.range_succ, List.reverse_append, List.reverse_singleton, List.singleton_append, List.map_cons]

/-- What comes behind a path makes no difference to its own beginnings. -/
theorem inside_append {path : List Identifier} {n : Nat} (h : n ≤ path.length + 1) (further : List Identifier)
    (r : QualifiedName) : inside (path ++ further) n r = inside path n r := by
  refine List.map_congr_left fun k hk => ?_
  have hk : k < n := List.mem_range.1 (List.mem_reverse.1 hk)
  rw [List.take_append_of_le_length (by omega)]

/-- **The beginnings of a joined path** are those that reach into the second part, then those of the first. -/
theorem inside_add (path further : List Identifier) (n : Nat) (r : QualifiedName) :
    inside (path ++ further) (path.length + 1 + n) r =
      (List.range n).reverse.map (fun k => path ++ further.take (k + 1) ++ r.segments) ++
        inside path (path.length + 1) r := by
  have houter := inside_append (Nat.le_refl (path.length + 1)) further r
  have hinner : ∀ k, (path ++ further).take (path.length + 1 + k) = path ++ further.take (k + 1) := by
    intro k
    rw [show path.length + 1 + k = path.length + (k + 1) by omega, List.take_length_add_append]
  rw [← houter]
  unfold inside
  rw [List.range_add, List.reverse_append, List.map_append, ← List.map_reverse, List.map_map]
  refine congrArg (· ++ _) (List.map_congr_left fun k _ => ?_)
  exact congrArg (· ++ r.segments) (hinner k)

theorem pairwise_inside {path : List Identifier} : ∀ {n : Nat}, n ≤ path.length + 1 →
    (inside path n r).Pairwise fun a b => b.length < a.length
  | 0, _ => .nil
  | n + 1, h => by
    rw [inside_succ]
    refine List.pairwise_cons.2 ⟨fun b hb => ?_, pairwise_inside (Nat.le_of_succ_le h)⟩
    obtain ⟨k, hk, rfl⟩ := List.mem_map.1 hb
    have hk : k < n := List.mem_range.1 (List.mem_reverse.1 hk)
    simp only [List.length_append, List.length_take]
    omega

/-! ## What is offered -/

theorem map_name_frameOffers (s : Scope) (r : QualifiedName) : (s.frameOffers r).map (·.name) = s.frameCandidates r := by
  cases s with
  | top | block => simp [frameOffers, frameCandidates, imported, imports, Function.comp_def]
  | declaration => rfl

theorem map_name_offers (r : QualifiedName) : ∀ s : Scope, (s.offers r).map (·.name) = s.candidates r
  | top imports => map_name_frameOffers (top imports) r
  | block outer name imports => by
    rw [offers, List.map_append, map_name_frameOffers, map_name_offers r outer, candidates]
  | declaration outer name => by
    rw [offers, List.map_append, map_name_frameOffers, map_name_offers r outer, candidates]

theorem lexical_imported (s : Scope) (r : QualifiedName) : lexical (s.imported r) = [] := by
  unfold imported lexical
  rw [List.filter_map, List.map_eq_nil_iff, List.map_eq_nil_iff]
  exact List.filter_eq_nil_iff.2 fun _ _ h => Bool.false_ne_true h

theorem lexical_lift (names : List QualifiedName) : lexical (names.map fun name => ⟨name, none⟩) = names := by
  induction names with
  | nil => rfl
  | cons name names ih => rw [List.map_cons, Offer.lexical_cons_none, ih]

/-- A block offers the reference inside its full name, and inside the beginnings of the name that it is written with. -/
theorem lexical_frameOffers_block (outer : Scope) (name : QualifiedName) (imports : List QualifiedName) :
    (lexical ((block outer name imports).frameOffers r)).map (·.segments) =
      (List.range name.segments.length).reverse.map fun k => outer.path ++ name.segments.take (k + 1) ++ r.segments := by
  have hbeginnings : lexical (name.ancestors.map fun a => ⟨(a.under outer.fullName).join r, none⟩) =
      name.ancestors.map fun a => (a.under outer.fullName).join r := by
    rw [← lexical_lift (name.ancestors.map _), List.map_map]
    rfl
  have hfull : name.segments.take (name.rest.length + 1) = name.segments := List.take_length (l := name.segments)
  rw [frameOffers, Offer.lexical_cons_none, Offer.lexical_append, lexical_imported, List.nil_append, hbeginnings,
    List.map_cons, show name.segments.length = name.rest.length + 1 from rfl, List.range_succ, List.reverse_append,
    List.reverse_singleton, List.singleton_append, List.map_cons, QualifiedName.segments_join, segments_under, hfull,
    QualifiedName.ancestors, List.map_map, List.map_map]
  refine congrArg _ (List.map_congr_left fun k _ => ?_)
  simp only [Function.comp_apply, QualifiedName.segments_join, segments_under, QualifiedName.segments_take]

/-- **Without imports a reference is offered inside each beginning of the full name of the place.** -/
theorem map_segments_lexical_offers (r : QualifiedName) : ∀ s : Scope,
    (lexical (s.offers r)).map (·.segments) = inside s.path (s.path.length + 1) r
  | top imports => by
    rw [offers, frameOffers, Offer.lexical_cons_none, lexical_imported]
    rfl
  | block outer name imports => by
    rw [offers, Offer.lexical_append, List.map_append, lexical_frameOffers_block, map_segments_lexical_offers r outer,
      path_block, List.length_append, Nat.add_right_comm, inside_add]
  | declaration outer name => by
    have hown : (lexical ((declaration outer name).frameOffers r)).map (·.segments) =
        [outer.path ++ [name] ++ r.segments] :=
      congrArg (fun own => [own ++ r.segments]) (segments_under (.single name) outer)
    rw [offers, Offer.lexical_append, List.map_append, hown, map_segments_lexical_offers r outer, path_declaration,
      List.length_append, List.length_singleton, inside_add]
    rfl

/-! ## Where imports stand -/

theorem self_mem_chain : ∀ s : Scope, s ∈ s.chain
  | top _ => List.mem_singleton_self _
  | block _ _ _ | declaration _ _ => List.mem_append_right _ (List.mem_singleton_self _)

theorem length_chain_le (hf : f ∈ s.chain) : f.chain.length ≤ s.chain.length := by
  induction s with
  | top imports => exact Nat.le_of_eq (congrArg (fun s => s.chain.length) (List.mem_singleton.1 hf))
  | block outer name imports ih | declaration outer name ih =>
    rcases List.mem_append.1 hf with hf | hf
    · have hle := ih hf
      rw [chain, List.length_append]
      omega
    · exact Nat.le_of_eq (congrArg (fun s => s.chain.length) (List.mem_singleton.1 hf))

/-- No place is around itself. -/
theorem ne_of_mem_chain {outer : Scope} (hs : s.chain = outer.chain ++ [s]) (hf : f ∈ outer.chain) : f ≠ s := by
  rintro rfl
  have hle := length_chain_le hf
  rw [hs, List.length_append, List.length_singleton] at hle
  omega

theorem importer_of_mem_imported {o : Offer} (ho : o ∈ s.imported r) : o.importer = some s := by
  obtain ⟨i, -, rfl⟩ := List.mem_map.1 ho
  rfl

theorem filter_importer_imported (s f : Scope) (r : QualifiedName) :
    (s.imported r).filter (fun o => o.importer = some f) = if f = s then s.imported r else [] := by
  split
  · rename_i h
    exact List.filter_eq_self.2 fun o ho => by simp [importer_of_mem_imported ho, h]
  · rename_i h
    exact List.filter_eq_nil_iff.2 fun o ho => by simp [importer_of_mem_imported ho, Ne.symm h]

theorem filter_importer_frameOffers (s f : Scope) (r : QualifiedName) :
    (s.frameOffers r).filter (fun o => o.importer = some f) = if f = s then s.imported r else [] := by
  cases s with
  | top imports => exact filter_importer_imported (top imports) f r
  | block outer name imports =>
    have hnone : (name.ancestors.map fun a => (⟨(a.under outer.fullName).join r, none⟩ : Offer)).filter
        (fun o => o.importer = some f) = [] :=
      List.filter_eq_nil_iff.2 fun o ho => by
        obtain ⟨a, -, rfl⟩ := List.mem_map.1 ho
        simp
    rw [frameOffers, List.filter_cons_of_neg (by simp), List.filter_append, hnone, List.append_nil,
      filter_importer_imported]
  | declaration outer name => split <;> rfl

/-- What a place does not have around it offers nothing there. -/
theorem filter_importer_offers_of_not_mem (hf : f ∉ s.chain) :
    (s.offers r).filter (fun o => o.importer = some f) = [] := by
  induction s with
  | top imports => rw [offers, filter_importer_frameOffers, if_neg fun h => hf (List.mem_singleton.2 h)]
  | block outer name imports ih | declaration outer name ih =>
    rw [chain, List.mem_append, not_or, List.mem_singleton] at hf
    rw [offers, List.filter_append, filter_importer_frameOffers, if_neg hf.2, ih hf.1, List.nil_append]

/-- **Every unit and block around a place offers its imports once**, in the order in which they are written. -/
theorem filter_importer_offers (hf : f ∈ s.chain) :
    (s.offers r).filter (fun o => o.importer = some f) = f.imported r := by
  induction s with
  | top imports =>
    obtain rfl := List.mem_singleton.1 hf
    rw [offers, filter_importer_frameOffers, if_pos rfl]
  | block outer name imports ih | declaration outer name ih =>
    rw [offers, List.filter_append, filter_importer_frameOffers]
    rcases List.mem_append.1 hf with hf | hf
    · rw [if_neg (ne_of_mem_chain rfl hf), ih hf, List.nil_append]
    · obtain rfl := List.mem_singleton.1 hf
      rw [if_pos rfl, filter_importer_offers_of_not_mem fun h => ne_of_mem_chain rfl h rfl, List.append_nil]

/-- **Where an import of `f` stands**, between what is offered before and after it. -/
structure Sits (s : Scope) (r : QualifiedName) (f : Scope) (before after : List Offer) : Prop where
  /-- It is imported around the place. -/
  enclosing : f ∈ s.chain
  /-- What lies inside the importing block comes before. -/
  inner : r.under f.fullName ∈ lexical before
  /-- What lies further out comes after, all of it. -/
  outer : (lexical after).map (·.segments) = inside f.path f.path.length r
  /-- Behind what the unit imports there is nothing else. -/
  last : f.isTop = true → ∀ o ∈ after, o.importer = some f

/-- An import of the innermost place comes behind what lies inside it, and before all that is not imported there. -/
theorem sits_of_own {own : List Offer} (hs : s.offers r = ⟨r.under s.fullName, none⟩ :: (s.imported r ++ own))
    (hown : s.isTop = true → own = []) {before after : List Offer}
    (hafter : ∀ o ∈ after, o.importer = some s) :
    Sits s r s (⟨r.under s.fullName, none⟩ :: before) (after ++ own) := by
  have hlexical := map_segments_lexical_offers r s
  have hnone : lexical after = [] := by
    unfold lexical
    rw [List.map_eq_nil_iff]
    refine List.filter_eq_nil_iff.2 fun o ho => ?_
    simp [Offer.isLexical, hafter o ho]
  rw [hs, Offer.lexical_cons_none, Offer.lexical_append, lexical_imported, List.nil_append, List.map_cons, inside_succ]
    at hlexical
  refine ⟨self_mem_chain s, List.mem_cons_self, ?_, fun htop => ?_⟩
  · rw [Offer.lexical_append, hnone, List.nil_append]
    exact (List.cons.inj hlexical).2
  · rw [hown htop, List.append_nil]
    exact hafter

/-- An import of a place further out has all that is offered further in before it. -/
theorem Sits.inward {outer : Scope} {before after : List Offer} (h : Sits outer r f before after)
    (hs : s.chain = outer.chain ++ [s]) (own : List Offer) : Sits s r f (own ++ before) after where
  enclosing := hs ▸ List.mem_append_left _ h.enclosing
  inner := by
    rw [Offer.lexical_append]
    exact List.mem_append_right _ h.inner
  outer := h.outer
  last := h.last

/-- **An import stands behind what lies inside its place and before what lies further out.** -/
theorem sits_of_split {before after : List Offer} {o : Offer} (h : s.offers r = before ++ o :: after)
    (hf : o.importer = some f) : Sits s r f before after := by
  induction s generalizing before with
  | top imports =>
    cases before with
    | nil => cases h; cases hf
    | cons own before =>
      rw [offers, frameOffers, List.cons_append, List.cons.injEq] at h
      obtain ⟨rfl, himported⟩ := h
      have hmem : ∀ x ∈ o :: after, x.importer = some (top imports) :=
        fun x hx => importer_of_mem_imported (himported ▸ List.mem_append_right _ hx)
      cases hf.symm.trans (hmem o List.mem_cons_self)
      rw [← List.append_nil after]
      exact sits_of_own (List.append_nil _ ▸ rfl) (fun _ => rfl) fun x hx => hmem x (List.mem_cons_of_mem _ hx)
  | block outer name imports ih =>
    rcases append_eq_append_cons h with ⟨between, hframe, rfl⟩ | ⟨between, rfl, houter⟩
    · cases before with
      | nil => cases hframe; cases hf
      | cons own before =>
        rw [frameOffers, List.cons_append, List.cons.injEq] at hframe
        obtain ⟨rfl, hframe⟩ := hframe
        rcases append_eq_append_cons hframe with ⟨among, himported, rfl⟩ | ⟨among, -, hbeginnings⟩
        · have hmem : ∀ x ∈ o :: among, x.importer = some (block outer name imports) :=
            fun x hx => importer_of_mem_imported (himported ▸ List.mem_append_right _ hx)
          cases hf.symm.trans (hmem o List.mem_cons_self)
          rw [List.append_assoc]
          have htop : ¬ (block outer name imports).isTop = true := Bool.false_ne_true
          refine sits_of_own ?_ (fun h => absurd h htop) fun x hx => hmem x (List.mem_cons_of_mem _ hx)
          rw [offers, frameOffers, List.cons_append, List.append_assoc]
          rfl
        · -- Beginnings of the name are not imported.
          have ho : o ∈ name.ancestors.map fun a => (⟨(a.under outer.fullName).join r, none⟩ : Offer) :=
            hbeginnings ▸ List.mem_append_right _ List.mem_cons_self
          obtain ⟨a, -, rfl⟩ := List.mem_map.1 ho
          cases hf
    · exact (ih houter).inward rfl _
  | declaration outer name ih =>
    rcases append_eq_append_cons h with ⟨between, hframe, rfl⟩ | ⟨between, rfl, houter⟩
    · have ho : o ∈ (declaration outer name).frameOffers r := hframe ▸ List.mem_append_right _ List.mem_cons_self
      cases List.mem_singleton.1 ho
      cases hf
    · exact (ih houter).inward rfl _

/-- **The order of the candidates of a place.**  They are the offers of what is around it, and among these:
- those without an import are the reference inside each beginning of the full name of the place, from the longest to
  none, each once;
- they depend on the full name alone, not on how it is spread over blocks and declarations;
- each unit and block around the place offers its imports, in the order in which they are written;
- an import stands behind the reference inside the full name of the importing block and before the reference inside each
  shorter name, and what the unit imports stands at the end. -/
theorem offers_in_order (s : Scope) (r : QualifiedName) :
    (s.offers r).map (·.name) = s.candidates r ∧
    (lexical (s.offers r)).map (·.segments) =
      (List.range (s.path.length + 1)).reverse.map (fun k => s.path.take k ++ r.segments) ∧
    (lexical (s.offers r)).Pairwise (fun a b => b.size < a.size) ∧
    (∀ s' : Scope, s'.fullName = s.fullName → lexical (s'.offers r) = lexical (s.offers r)) ∧
    (∀ f ∈ s.chain, (s.offers r).filter (fun o => o.importer = some f) = f.imports.map fun i => ⟨i.join r, some f⟩) ∧
    ∀ f before o after, s.offers r = before ++ o :: after → o.importer = some f → Sits s r f before after := by
  refine ⟨map_name_offers r s, map_segments_lexical_offers r s, ?shorter, fun s' hs' => ?layout,
    fun f hf => filter_importer_offers hf, fun f before o after h hf => sits_of_split h hf⟩
  case shorter =>
    have hinside := pairwise_inside (r := r) (Nat.le_refl (s.path.length + 1))
    rw [← map_segments_lexical_offers, List.pairwise_map] at hinside
    exact hinside
  case layout =>
    have hpath : s'.path = s.path := by rw [path, hs', path]
    have hsegments := map_segments_lexical_offers r s'
    rw [hpath, ← map_segments_lexical_offers r s] at hsegments
    exact (List.map_inj_right fun _ _ => QualifiedName.ext).1 hsegments

/-- In a block `crown.tax` that imports `shared`, in a unit that imports `world`. -/
def taxed : Scope :=
  .block (.top [.single ⟨"world", by decide⟩]) ⟨⟨"crown", by decide⟩, [⟨"tax", by decide⟩]⟩ [.single ⟨"shared", by decide⟩]

def rate : QualifiedName := .single ⟨"rate", by decide⟩

theorem offers_in_order_taxed :
    (taxed.candidates rate).map (·.text) = ["crown.tax.rate", "shared.rate", "crown.rate", "rate", "world.rate"] ∧
      ∃ before o after, taxed.offers rate = before ++ o :: after ∧ o.importer = some taxed ∧
        Sits taxed rate taxed before after := by
  have hsplit : taxed.offers rate = (taxed.offers rate).take 1 ++ (taxed.offers rate).get ⟨1, by decide⟩ ::
      (taxed.offers rate).drop 2 := rfl
  obtain ⟨-, -, -, -, -, hsits⟩ := offers_in_order taxed rate
  exact ⟨by decide, _, _, _, hsplit, rfl, hsits _ _ _ _ hsplit rfl⟩

end Scope
end DomainModel
