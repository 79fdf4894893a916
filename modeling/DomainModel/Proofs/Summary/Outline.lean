import DomainModel.Proofs.Graph.Visits
import DomainModel.Proofs.Summary.Lines
import DomainModel.Summary.Printer
/-!
# Outline — the lines of a summary and where they stand

A printer with a method for each kind writes what the one visitor of symbols writes (`follows_printing`).  In the order
of a walk that skips nothing each symbol, property and filter has one line, and a symbol stands as many levels deep as
there are symbols around it; the printer ends where it began (`summary_of_compiled`).
-/
namespace DomainModel

/-! ## Lines in a text -/

/-- **The lines of a text are found at its line ends.** -/
theorem Writer.pieces_lines : ∀ {ls : List (Nat × String)}, (∀ l ∈ ls, '\n' ∉ l.2.toList) →
    Text.pieces (· == '\n') (lines ls).toList = ls.map (fun l => List.replicate (4 * l.1) ' ' ++ l.2.toList) ++ [[]]
  | [], _ => rfl
  | l :: ls, h => by
    obtain ⟨hl, hls⟩ := List.forall_mem_cons.1 h
    have hline : '\n' ∉ List.replicate (4 * l.1) ' ' ++ l.2.toList := by
      simp [List.mem_append, List.mem_replicate, hl]
    have htext : (lines (l :: ls)).toList =
        (List.replicate (4 * l.1) ' ' ++ l.2.toList) ++ '\n' :: (lines ls).toList := by
      simp [lines, line, String.toList_append, indentWidth, Nat.mul_comm]
    have hlater := pieces_lines hls
    rw [Text.pieces] at hlater
    rw [htext, Text.pieces, Text.cut_append '\n' _ _ hline, List.map_cons, List.cons_append, ← hlater]
    simp [Text.cut]

namespace Graph

variable {g : Graph}

/-! ## The methods of a printer -/

/-- The pieces of the line of a value make up the line. -/
theorem printValue_eq (id : SymbolId) {s : GraphSymbol} (hs : s.kind = .complexValue) :
    g.printValue s = modify (·.emitLine (g.symbolText id s)) := by
  obtain ⟨name, parent, tags, content⟩ := s
  cases content with
  | complexValue isAbstract base properties equalBy =>
    funext w
    cases equalBy with
    | nil =>
      have hline : ∀ start : String, w.emitLine (start ++ equalByText []) = (w.emit start).newline := by
        intro start
        rw [Writer.emitLine, equalByText, List.isEmpty_nil, if_pos rfl, String.append_empty]
      exact congrArg (Prod.mk PUnit.unit) (hline _).symm
    | cons key keys =>
      have hline : ∀ start : String, w.emitLine (start ++ equalByText (key :: keys)) =
          ((w.emit start).emit (equalByText (key :: keys))).newline := by
        intro start
        rw [Writer.emitLine, Writer.emit_append]
      exact congrArg (Prod.mk PUnit.unit) (hline _).symm
  | space | entity | event | externalValue | externalEnum | webApi | path | query | command => cases hs

/-- Where nothing is written below, going a level deeper and back leaves the writer as it was. -/
theorem printAbove_pure (text : String) : printAbove text (pure ()) = modify (·.emitLine text) := by
  funext w
  have hback : (w.emitLine text).indent.outdent = w.emitLine text := rfl
  exact congrArg (Prod.mk PUnit.unit) hback

/-- **The method of a kind writes the line of its symbol and walks one level deeper.** -/
theorem follows_printing (g : Graph) : g.printing.Follows g.printer where
  skips := rfl
  atom := rfl
  graph _ _ := rfl
  symbol namespaces visit id s := by
    rw [g.printing.walk_eq namespaces]
    obtain ⟨name, parent, tags, content⟩ := s
    cases content with
    | complexValue isAbstract base properties equalBy =>
      exact congrArg (· >>= fun _ => _)
        (printValue_eq (g := g) id (s := ⟨name, parent, tags, .complexValue isAbstract base properties equalBy⟩) rfl)
    | space | entity | event | webApi | path | query => rfl
    | externalValue | externalEnum | command => exact (printAbove_pure _).symm

/-! ## Symbols around symbols -/

/-- **The symbols around a symbol**, from its parent to the top. -/
inductive Around (g : Graph) : SymbolId → List SymbolId → Prop
  | top {id : SymbolId} {s : GraphSymbol} : g.symbol? id = some s → s.parent = none → Around g id []
  | inside {id parent : SymbolId} {above : List SymbolId} : g.parent? id = some parent → Around g parent above →
      Around g id (parent :: above)

theorem Climb.exists_around {id : SymbolId} {names : List Identifier} (h : g.Climb id names) :
    ∃ above, g.Around id above := by
  induction h with
  | top hs hp => exact ⟨[], .top hs hp⟩
  | @step id parent s names hs hp _ ih =>
    obtain ⟨above, habove⟩ := ih
    have hparent : g.parent? id = some parent := by rw [parent?, hs, Option.bind_some, hp]
    exact ⟨parent :: above, .inside hparent habove⟩

/-- **The level of a symbol is how many symbols are around it.** -/
theorem IsForest.level_eq_of_around (hg : g.IsForest) {id : SymbolId} {above : List SymbolId} (h : g.Around id above) :
    g.level id = above.length := by
  induction h with
  | top hs hp => exact hg.level_top ((hg.top _).2 ⟨_, hs, hp⟩)
  | @inside id parent above hparent _ ih =>
    obtain ⟨x, hx, hchild⟩ := hg.exists_parent hparent
    exact hg.level_children hx ih id hchild

/-! ## Visits and their lines -/

/-- **What a walk that skips nothing visits**: each symbol, then its properties and filters. -/
def allVisits (g : Graph) : List Visit :=
  g.ids.flatMap fun id =>
    match g.symbol? id with
    | none => []
    | some s => .symbol id s :: (s.content.properties ++ s.content.filters).map (.atom id)

end Graph

namespace Visit

/-- What the line of a visit says. -/
def text (g : Graph) : Visit → String
  | graph => ""
  | symbol id s => g.symbolText id s
  | atom _ a => g.atomText a

def depth (g : Graph) : Visit → Nat
  | graph => 0
  | symbol id _ => g.level id
  | atom owner _ => g.level owner + 1

end Visit

namespace Graph

variable {g : Graph}

theorem symbol_mem_allVisits_iff {id : SymbolId} {s : GraphSymbol} :
    .symbol id s ∈ g.allVisits ↔ g.symbol? id = some s := by
  constructor
  · intro h
    obtain ⟨i, -, h⟩ := List.mem_flatMap.1 h
    cases hx : g.symbol? i with
    | none => simp [hx] at h
    | some x =>
      obtain ⟨rfl, rfl⟩ : id = i ∧ s = x := by simpa [hx] using h
      exact hx
  · intro hs
    refine List.mem_flatMap.2 ⟨id, mem_ids_of_symbol? hs, ?_⟩
    rw [hs]
    exact List.mem_cons_self

theorem exists_owner_of_atom_mem {owner : SymbolId} {a : GraphAtom} (h : .atom owner a ∈ g.allVisits) :
    ∃ s, g.symbol? owner = some s := by
  obtain ⟨i, -, h⟩ := List.mem_flatMap.1 h
  cases hx : g.symbol? i with
  | none => simp [hx] at h
  | some x =>
    rw [hx] at h
    rcases List.mem_cons.1 h with h | h
    · cases h
    · obtain ⟨b, -, hb⟩ := List.mem_map.1 h
      cases hb
      exact ⟨x, hx⟩

theorem allVisits_eq (g : Graph) : g.allVisits = g.ids.flatMap (g.visitsOf fun _ => false) := by
  refine List.flatMap_congr fun id _ => ?_
  unfold visitsOf
  cases g.symbol? id with
  | none => rfl
  | some s => simp only [Bool.not_false, List.filter_true]

theorem lines_eq_map_allVisits (g : Graph) : g.lines = g.allVisits.map fun v => (v.depth g, v.text g) := by
  rw [lines, allVisits, List.map_flatMap]
  refine List.flatMap_congr fun id _ => ?_
  unfold linesOf
  cases g.symbol? id with
  | none => rfl
  | some s => rw [List.map_cons, List.map_map]; rfl

theorem isLine_of_mem_allVisits {v : Visit} (hv : v ∈ g.allVisits) : Text.IsLine (v.text g) :=
  g.isLine_of_mem_lines (g.lines_eq_map_allVisits ▸ List.mem_map_of_mem hv)

/-- **A walk that skips nothing visits everything**, in the order of the numbers. -/
theorem IsForest.accept_eq_allVisits (hg : g.IsForest) {m : Type → Type} [Monad m] [LawfulMonad m] (h : Handlers m) :
    g.accept (h.visitor fun _ => false) = forM (.graph :: g.allVisits.map Visit.subject) h.visit := by
  obtain ⟨shown, hsub, hmem, haccept⟩ := hg.exists_accept_eq (fun _ => false) rfl
  have hshown : shown = g.ids := eq_ids_of_sublist hsub fun id hid => (hmem id).2 ⟨hid, fun _ _ _ _ => rfl⟩
  rw [haccept h, hshown, allVisits_eq, List.map_flatMap]
  simp only [map_subject_visitsOf]

/-! ## The summary of a compiled graph -/

/-- **The summary of a compiled graph has a line for each symbol, property and filter.**  A walk that skips nothing
visits these in this order.  Cut at its line ends the summary is their lines, with nothing behind the last: none is
empty or broken, and each starts with a letter behind four blanks for each level.  The level of a symbol is the number
of symbols around it, and that of a property or filter is one more than its owner's.  The printer, visiting by its
methods, ends at no level and at the start of a line. -/
theorem summary_of_compiled {options : CompileOptions} {forest : List Source.Tree}
    (hg : compileForest options forest = .ok g) :
    (∀ {m : Type → Type} [Monad m] [LawfulMonad m] (h : Handlers m),
        g.accept (h.visitor fun _ => false) = forM (.graph :: g.allVisits.map Visit.subject) h.visit) ∧
      Text.pieces (· == '\n') g.summary.toList =
        g.allVisits.map (fun v => List.replicate (4 * v.depth g) ' ' ++ (v.text g).toList) ++ [[]] ∧
      (∀ v ∈ g.allVisits, '\n' ∉ (v.text g).toList ∧ ∃ c cs, (v.text g).toList = c :: cs ∧ c.isAlpha = true) ∧
      (∀ id s, .symbol id s ∈ g.allVisits → (∃ above, g.Around id above) ∧
        ∀ above, g.Around id above → (Visit.symbol id s).depth g = above.length) ∧
      (∀ owner a, .atom owner a ∈ g.allVisits →
        ∃ s, .symbol owner s ∈ g.allVisits ∧ (Visit.atom owner a).depth g = (Visit.symbol owner s).depth g + 1) ∧
      ((g.acceptBy g.printing).run Writer.start).2 = ⟨g.summary, 0, true⟩ := by
  obtain ⟨-, rfl⟩ := Table.compileForest_eq_ok_iff.1 hg
  have hforest : (graphOf options.outside forest).IsForest := isForest_ofGroups _ _
  refine ⟨fun h => hforest.accept_eq_allVisits h, ?lines, fun v hv => ?line, fun id s hs => ?symbol,
    fun owner a ha => ?atom, ?printer⟩
  case lines =>
    rw [hforest.summary_eq, Writer.pieces_lines fun l hl => (isLine_of_mem_lines _ hl).unbroken, lines_eq_map_allVisits,
      List.map_map]
    rfl
  case line =>
    obtain ⟨hbreak, hletter⟩ := isLine_of_mem_allVisits hv
    exact ⟨hbreak, hletter⟩
  case symbol =>
    obtain ⟨name, -, hclimb⟩ := hforest.climb id (mem_ids_of_symbol? (symbol_mem_allVisits_iff.1 hs))
    exact ⟨hclimb.exists_around, fun above habove => hforest.level_eq_of_around habove⟩
  case atom =>
    obtain ⟨s, hs⟩ := exists_owner_of_atom_mem ha
    exact ⟨s, symbol_mem_allVisits_iff.2 hs, rfl⟩
  case printer =>
    rw [(follows_printing _).acceptBy_eq]
    refine hforest.written_accept.trans ?_
    rw [hforest.summary_eq]

/-- The summary of the shop ends in a filter, four levels deep. -/
theorem summary_of_compiled_shop :
    compileForest {} Source.Small.shop = .ok (graphOf .empty Source.Small.shop) ∧
      (graphOf .empty Source.Small.shop).allVisits.map (·.depth (graphOf .empty Source.Small.shop)) =
        [0, 1, 1, 2, 3, 1, 1, 2, 3, 4] ∧
      Text.pieces (· == '\n') (graphOf .empty Source.Small.shop).summary.toList =
        (graphOf .empty Source.Small.shop).allVisits.map (fun v =>
          List.replicate (4 * v.depth (graphOf .empty Source.Small.shop)) ' ' ++
            (v.text (graphOf .empty Source.Small.shop)).toList) ++ [[]] ∧
      ((acceptBy (graphOf .empty Source.Small.shop) (graphOf .empty Source.Small.shop).printing).run Writer.start).2 =
        ⟨(graphOf .empty Source.Small.shop).summary, 0, true⟩ := by
  have hg : compileForest {} Source.Small.shop = .ok (graphOf .empty Source.Small.shop) :=
    Table.compileForest_eq_ok_iff.2 ⟨by decide, rfl⟩
  obtain ⟨-, hlines, -, -, -, hprinter⟩ := summary_of_compiled hg
  exact ⟨hg, by decide, hlines, hprinter⟩

end Graph
end DomainModel
