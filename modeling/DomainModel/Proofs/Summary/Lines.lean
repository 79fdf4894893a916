import DomainModel.Proofs.Graph.Level
import DomainModel.Proofs.Text.Written
import DomainModel.Summary
/-!
# Lines — a summary is a list of lines

Each symbol of a forest of symbols has its line, followed by those of its properties or filters, and the summary of the
graph is these lines in the order of the numbers, each indented by the number of names above (`IsForest.summary_eq`).  A
symbol's own line starts with a keyword and no other line does, so graphs with one summary have the same lines symbol by
symbol (`IsForest.linesOf_eq_of_summary_eq`).
-/
namespace DomainModel

/-! ## Blocks of lines -/

open Text (Stops append_inj_of_all)

/-- A first line of one class with lines of another class below. -/
def Text.IsBlock {α : Type} (p : α → Bool) (ls : List α) : Prop :=
  ∃ first below, ls = first :: below ∧ p first = true ∧ ∀ l ∈ below, p l = false

theorem Text.stops_flatMap_of_isBlock {α ι : Type} {p : α → Bool} {f : ι → List α} {is : List ι}
    (hf : ∀ i ∈ is, IsBlock p (f i)) : Stops (fun l => !p l) (is.flatMap f) := by
  cases is with
  | nil => exact .nil
  | cons i is =>
    obtain ⟨first, below, hi, hfirst, -⟩ := hf i List.mem_cons_self
    rw [List.flatMap_cons, hi, List.cons_append]
    exact .cons (by rw [hfirst]; rfl)

/-- **Where blocks end is known from the lines.** -/
theorem Text.flatMap_inj_of_isBlock {α ι : Type} {p : α → Bool} {f k : ι → List α} : ∀ {is js : List ι},
    (∀ i ∈ is, IsBlock p (f i)) → (∀ j ∈ js, IsBlock p (k j)) → is.flatMap f = js.flatMap k → is.map f = js.map k
  | [], [], _, _, _ => rfl
  | [], j :: js, _, hk, h => by
    obtain ⟨first, below, hj, -⟩ := hk j List.mem_cons_self
    rw [List.flatMap_cons, hj] at h
    cases h
  | i :: is, [], hf, _, h => by
    obtain ⟨first, below, hi, -⟩ := hf i List.mem_cons_self
    rw [List.flatMap_cons, hi] at h
    cases h
  | i :: is, j :: js, hf, hk, h => by
    obtain ⟨hi, his⟩ := List.forall_mem_cons.1 hf
    obtain ⟨hj, hjs⟩ := List.forall_mem_cons.1 hk
    obtain ⟨first, below, hfirst, -, hbelow⟩ := hi
    obtain ⟨first', below', hfirst', -, hbelow'⟩ := hj
    rw [List.flatMap_cons, List.flatMap_cons, hfirst, hfirst', List.cons_append, List.cons_append, List.cons.injEq] at h
    obtain ⟨rfl, h⟩ := h
    obtain ⟨rfl, hrest⟩ := append_inj_of_all (p := fun l => !p l) (fun l hl => by simp [hbelow l hl])
      (fun l hl => by simp [hbelow' l hl]) (stops_flatMap_of_isBlock his) (stops_flatMap_of_isBlock hjs) h
    rw [List.map_cons, List.map_cons, hfirst, hfirst', flatMap_inj_of_isBlock his hjs hrest]

/-! ## The line of a symbol -/

theorem Identifier.not_break (i : Identifier) : '\n' ∉ i.text.toList :=
  fun h => absurd (i.all_isAlphanum _ h) (by decide)

/-- The name of a built-in type: its keyword. -/
def BuiltIn.fullName (b : BuiltIn) : QualifiedName := .single ⟨b.keyword, by cases b <;> decide⟩

theorem BuiltIn.text_fullName (b : BuiltIn) : b.fullName.text = b.keyword := by cases b <;> decide

/-- What a line starts with, by the kind of the symbol and whether it is abstract. -/
def SymbolKind.head : SymbolKind × Option Bool → String
  | (.space, _) => "namespace "
  | (.entity, isAbstract) => Graph.abstractText (isAbstract.getD false) ++ "entity "
  | (.event, isAbstract) => Graph.abstractText (isAbstract.getD false) ++ "event "
  | (.complexValue, isAbstract) => Graph.abstractText (isAbstract.getD false) ++ "value "
  | (.externalValue, _) => "external value "
  | (.externalEnum, _) => "external enum "
  | (.webApi, _) => "api "
  | (.path, _) => "path "
  | (.query, _) => "query "
  | (.command, _) => "command "

/-- The kinds, with what there is to say on whether a symbol of the kind is abstract. -/
def SymbolKind.headed : List (SymbolKind × Option Bool) :=
  [(.space, none), (.entity, some true), (.entity, some false), (.event, some true), (.event, some false),
    (.complexValue, some true), (.complexValue, some false), (.externalValue, none), (.externalEnum, none),
    (.webApi, none), (.path, none), (.query, none), (.command, none)]

/-- **No head begins another.** -/
theorem SymbolKind.eq_of_head_prefix : ∀ a ∈ headed, ∀ b ∈ headed, (head a).toList <+: (head b).toList → a = b := by
  decide

theorem Content.mem_headed {L : Type} (c : Content L) : (c.kind, c.isAbstract?) ∈ SymbolKind.headed := by
  cases c with
  | entity isAbstract | event isAbstract | complexValue isAbstract =>
    cases isAbstract <;> simp [SymbolKind.headed, kind, isAbstract?]
  | space | externalValue | externalEnum | webApi | path | query | command =>
    simp [SymbolKind.headed, kind, isAbstract?]

namespace Graph

open Text (isNameChar isTypeChar)

variable (g : Graph)

/-- The name on the line of a symbol, a namespace having its full name. -/
def nameText (id : SymbolId) (s : GraphSymbol) : String :=
  match s.kind with
  | .space => ((g.fullName? id).map (·.text)).getD ""
  | _ => s.name.text

/-- The argument and the result of an operation. -/
def signatureText (o : OperationSymbol (Option TypeRef)) : String :=
  (o.argument.map fun a => "(" ++ a.name.text ++ ": " ++ g.typeText a.type ++ ")").getD "" ++
    (" -> " ++ g.typeText o.result)

/-- What the line of a symbol says behind the name. -/
def restText : Content (Option TypeRef) → String
  | .space _ | .externalEnum => ""
  | .entity _ identity base _ =>
    match identity with
    | some identity => " identity " ++ g.typeText identity
    | none => g.baseText base
  | .event _ base _ | .externalValue base => g.baseText base
  | .complexValue _ base _ equalBy => g.baseText base ++ equalByText equalBy
  | .webApi o _ _ | .path o _ _ | .query o _ | .command o => g.signatureText o

/-- **A line is the head of its symbol, the name, and what is behind.** -/
theorem symbolText_eq (id : SymbolId) (s : GraphSymbol) :
    g.symbolText id s =
      SymbolKind.head (s.content.kind, s.content.isAbstract?) ++ (g.nameText id s ++ g.restText s.content) := by
  obtain ⟨name, parent, tags, content⟩ := s
  cases content with
  | space => exact congrArg (_ ++ ·) String.append_empty.symm
  | externalEnum => exact congrArg (_ ++ ·) String.append_empty.symm
  | entity | event | externalValue => exact String.append_assoc
  | complexValue =>
    simp only [symbolText, restText, Content.kind, Content.isAbstract?, SymbolKind.head, Option.getD_some,
      String.append_assoc]
    rfl
  | webApi o | path o | query o | command o =>
    have hkeyword : ∀ keyword : String,
        g.operationText keyword name o = (keyword ++ " ") ++ (name.text ++ g.signatureText o) := by
      intro keyword
      apply String.toList_inj.1
      unfold operationText signatureText
      cases o.argument <;> simp [String.toList_append]
    exact hkeyword _

/-! ## Texts stand on lines -/

theorem all_isTypeChar_lookupText (r : Option TypeRef) : ∀ c ∈ (g.lookupText r).toList, isTypeChar c = true := by
  have hname : ∀ name : QualifiedName, ∀ c ∈ name.text.toList, isTypeChar c = true := by
    intro name c hc
    simp [isTypeChar, name.all_isNameChar c hc]
  rcases r with _ | b | e | id
  · have hmark : "?".toList.all isTypeChar = true := by decide
    exact List.all_eq_true.1 hmark
  · have hkeyword : g.lookupText (some (.builtIn b)) = b.keyword := rfl
    rw [hkeyword, ← b.text_fullName]
    exact hname b.fullName
  · exact hname e.fullName
  · have hsymbol : g.lookupText (some (.symbol id)) = ((g.fullName? id).map (·.text)).getD "" := rfl
    rw [hsymbol]
    cases g.fullName? id with
    | none => simp
    | some name => exact hname name

theorem all_isTypeChar_typeText (t : TypeUse (Option TypeRef)) : ∀ c ∈ (g.typeText t).toList, isTypeChar c = true := by
  intro c hc
  rw [typeText, String.toList_append, List.mem_append] at hc
  rcases hc with hc | hc
  · exact g.all_isTypeChar_lookupText _ c hc
  · exact t.cardinality.all_isTypeChar_suffix c hc

theorem not_break_lookupText (r : Option TypeRef) : '\n' ∉ (g.lookupText r).toList :=
  fun h => absurd (g.all_isTypeChar_lookupText r _ h) (by decide)

theorem not_break_typeText (t : TypeUse (Option TypeRef)) : '\n' ∉ (g.typeText t).toList :=
  fun h => absurd (g.all_isTypeChar_typeText t _ h) (by decide)

theorem not_break_baseText (base : Option (Option TypeRef)) : '\n' ∉ (g.baseText base).toList := by
  cases base with
  | none => simp [baseText]
  | some r => simpa [baseText, String.toList_append] using g.not_break_lookupText r

theorem not_break_equalByText (equalBy : List Identifier) : '\n' ∉ (equalByText equalBy).toList := by
  have hnames : ∀ names : List Identifier, '\n' ∉ (", ".intercalate (names.map (·.text))).toList := by
    intro names
    induction names with
    | nil => simp
    | cons i is ih =>
      cases is with
      | nil => simpa using i.not_break
      | cons j js =>
        rw [List.map_cons, List.map_cons, String.intercalate_cons_cons]
        simpa [String.toList_append, i.not_break] using ih
  unfold equalByText
  split
  · simp
  · simpa [String.toList_append] using hnames equalBy

theorem all_isNameChar_nameText (id : SymbolId) (s : GraphSymbol) :
    ∀ c ∈ (g.nameText id s).toList, isNameChar c = true := by
  have hname : ∀ c ∈ s.name.text.toList, isNameChar c = true := by
    intro c hc
    simp [isNameChar, s.name.all_isAlphanum c hc]
  unfold nameText
  split
  · cases g.fullName? id with
    | none => simp
    | some name => exact name.all_isNameChar
  · exact hname

theorem not_break_restText (c : Content (Option TypeRef)) : '\n' ∉ (g.restText c).toList := by
  have hsignature : ∀ o : OperationSymbol (Option TypeRef), '\n' ∉ (g.signatureText o).toList := by
    intro o
    unfold signatureText
    cases o.argument with
    | none => simp [String.toList_append, not_break_typeText]
    | some a => simp [String.toList_append, not_break_typeText, a.name.not_break]
  cases c with
  | space | externalEnum => simp [restText]
  | entity _ identity base _ =>
    cases identity with
    | none => exact g.not_break_baseText base
    | some t => simp [restText, String.toList_append, not_break_typeText]
  | event _ base | externalValue base => exact g.not_break_baseText base
  | complexValue => simp [restText, String.toList_append, not_break_baseText, not_break_equalByText]
  | webApi o | path o | query o | command o => exact hsignature o

theorem isLine_symbolText (id : SymbolId) (s : GraphSymbol) : Text.IsLine (g.symbolText id s) := by
  have hhead : ∀ a ∈ SymbolKind.headed, '\n' ∉ (SymbolKind.head a).toList ∧
      ((SymbolKind.head a).toList.head?.any Char.isAlpha) = true := by decide
  obtain ⟨hbreak, hletter⟩ := hhead _ s.content.mem_headed
  rw [symbolText_eq]
  generalize SymbolKind.head (s.content.kind, s.content.isAbstract?) = head at hbreak hletter ⊢
  refine ⟨?_, ?_⟩
  · rw [String.toList_append, String.toList_append, List.mem_append, List.mem_append]
    rintro (h | h | h)
    · exact hbreak h
    · exact absurd (g.all_isNameChar_nameText id s _ h) (by decide)
    · exact g.not_break_restText _ h
  · rw [String.toList_append]
    cases hcs : head.toList with
    | nil => rw [hcs] at hletter; cases hletter
    | cons c cs =>
      rw [hcs] at hletter
      exact ⟨c, _, rfl, hletter⟩

theorem isLine_atomText (a : GraphAtom) : Text.IsLine (g.atomText a) := by
  obtain ⟨c, cs, hcs, hc⟩ := a.name.exists_letter
  refine ⟨?_, c, ?_⟩
  · unfold atomText
    cases a.aliasName with
    | none => simp [String.toList_append, a.name.not_break, not_break_typeText]
    | some i => simp [String.toList_append, a.name.not_break, not_break_typeText, i.not_break]
  · simp [atomText, String.toList_append, hcs, hc]

/-! ## The lines of a graph -/

/-- **The line of a symbol, and those of its properties or filters** one level deeper. -/
def linesOf (id : SymbolId) : List (Nat × String) :=
  match g.symbol? id with
  | none => []
  | some s => (g.level id, g.symbolText id s) :: s.content.atoms.map fun a => (g.level id + 1, g.atomText a)

theorem linesOf_of_symbol? {id : SymbolId} {s : GraphSymbol} (hs : g.symbol? id = some s) :
    g.linesOf id = (g.level id, g.symbolText id s) :: s.content.atoms.map fun a => (g.level id + 1, g.atomText a) := by
  rw [linesOf, hs]

def lines : List (Nat × String) := g.ids.flatMap g.linesOf

theorem isLine_of_mem_lines {l : Nat × String} (hl : l ∈ g.lines) : Text.IsLine l.2 := by
  obtain ⟨id, -, hl⟩ := List.mem_flatMap.1 hl
  unfold linesOf at hl
  split at hl
  · cases hl
  · rcases List.mem_cons.1 hl with rfl | hl
    · exact g.isLine_symbolText _ _
    · obtain ⟨a, -, rfl⟩ := List.mem_map.1 hl
      exact g.isLine_atomText a

/-- What is written when a walk is over. -/
def written (walk : StateM Writer Unit) (w : Writer) : Writer := (walk.run w).2

theorem written_forM {α : Type} (visit : α → StateM Writer Unit) : ∀ (as : List α) (w : Writer),
    written (as.forM visit) w = as.foldl (fun w a => written (visit a) w) w
  | [], _ => rfl
  | a :: as, w => written_forM visit as (written (visit a) w)

variable {g}

theorem written_visitWithin {fuel : Nat} {id : SymbolId} {s : GraphSymbol} (hs : g.symbol? id = some s) (w : Writer) :
    written (g.visitWithin g.printer (fuel + 1) id) w =
      (written (s.children.forM (g.visitWithin g.printer fuel))
        ((s.content.atoms.map g.atomText).foldl Writer.emitLine (w.emitLine (g.symbolText id s)).indent)).outdent := by
  have hatoms : written (s.content.atoms.forM g.printer.visitAtom) (w.emitLine (g.symbolText id s)).indent =
      (s.content.atoms.map g.atomText).foldl Writer.emitLine (w.emitLine (g.symbolText id s)).indent := by
    rw [written_forM, List.foldl_map]
    rfl
  rw [← hatoms, visitWithin, hs]
  rfl

/-- **A walk over symbols writes their lines**, in the order in which it passes them. -/
theorem written_walk (hg : g.IsForest) {ids passed : List SymbolId} (hw : g.Walk ids passed) :
    ∀ {fuel d : Nat} (output : String), (∀ i ∈ ids, g.size ≤ fuel + i.index) → (∀ i ∈ ids, g.level i = d) →
      written (ids.forM (g.visitWithin g.printer fuel)) ⟨output, d, true⟩ =
        ⟨output ++ Writer.lines (passed.flatMap g.linesOf), d, true⟩ := by
  induction hw with
  | nil =>
    intro fuel d output _ _
    rw [List.flatMap_nil, Writer.lines, String.append_empty]
    rfl
  | @cons id x ids below after hx hbelow hafter ihbelow ihafter =>
    intro fuel d output hfuel hlevel
    obtain ⟨hid, hfuel⟩ := List.forall_mem_cons.1 hfuel
    obtain ⟨hd, hlevel⟩ := List.forall_mem_cons.1 hlevel
    obtain ⟨hlt, -⟩ := List.getElem?_eq_some_iff.1 hx
    have hsize : id.index < g.size := hlt
    obtain ⟨fuel, rfl⟩ : ∃ n, fuel = n + 1 := ⟨fuel - 1, by omega⟩
    -- Children have greater numbers, so one step less is enough for them.
    have hdeeper : ∀ c ∈ x.children, g.size ≤ fuel + c.index := by
      intro c hc
      have hparent := hg.parent_lt c id ((hg.mem_children_iff hx).1 hc)
      omega
    have hlines : g.linesOf id =
        (d, g.symbolText id x) :: (x.content.atoms.map g.atomText).map fun text => (d + 1, text) := by
      rw [g.linesOf_of_symbol? hx, hd, List.map_map]
      rfl
    have hatoms : ∀ text ∈ x.content.atoms.map g.atomText, Text.IsLine text := by
      intro text htext
      obtain ⟨a, -, rfl⟩ := List.mem_map.1 htext
      exact g.isLine_atomText a
    have hfirst : written (g.visitWithin g.printer (fuel + 1) id) ⟨output, d, true⟩ =
        ⟨output ++ Writer.lines (g.linesOf id ++ below.flatMap g.linesOf), d, true⟩ := by
      rw [written_visitWithin hx, Writer.emitLine_start (g.isLine_symbolText id x), Writer.indent,
        Writer.foldl_emitLine (d + 1) _ _ hatoms, ihbelow _ hdeeper (hg.level_children hx hd), hlines,
        Writer.lines_append, Writer.lines]
      simp only [Writer.outdent, Nat.add_sub_cancel, String.append_assoc]
    rw [written_forM, List.foldl_cons, hfirst, ← written_forM, ihafter _ hfuel hlevel, List.flatMap_cons,
      List.flatMap_append, ← List.append_assoc, Writer.lines_append (_ ++ _), String.append_assoc]

/-- A printer ends where it started, at the start of a line and at no level. -/
theorem IsForest.written_accept (hg : g.IsForest) :
    written (g.accept g.printer) Writer.start = ⟨Writer.lines g.lines, 0, true⟩ := by
  have hwritten : written (g.namespaces.forM (g.visitWithin g.printer g.size)) Writer.start =
      ⟨"" ++ Writer.lines g.lines, 0, true⟩ :=
    written_walk hg hg.walk "" (fun i _ => Nat.le_add_right _ _) fun i hi => hg.level_top hi
  rw [String.empty_append] at hwritten
  exact hwritten

/-- **The summary of a graph is its lines**, in the order of the numbers. -/
theorem IsForest.summary_eq (hg : g.IsForest) : g.summary = Writer.lines g.lines :=
  congrArg Writer.output hg.written_accept

/-! ## The lines of each symbol -/

/-- A line that starts with a keyword: a blank stands behind its first word. -/
def startsWithKeyword (l : Nat × String) : Bool := (l.2.toList.dropWhile Char.isAlphanum).head? == some ' '

theorem startsWithKeyword_symbolText (level : Nat) (id : SymbolId) (x : GraphSymbol) :
    startsWithKeyword (level, g.symbolText id x) = true := by
  have hhead : ∀ a ∈ SymbolKind.headed, ((SymbolKind.head a).toList.dropWhile Char.isAlphanum).head? = some ' ' := by
    decide
  have hfirst := hhead _ x.content.mem_headed
  rw [startsWithKeyword, symbolText_eq, String.toList_append, List.dropWhile_append]
  split
  · rename_i hnil
    rw [List.isEmpty_iff.1 hnil] at hfirst
    cases hfirst
  · rw [List.head?_append, hfirst]
    rfl

theorem startsWithKeyword_atomText (level : Nat) (a : GraphAtom) : startsWithKeyword (level, g.atomText a) = false := by
  unfold startsWithKeyword atomText
  simp only [String.toList_append, List.append_assoc]
  rw [List.dropWhile_append_of_pos a.name.all_isAlphanum]
  rfl

theorem isBlock_linesOf {id : SymbolId} (hid : id ∈ g.ids) : Text.IsBlock startsWithKeyword (g.linesOf id) := by
  obtain ⟨x, hx⟩ := exists_symbol_of_mem_ids hid
  refine ⟨_, _, g.linesOf_of_symbol? hx, startsWithKeyword_symbolText _ _ _, fun l hl => ?_⟩
  obtain ⟨a, -, rfl⟩ := List.mem_map.1 hl
  exact startsWithKeyword_atomText _ _

/-- **Graphs with one summary have as many symbols, and those of one number have the same lines.** -/
theorem IsForest.linesOf_eq_of_summary_eq {h : Graph} (hg : g.IsForest) (hh : h.IsForest)
    (hsummary : g.summary = h.summary) : g.ids = h.ids ∧ ∀ id ∈ g.ids, g.linesOf id = h.linesOf id := by
  rw [hg.summary_eq, hh.summary_eq] at hsummary
  have heq := Writer.lines_injective (fun _ => g.isLine_of_mem_lines) (fun _ => h.isLine_of_mem_lines) hsummary
  have hmap : g.ids.map g.linesOf = h.ids.map h.linesOf :=
    Text.flatMap_inj_of_isBlock (fun _ => isBlock_linesOf) (fun _ => isBlock_linesOf) heq
  have hsize : g.size = h.size := by simpa [ids] using congrArg List.length hmap
  have hids : g.ids = h.ids := by rw [ids, ids, hsize]
  rw [← hids] at hmap
  exact ⟨hids, List.map_inj_left.1 hmap⟩

/-- **What the lines of a symbol tell**: the level, the line of the symbol and those of its properties or filters. -/
theorem texts_of_linesOf_eq {h : Graph} {i j : SymbolId} {x y : GraphSymbol} (hx : g.symbol? i = some x)
    (hy : h.symbol? j = some y) (heq : g.linesOf i = h.linesOf j) :
    g.level i = h.level j ∧ g.symbolText i x = h.symbolText j y ∧
      x.content.atoms.map g.atomText = y.content.atoms.map h.atomText := by
  rw [g.linesOf_of_symbol? hx, h.linesOf_of_symbol? hy] at heq
  obtain ⟨hfirst, hbelow⟩ := List.cons.inj heq
  obtain ⟨hlevel, htext⟩ := Prod.mk.inj hfirst
  have hatoms := congrArg (List.map Prod.snd) hbelow
  rw [List.map_map, List.map_map] at hatoms
  exact ⟨hlevel, htext, hatoms⟩

end Graph
end DomainModel
