import DomainModel.Proofs.Graph.Building
import DomainModel.Proofs.Graph.Derived
import DomainModel.Proofs.Rules.Circles
import DomainModel.Proofs.Table.Single
/-!
# Circular — compiling models with circles of bases

Where circles are not looked for, a forest is told what it is told otherwise, without the circles
(`observe_circles_off`).  So a model that compiles still does, and a model that is told of nothing but circles does as
well: in its graph, whose every base is there, the declarations on a circle are symbols whose bases lead back to them
(`compileForest_circles_off`).
-/
namespace DomainModel

open Source (At DerivesFrom Node Obeys OnCircle declarationsOf)

/-! ## Observations on circles -/

namespace Observation

/-- How a text that tells of a circle ends. -/
def circleEnding : List Char := " has a circular base chain.".toList

/-- **An observation tells of a circle.** -/
def tellsCircle (o : Observation) : Bool := circleEnding.isSuffixOf o.text.toList

theorem tellsCircle_iff (start : String) (last : List Char) :
    (ofMessage (start ++ String.ofList last)).tellsCircle = true ↔ circleEnding <:+ start.toList ++ last := by
  have htext : (ofMessage (start ++ String.ofList last)).text.toList = start.toList ++ last := by
    simp [text, ofMessage, String.toList_append]
  rw [tellsCircle, List.isSuffixOf_iff_suffix, htext]

theorem tellsCircle_eq_false (start : String) {last : List Char} (h : 2 ≤ last.length ∧ ¬ ['n', '.'] <:+ last) :
    (ofMessage (start ++ String.ofList last)).tellsCircle = false := by
  rw [Bool.eq_false_iff, Ne, tellsCircle_iff]
  intro hsuffix
  -- The last two letters tell enough.
  have hletters : ['n', '.'] <:+ circleEnding := by decide
  exact h.2 (List.suffix_of_suffix_length_le (hletters.trans hsuffix) (List.suffix_append _ _) h.1)

end Observation

open Observation (tellsCircle tellsCircle_eq_false)

/-- **Of the violations those of the rule on circles tell of one.** -/
theorem Violation.tellsCircle_observation (v : Violation) : v.observation.tellsCircle = v.isCircular := by
  cases v with
  | circularBases kind name =>
    refine (Observation.tellsCircle_iff _ _).2 (List.IsSuffix.trans ?_ (List.suffix_append _ _))
    exact List.suffix_cons _ _
  | _ => exact tellsCircle_eq_false _ (by decide)

theorem Conflict.tellsCircle_message (c : Conflict) : (Observation.ofMessage c.message).tellsCircle = false := by
  have hkind : ∀ (start : String) (kind : DeclarationKind),
      (Observation.ofMessage (start ++ kind.name ++ ".")).tellsCircle = false := by
    intro start kind
    rw [String.append_assoc, ← String.ofList_toList (s := kind.name ++ ".")]
    refine tellsCircle_eq_false _ ?_
    cases kind <;> decide
  unfold message
  split
  · exact tellsCircle_eq_false _ (by decide)
  · exact hkind _ c.second

namespace Table

variable {t : Table} {s : Scope} {outside : Universe} {forest : List Source.Tree}

/-! ## The rules -/

theorem checkBase_circles_off (kind : DeclarationKind) (builtInAllowed : Bool) (name : Identifier)
    (base : Option Source.Reference) : t.checkBase false s kind builtInAllowed name base =
      (t.checkBase true s kind builtInAllowed name base).filter fun v => !v.isCircular := by
  cases base with
  | none => rfl
  | some r =>
    simp only [checkBase, checkReference]
    cases t.resolveIn s r.name with
    | none => rfl
    | some m =>
      cases m with
      | builtIn => cases builtInAllowed <;> rfl
      | external => rfl
      | declaration d =>
        by_cases hk : d.kind = kind
        · by_cases hn : d.fullName = s.qualify name
          · simp [hk, hn, Violation.isCircular]
          · cases hr : t.reaches (s.qualify name) kind d <;> simp [hk, hn, hr, violationIf, Violation.isCircular]
        · simp [hk, Violation.isCircular]

theorem filter_not_isCircular {vs : List Violation} (h : vs.filter Violation.isLoop = []) :
    vs.filter (fun v => !v.isCircular) = vs := by
  refine List.filter_eq_self.2 fun v hv => ?_
  have hloop := List.filter_eq_nil_iff.1 h v hv
  rw [Violation.isLoop, Bool.or_eq_true, not_or, Bool.not_eq_true, Bool.not_eq_true] at hloop
  rw [hloop.2]
  rfl

/-- **No rule but that on bases looks for circles.** -/
theorem violationsAt_circles_off (s : Scope) (n : Node) :
    t.violationsAt false s n = (t.violationsAt true s n).filter fun v => !v.isCircular := by
  cases n with
  | entity e =>
    rw [violationsAt, violationsAt, List.filter_append, filter_not_isCircular (filter_isLoop_checkIdentity e),
      checkBase_circles_off]
  | event e => exact checkBase_circles_off ..
  | value v => exact checkBase_circles_off ..
  | webApi | externalEnum | tree | block => rfl
  | property p => exact (filter_not_isCircular (filter_isLoop_violationsAt s (.property p))).symm
  | path p => exact (filter_not_isCircular (filter_isLoop_violationsAt s (.path p))).symm
  | query q => exact (filter_not_isCircular (filter_isLoop_violationsAt s (.query q))).symm
  | command o => exact (filter_not_isCircular (filter_isLoop_violationsAt s (.command o))).symm
  | filter a => exact (filter_not_isCircular (filter_isLoop_violationsAt s (.filter a))).symm

theorem check_circles_off (groups : List Group) :
    t.check false groups = (t.check true groups).filter fun v => !v.isCircular := by
  rw [check_eq, check_eq, List.filter_flatMap]
  simp only [violationsAt_circles_off]

theorem leadsAway_circles_off_iff (h : Distinct (declarationsOf forest)) {d : Declaration}
    (hd : d ∈ declarationsOf forest) : (ofForest outside forest).LeadsAway false d ↔ ¬ DerivesFrom outside forest d d := by
  unfold LeadsAway
  simp only [derives_iff h]
  constructor
  · exact fun hlead hself => (hlead d hself).1 rfl
  · refine fun hself b hdb => ⟨fun hn => hself ?_, nofun⟩
    rwa [h.eq (mem_of_derivesFrom h hdb) hd hn] at hdb

end Table

/-- **Where circles are not looked for, everything else is told**, in the same order. -/
theorem observe_circles_off (limit : Nat) (outside : Universe) (forest : List Source.Tree) :
    observe { limit, circles := false, outside } forest =
      (observe { limit, circles := true, outside } forest).filter fun o => !o.tellsCircle := by
  have hconflicts : ∀ cs : List Conflict, (cs.map fun c => Observation.ofMessage c.message).filter
      (fun o => !o.tellsCircle) = cs.map fun c => Observation.ofMessage c.message := by
    intro cs
    refine List.filter_eq_self.2 fun o ho => ?_
    obtain ⟨c, -, rfl⟩ := List.mem_map.1 ho
    rw [c.tellsCircle_message]
    rfl
  unfold observe
  simp only
  rw [List.filter_append, hconflicts, List.filter_map, Table.check_circles_off]
  simp only [Function.comp_def, Violation.tellsCircle_observation]

/-! ## The graph of a model with circles -/

theorem Source.Node.written?_base {s : Scope} {n : Node} {d : Declaration} (hd : n.declaration? s = some d)
    {r : QualifiedName} (hr : d.base = some r) : n.written? s .base = some ⟨r, d.scope⟩ := by
  have hbase : ∀ {base : Option Reference}, base.map (·.name) = some r →
      base.map (fun b => (⟨b.name, s⟩ : Written)) = some ⟨r, s⟩ := by
    intro base h
    obtain ⟨b, rfl, rfl⟩ := Option.map_eq_some_iff.1 h
    rfl
  cases n with
  | entity | event | value => cases hd; exact hbase hr
  | webApi | externalEnum => cases hd; cases hr
  | tree | block | property | path | query | command | filter => cases hd

namespace Graph

variable {outside : Universe} {forest : List Source.Tree}

section Distinct

variable (h : Table.Distinct (declarationsOf forest)) {d b : Declaration} (hd : d ∈ declarationsOf forest)
include h hd

/-- **The symbol of a declaration holds the base of the declaration.** -/
theorem lookup?_base {id : SymbolId} (hid : (graphOf outside forest).IsSymbolOf id d) {r : QualifiedName}
    (hr : d.base = some r) : (graphOf outside forest).lookup? ⟨id, .base⟩ =
      some (bind (Table.ofForest outside forest) (graphOf outside forest).index ⟨r, d.scope⟩) := by
  obtain ⟨x, hx, hkind⟩ := hid.kind
  obtain ⟨q, hq, rfl, rfl⟩ := symbol?_ofGroups.1 hx
  have hdecl : q.tree.content.kind.declarationKind? = some d.kind := by
    simpa [Symbol.declarationKind?, Symbol.kind, Symbol.map, Located.symbol] using hkind
  rcases q.origin_cases hq with ⟨group, -, htree, -⟩ | ⟨s, n, hn, htree, hpath⟩
  · rw [htree, Group.tree_eq] at hdecl
    cases hdecl
  · rw [(Node.declares_of_tree? htree).2.1, Option.map_eq_some_iff] at hdecl
    obtain ⟨e, he, -⟩ := hdecl
    -- The symbol comes from a node that declares the name, and no other declaration has it.
    obtain rfl : e = d := (isSymbolOf_of_declares hq htree hpath he).eq h hid
      (Source.mem_declarationsOf_iff.2 ⟨s, n, hn, he⟩) hd
    rw [lookup?, hx, Option.bind_some, Symbol.lookup?_map, q.lookup?_symbol, Node.lookup?_tree htree,
      Node.written?_base he hr]
    rfl

/-- **The base of a symbol reads as the symbol of the declaration that is derived from.** -/
theorem exists_readsBase_of_derivesFrom (hdb : DerivesFrom outside forest d b) {id : SymbolId}
    (hid : (graphOf outside forest).get? d.fullName = some id) :
    ∃ base, (graphOf outside forest).get? b.fullName = some base ∧
      (graphOf outside forest).ReadsBase id (.symbol base) := by
  obtain ⟨id', hid', hsymbol⟩ := exists_symbol_of_declared (t := Table.ofForest outside forest) h hd
  obtain rfl : id' = id := Option.some_inj.1 (hid'.symm.trans hid)
  obtain ⟨base, hbase, -⟩ := exists_symbol_of_declared (t := Table.ofForest outside forest) h
    (Table.mem_of_derivesFrom h hdb)
  obtain ⟨r, hr, hmeans⟩ := hdb
  have hlookup := lookup?_base h hd hsymbol hr
  have hbind : bind (Table.ofForest outside forest) (graphOf outside forest).index ⟨r, d.scope⟩ =
      some (.symbol base) := by
    rw [bind, (Table.resolveIn_eq_some_iff h).2 hmeans]
    exact congrArg (Option.map TypeRef.symbol) hbase
  refine ⟨base, hbase, fun reads => ?_⟩
  rw [Session.read_after_readAll, hlookup, hbind]
  rfl

/-- **What a declaration derives from, over several, its symbol comes to over bases.** -/
theorem exists_transGen_readsBase (hdb : Relation.TransGen (DerivesFrom outside forest) d b) {id : SymbolId}
    (hid : (graphOf outside forest).get? d.fullName = some id) :
    b ∈ declarationsOf forest ∧ ∃ base, (graphOf outside forest).get? b.fullName = some base ∧
      Relation.TransGen (fun id base => (graphOf outside forest).ReadsBase id (.symbol base)) id base := by
  induction hdb with
  | single hdb =>
    obtain ⟨base, hbase, hreads⟩ := exists_readsBase_of_derivesFrom h hd hdb hid
    exact ⟨Table.mem_of_derivesFrom h hdb, base, hbase, .single hreads⟩
  | tail _ hbc ih =>
    obtain ⟨hb, mid, hmid, hway⟩ := ih
    obtain ⟨base, hbase, hreads⟩ := exists_readsBase_of_derivesFrom h hb hbc hmid
    exact ⟨Table.mem_of_derivesFrom h hbc, base, hbase, hway.tail hreads⟩

/-- **A circle of declarations is a circle of symbols.** -/
theorem exists_transGen_of_onCircle (hcircle : OnCircle outside forest d) :
    ∃ id, (graphOf outside forest).get? d.fullName = some id ∧
      Relation.TransGen (fun id base => (graphOf outside forest).ReadsBase id (.symbol base)) id id := by
  obtain ⟨id, hid, -⟩ := exists_symbol_of_declared (t := Table.ofForest outside forest) h hd
  obtain ⟨b, hdb, -, hback⟩ := Source.onCircle_iff.1 hcircle
  have hround : Relation.TransGen (DerivesFrom outside forest) d d :=
    .head' hdb.1 (hback.lift _ fun _ _ hstep => hstep.1)
  obtain ⟨-, id', hid', hway⟩ := exists_transGen_readsBase h hd hround hid
  obtain rfl := Option.some_inj.1 (hid.symm.trans hid')
  exact ⟨id, hid, hway⟩

end Distinct

theorem exists_readsBase_of_compiled {options : CompileOptions} {g : Graph} (hg : compileForest options forest = .ok g)
    {id : SymbolId} {x : GraphSymbol} (hx : g.symbol? id = some x) {found : Option TypeRef}
    (hbase : x.content.base? = some found) : ∃ type, found = some type ∧ g.ReadsBase id type := by
  obtain ⟨-, -, ⟨-, b, rfl⟩ | ⟨base, -, rfl, -⟩⟩ := base_of_compiled hg hx hbase
  · exact ⟨_, rfl, (readsBase_iff hx).2 hbase⟩
  · exact ⟨_, rfl, (readsBase_iff hx).2 hbase⟩

end Graph

/-- **Compiling without looking for circles.**  What is told is what is told otherwise, without what tells of circles.
A model that compiles otherwise still does, and to the same graph.  A model compiles exactly when it is told of nothing
but circles otherwise: its names are distinct, its nodes are as they must be and no declaration is its own base.  The
search for single values ends on circles as well.  A graph that is compiled so is built without a stop as long as there
are numbers for its symbols, each of its bases reads as a type whatever was read before, and a declaration on a circle
is a symbol whose bases lead back to it. -/
theorem compileForest_circles_off (outside : Universe) (forest : List Source.Tree) :
    let looking := compileForest { limit := 0, circles := true, outside } forest
    let off := compileForest { limit := 0, circles := false, outside } forest
    let t := Table.ofForest outside forest
    observationsOf off = (observationsOf looking).filter (fun o => !o.tellsCircle) ∧
      (∀ g, looking = .ok g → off = .ok g) ∧
      ((∃ g, off = .ok g) ↔ ∀ o ∈ observationsOf looking, o.tellsCircle = true) ∧
      ((∃ g, off = .ok g) ↔ (declarationsOf forest).Pairwise (fun d e => d.fullName ≠ e.fullName) ∧
        (∀ s n, At forest s n → Obeys outside forest s n) ∧
          ∀ d ∈ declarationsOf forest, ¬ DerivesFrom outside forest d d) ∧
      (∀ m, t.Obtained m → t.singleWithin (t.size + 1) ⟨[], m⟩ = some (t.isScalar m)) ∧
      ∀ g, off = .ok g →
        (SymbolTree.sizeAll (Group.trees (Group.merge forest)) ≤ Builder.capacity →
          Builder.build (Group.merge forest) t = .ok g) ∧
        (∀ id x found, g.symbol? id = some x → x.content.base? = some found →
          ∃ type, found = some type ∧ g.ReadsBase id type) ∧
        (∀ d ∈ declarationsOf forest, ∀ b, DerivesFrom outside forest d b →
          ∃ id base, g.get? d.fullName = some id ∧ g.get? b.fullName = some base ∧ g.ReadsBase id (.symbol base)) ∧
        ∀ d ∈ declarationsOf forest, OnCircle outside forest d → ∃ id, g.get? d.fullName = some id ∧
          Relation.TransGen (fun id base => g.ReadsBase id (.symbol base)) id id := by
  intro looking off t
  have hobserve := observe_circles_off 0 outside forest
  have htold : observationsOf off = (observationsOf looking).filter fun o => !o.tellsCircle := by
    rw [observationsOf_compileForest rfl, observationsOf_compileForest rfl, hobserve]
  have hok : (∃ g, off = .ok g) ↔ observe { limit := 0, circles := false, outside } forest = [] := by
    simp only [off, Table.compileForest_eq_ok_iff, exists_and_left, exists_eq', and_true]
  refine ⟨htold, fun g hg => ?same, ?circlesAlone, ?accepted, fun m hm => ?single, fun g hg => ?graph⟩
  case same =>
    obtain ⟨hnone, rfl⟩ := Table.compileForest_eq_ok_iff.1 hg
    exact Table.compileForest_eq_ok_iff.2 ⟨by rw [hobserve, hnone]; rfl, rfl⟩
  case circlesAlone =>
    rw [hok, ← observationsOf_compileForest rfl]
    change observationsOf off = [] ↔ _
    rw [htold, List.filter_eq_nil_iff]
    simp only [Bool.not_eq_true', Bool.not_eq_false]
  case accepted =>
    rw [hok, Table.observe_eq_nil_iff, ← List.pairwise_map]
    refine and_congr_right fun h => and_congr_right' ?_
    exact forall₂_congr fun d hd => Table.leadsAway_circles_off_iff h hd
  case single =>
    exact Table.singleWithin_eq (hm.find? (Table.keeps_defineAll outside _).distinct)
  case graph =>
    obtain ⟨hnone, rfl⟩ := Table.compileForest_eq_ok_iff.1 hg
    obtain ⟨h, -, -⟩ := Table.observe_eq_nil_iff.1 hnone
    refine ⟨fun hsize => Builder.build_eq _ hsize, fun _ _ _ hx hbase => Graph.exists_readsBase_of_compiled hg hx hbase,
      fun d hd b hdb => ?derives, fun d hd hcircle => Graph.exists_transGen_of_onCircle h hd hcircle⟩
    case derives =>
      obtain ⟨id, hid, -⟩ := Graph.exists_symbol_of_declared (t := t) h hd
      obtain ⟨base, hbase, hreads⟩ := Graph.exists_readsBase_of_derivesFrom h hd hdb hid
      exact ⟨id, base, hid, hbase, hreads⟩

/-- Two values, each the base of the other. -/
def Source.Small.twins : List Source.Tree :=
  [⟨none, [], [⟨shopName, [], [plain ⟨"Castor", by decide⟩ false ⟨.single ⟨"Pollux", by decide⟩, .one⟩,
    plain ⟨"Pollux", by decide⟩ false ⟨.single ⟨"Castor", by decide⟩, .one⟩]⟩]⟩]

/-- The twins are told of their circle, or else they are compiled with it. -/
theorem compileForest_circles_off_twins :
    (observationsOf (compileForest {} Source.Small.twins)).map (·.text) =
        ["Value 'Castor' has a circular base chain.", "Value 'Pollux' has a circular base chain."] ∧
      ∃ g, compileForest { circles := false } Source.Small.twins = .ok g ∧
        Builder.build (Group.merge Source.Small.twins) (Table.ofForest .empty Source.Small.twins) = .ok g ∧
        ∃ id, Relation.TransGen (fun id base => g.ReadsBase id (.symbol base)) id id := by
  obtain ⟨-, -, halone, -, -, hgraph⟩ := compileForest_circles_off .empty Source.Small.twins
  obtain ⟨g, hg⟩ := halone.2 (by decide)
  obtain ⟨hbuild, -, -, hcircles⟩ := hgraph g hg
  have hdistinct : Table.Distinct (declarationsOf Source.Small.twins) := by
    unfold Table.Distinct
    decide
  obtain ⟨d, hd, hcircle⟩ : ∃ d ∈ declarationsOf Source.Small.twins,
      (Table.ofForest .empty Source.Small.twins).isOnCircle d = true := by decide
  obtain ⟨id, -, hway⟩ := hcircles d hd ((Table.isOnCircle_iff hdistinct hd).1 hcircle)
  exact ⟨by decide, g, hg, hbuild (by decide), id, hway⟩

end DomainModel
