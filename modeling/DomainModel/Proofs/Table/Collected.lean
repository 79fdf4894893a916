import DomainModel.Proofs.Table.Defined
import DomainModel.Table.Collector
import Mathlib.Data.List.Induction
/-!
# Collected — the table of any forest

What a collector ends with is what defining the declared names in order ends with (`collect_eq`).  Of the declarations of
one full name the first is kept and each later one is reported, in order (`defineAll_eq`); so the table and the report
together account for every declaration, and a declared name means the first declaration that has it.
-/
namespace DomainModel
namespace Table

/-! ## First declarations and later ones -/

/-- **What each entry gives in view of the entries before it**, in order. -/
def inView {α β : Type} (see : List α → α → Option β) (as : List α) : List β :=
  as.zipIdx.filterMap fun a => see (as.take a.2) a.1

theorem inView_concat {α β : Type} (see : List α → α → Option β) (as : List α) (a : α) :
    inView see (as ++ [a]) = inView see as ++ (see as a).toList := by
  unfold inView
  rw [List.zipIdx_append, List.filterMap_append]
  congr 1
  · refine List.filterMap_congr fun b hb => ?_
    have hlt : b.2 < as.length := by simpa using List.snd_lt_of_mem_zipIdx hb
    rw [List.take_append_of_le_length (Nat.le_of_lt hlt)]
  · cases h : see as a <;> simp [h]

/-- The declaration that has a full name before others. -/
def first? (ds : List Declaration) (name : QualifiedName) : Option Declaration := ds.find? fun d => d.fullName = name

/-- **The declarations that are the first of their names.** -/
def firsts (ds : List Declaration) : List Declaration :=
  inView (fun before d => if (first? before d.fullName).isNone then some d else none) ds

/-- **What is told of the others**: the kind of the first of the name, then their own. -/
def repeats (ds : List Declaration) : List Conflict :=
  inView (fun before d => (first? before d.fullName).map fun first => ⟨d.name, first.kind, d.kind⟩) ds

theorem defineAll_append (es : List Declaration) : ∀ (ds : List Declaration) (t : Table),
    t.defineAll (ds ++ es) =
      (((t.defineAll ds).1.defineAll es).1, (t.defineAll ds).2 ++ ((t.defineAll ds).1.defineAll es).2)
  | [], t => by simp [defineAll]
  | d :: ds, t => by simp [defineAll, defineAll_append es ds, List.append_assoc]

theorem defineAll_concat (t : Table) (ds : List Declaration) (d : Declaration) :
    t.defineAll (ds ++ [d]) =
      (((t.defineAll ds).1.define d).1, (t.defineAll ds).2 ++ ((t.defineAll ds).1.define d).2.toList) := by
  simp [defineAll_append, defineAll]

theorem first?_concat (ds : List Declaration) (d : Declaration) (name : QualifiedName) :
    first? (ds ++ [d]) name = (first? ds name <|> if d.fullName = name then some d else none) := by
  unfold first?
  rw [List.find?_append]
  by_cases hn : d.fullName = name <;> simp [hn]

theorem Distinct.define {t : Table} (h : Distinct t.declarations) (d : Declaration) :
    Distinct (t.define d).1.declarations := by
  rcases define_eq t d with ⟨hnew, hd⟩ | ⟨-, c, hd⟩
  · rw [hd]
    exact h.concat hnew
  · rwa [hd]

/-- **A table of declarations**: the first of each name, and what was told of the others. -/
structure Keeps (ds : List Declaration) (t : Table) (conflicts : List Conflict) : Prop where
  declarations : t.declarations = firsts ds
  told : conflicts = repeats ds
  /-- A full name finds the first declaration that has it. -/
  find? : ∀ name, t.find? name = first? ds name
  distinct : Distinct t.declarations
  /-- Every declaration is kept or told of. -/
  size : ds.length = t.size + conflicts.length

/-- **One declaration more is kept if it is the first of its name**, and else told of. -/
theorem Keeps.define {ds : List Declaration} {t : Table} {conflicts : List Conflict} (h : Keeps ds t conflicts)
    (d : Declaration) : Keeps (ds ++ [d]) (t.define d).1 (conflicts ++ (t.define d).2.toList) := by
  have hfind : ∀ name, (t.define d).1.find? name = first? (ds ++ [d]) name := by
    intro name
    rw [find?_define, first?_concat, h.find?]
  have hold := h.find? d.fullName
  have hsize := h.size
  cases hd : first? ds d.fullName with
  | none =>
    rw [hd] at hold
    have hdef : t.define d = ({ t with declarations := t.declarations ++ [d] }, none) := by simp [Table.define, hold]
    refine ⟨?_, ?_, hfind, h.distinct.define d, ?_⟩
    · rw [hdef, firsts, inView_concat, hd, h.declarations]
      rfl
    · rw [hdef, repeats, inView_concat, hd, h.told]
      rfl
    · simp only [hdef, Table.size, List.length_append, Option.toList_none, List.length_nil,
        List.length_singleton] at hsize ⊢
      omega
  | some first =>
    rw [hd] at hold
    have hdef : t.define d = (t, some ⟨d.name, first.kind, d.kind⟩) := by simp [Table.define, hold]
    refine ⟨?_, ?_, hfind, h.distinct.define d, ?_⟩
    · rw [hdef, firsts, inView_concat, hd, h.declarations]
      exact (List.append_nil _).symm
    · rw [hdef, repeats, inView_concat, hd, h.told]
      rfl
    · simp only [hdef, List.length_append, Option.toList_some, List.length_singleton] at hsize ⊢
      omega

/-- **Defining declarations in order keeps the first of each name** and tells of the others. -/
theorem keeps_defineAll (outside : Universe) (ds : List Declaration) :
    Keeps ds ((empty outside).defineAll ds).1 ((empty outside).defineAll ds).2 := by
  induction ds using List.reverseRecOn with
  | nil => exact ⟨rfl, rfl, fun _ => rfl, List.nodup_nil, rfl⟩
  | append_singleton ds d ih =>
    rw [defineAll_concat]
    exact ih.define d

theorem outside_defineAll : ∀ (ds : List Declaration) (t : Table), (t.defineAll ds).1.outside = t.outside
  | [], _ => rfl
  | d :: ds, t => by rw [defineAll, outside_defineAll ds, outside_define]

/-! ## Meanings -/

theorem rest_qualify_ne_nil {s : Scope} {outer : QualifiedName} (hs : s.fullName = some outer) (name : Identifier) :
    (s.qualify name).rest ≠ [] := by
  simp [Scope.qualify, hs, QualifiedName.under, QualifiedName.join, QualifiedName.segments]

theorem rest_ne_nil_of_mem_declarations {s : Scope} {outer : QualifiedName} (hs : s.fullName = some outer)
    {m : Source.Member} {d : Declaration} (hd : d ∈ m.declarations s) : d.fullName.rest ≠ [] := by
  cases m with
  | block b => cases hd
  | entity e =>
    rcases List.mem_cons.1 hd with rfl | hd
    · exact rest_qualify_ne_nil hs e.name
    · obtain ⟨v, -, rfl⟩ := List.mem_map.1 hd
      exact rest_qualify_ne_nil (Scope.fullName_declaration s e.name) v.name
  | value v =>
    obtain rfl := List.mem_singleton.1 hd
    exact rest_qualify_ne_nil hs v.name
  | externalEnum e =>
    obtain rfl := List.mem_singleton.1 hd
    exact rest_qualify_ne_nil hs e.name
  | webApi root =>
    obtain rfl := List.mem_singleton.1 hd
    exact rest_qualify_ne_nil hs root.operation.name

theorem rest_ne_nil_of_mem_declared {groups : List Group} {d : Declaration} (hd : d ∈ declared groups) :
    d.fullName.rest ≠ [] := by
  obtain ⟨g, -, hd⟩ := List.mem_flatMap.1 hd
  obtain ⟨m, hm, hd⟩ := List.mem_flatMap.1 hd
  obtain ⟨f, -, hm⟩ := Group.mem_members.1 hm
  have hscope : m.2 = f.scope := (Source.Fragment.mem_members.1 hm).2.2
  exact rest_ne_nil_of_mem_declarations (hscope ▸ f.fullName_scope) hd

/-- **A declared name means the first declaration that has it**, whatever is outside. -/
theorem Keeps.resolve {ds : List Declaration} {t : Table} {conflicts : List Conflict} (h : Keeps ds t conflicts)
    {d : Declaration} (hd : d ∈ ds) (hrest : d.fullName.rest ≠ []) :
    ∃ first, first? ds d.fullName = some first ∧ t.resolve d.fullName = some (.declaration first) := by
  have hsome : (first? ds d.fullName).isSome = true := List.find?_isSome.2 ⟨d, hd, decide_eq_true rfl⟩
  obtain ⟨first, hfirst⟩ := Option.isSome_iff_exists.1 hsome
  refine ⟨first, hfirst, ?_⟩
  have hword : d.fullName.rest.isEmpty = false := by
    rw [Bool.eq_false_iff]
    exact fun hempty => hrest (List.isEmpty_iff.1 hempty)
  simp [Table.resolve, hword, h.find?, hfirst]

end Table

namespace Collector

open Source (Event Member)

def observations (conflicts : List Conflict) : List Observation := conflicts.map fun c => .ofMessage c.message

theorem extend_eq_self_iff {report : Report} {conflicts : List Conflict} :
    report.extend (observations conflicts) = report ↔ conflicts = [] := by
  cases report
  simp [Report.extend, observations]

/-! ## The walk as a list of definitions -/

theorem define_eq (c : Collector) (d : Declaration) : c.define d =
    ⟨(c.table.define d).1, c.report.extend (observations (c.table.define d).2.toList), c.scope⟩ := by
  unfold define
  rcases hd : c.table.define d with ⟨t, _ | conflict⟩
  · simp [observations, Report.extend]
  · rfl

/-- **Defining goes on where it stopped**, and leaves the scope. -/
theorem foldl_define : ∀ (ds : List Declaration) (c : Collector), ds.foldl define c =
    ⟨(c.table.defineAll ds).1, c.report.extend (observations (c.table.defineAll ds).2), c.scope⟩
  | [], c => by simp [Table.defineAll, observations, Report.extend]
  | d :: ds, c => by
    rw [List.foldl_cons, foldl_define ds, define_eq]
    simp [Table.defineAll, observations, Report.extend, List.append_assoc]

theorem foldl_define_within (ds : List Declaration) (c : Collector) (s : Scope) :
    ds.foldl define { c with scope := s } = { ds.foldl define c with scope := s } := by
  simp only [foldl_define]

theorem foldl_visitEvent : ∀ (es : List Event) (c : Collector),
    es.foldl visitEvent c = (es.map (·.declaration c.scope)).foldl define c
  | [], _ => rfl
  | e :: es, c => by
    rw [List.foldl_cons, foldl_visitEvent es, List.map_cons, List.foldl_cons]
    have hscope : (c.visitEvent e).scope = c.scope := by rw [visitEvent, define_eq]
    rw [hscope]
    rfl

/-- **Visiting a member defines what it declares** and comes back to the scope. -/
theorem visitMember_eq (c : Collector) (s : Scope) {m : Member} (hm : m.isBlock = false) :
    { c with scope := s }.visitMember m = { (m.declarations s).foldl define c with scope := s } := by
  cases m with
  | block b => cases hm
  | entity e =>
    rw [visitMember, visitEntity, foldl_visitEvent, Member.declarations, List.foldl_cons]
    simp only [foldl_define, define_eq]
  | value v => exact foldl_define_within [v.declaration s] c s
  | externalEnum e => exact foldl_define_within [Source.plainDeclaration .externalEnum s e.name] c s
  | webApi root => exact foldl_define_within [Source.plainDeclaration .webApi s root.operation.name] c s

/-- **Visiting members defines what they declare**, whatever scope it ends in. -/
theorem exists_visitMembers : ∀ (ms : List (Member × Scope)) (c : Collector), (∀ m ∈ ms, m.1.isBlock = false) →
    ∃ s, ms.foldl (fun c m => { c with scope := m.2 }.visitMember m.1) c =
      { (ms.flatMap fun m => m.1.declarations m.2).foldl define c with scope := s }
  | [], c, _ => ⟨c.scope, rfl⟩
  | m :: ms, c, h => by
    obtain ⟨s, hs⟩ := exists_visitMembers ms ({ c with scope := m.2 }.visitMember m.1)
      fun m hm => h m (List.mem_cons_of_mem _ hm)
    refine ⟨s, ?_⟩
    rw [List.foldl_cons, hs, visitMember_eq c m.2 (h m List.mem_cons_self), foldl_define_within, List.flatMap_cons,
      List.foldl_append]

theorem isBlock_of_mem_members {g : Group} {m : Member × Scope} (hm : m ∈ g.members) : m.1.isBlock = false := by
  obtain ⟨f, -, hm⟩ := Group.mem_members.1 hm
  exact (Source.Fragment.mem_members.1 hm).2.1

theorem exists_visitGroups : ∀ (gs : List Group) (c : Collector),
    ∃ s, gs.foldl visitGroup c = { (gs.flatMap (·.declarations)).foldl define c with scope := s }
  | [], c => ⟨c.scope, rfl⟩
  | g :: gs, c => by
    -- A group leaves the scope of its last member, which the next group replaces by its own.
    obtain ⟨s₁, h₁⟩ := exists_visitMembers g.members c fun m => isBlock_of_mem_members
    obtain ⟨s₂, h₂⟩ := exists_visitGroups gs (c.visitGroup g)
    refine ⟨s₂, ?_⟩
    have hg : c.visitGroup g = { g.declarations.foldl define c with scope := s₁ } := h₁
    rw [List.foldl_cons, h₂, hg, foldl_define_within, List.flatMap_cons, List.foldl_append]

/-- **A collector ends with the table of the groups**, its conflicts reported after what was reported before. -/
theorem collect_eq (groups : List Group) (outside : Universe) (report : Report) :
    collect groups outside report =
      ((Table.ofGroups groups outside).1, report.extend (observations (Table.ofGroups groups outside).2)) := by
  obtain ⟨s, hs⟩ := exists_visitGroups (Group.all groups) ⟨.empty outside, report, .top []⟩
  simp only [collect, hs, foldl_define, Table.ofGroups, Table.declared]

/-- **What collecting declarations comes to**: a table and a longer report. -/
structure Collected (ds : List Declaration) (outside : Universe) (before : Report) (t : Table) (after : Report) :
    Prop where
  outside : t.outside = outside
  /-- The table has the first declaration of each full name, as it was declared, and no other. -/
  kept : t.declarations = Table.firsts ds
  /-- A full name has one entry at most, the first declaration that has it. -/
  distinct : Table.Distinct t.declarations
  find? : ∀ name, t.find? name = Table.first? ds name
  /-- Each other declaration is reported, once and in order. -/
  reported : after.observations = before.observations ++ observations (Table.repeats ds)
  /-- Every declaration is kept or reported. -/
  size : ds.length + before.size = t.size + after.size
  silent : after = before ↔ Table.Distinct ds
  /-- A declared name means the first declaration that has it, whatever is built in or outside. -/
  resolve : ∀ d ∈ ds, ∃ first, Table.first? ds d.fullName = some first ∧ t.resolve d.fullName = some (.declaration first)

theorem collected (groups : List Group) (outside : Universe) (report : Report) :
    Collected (Table.declared groups) outside report (collect groups outside report).1
      (collect groups outside report).2 := by
  rw [collect_eq]
  have h := Table.keeps_defineAll outside (Table.declared groups)
  refine ⟨Table.outside_defineAll _ _, h.declarations, h.distinct, h.find?, ?_, ?_, ?_, ?_⟩
  · exact congrArg (fun cs => report.observations ++ observations cs) h.told
  · have hsize := h.size
    simp only [Table.ofGroups, Report.size, Report.observations_extend, observations, List.length_append, List.length_map]
    omega
  · exact extend_eq_self_iff.trans Table.conflicts_ofGroups_iff
  · exact fun d hd => h.resolve hd (Table.rest_ne_nil_of_mem_declared hd)

/-- **The table of a forest keeps the first declaration of each full name and the report gets the others**; the
declarations are those of the forest's nodes. -/
theorem collected_merge (forest : List Source.Tree) (outside : Universe) (report : Report) :
    Collected (Table.declared (Group.merge forest)) outside report (collect (Group.merge forest) outside report).1
        (collect (Group.merge forest) outside report).2 ∧
      ∀ d, d ∈ Table.declared (Group.merge forest) ↔ ∃ s n, Source.At forest s n ∧ n.declaration? s = some d :=
  ⟨collected _ outside report, fun _ => Group.mem_declared_iff⟩

end Collector
end DomainModel
