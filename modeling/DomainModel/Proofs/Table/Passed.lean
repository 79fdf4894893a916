import DomainModel.Proofs.Group.Pass
import DomainModel.Proofs.Table.Collected
import DomainModel.Table.Passing
/-!
# Passed — the declarations that a collector is passed

A collector sent through groups ends with the table and the report of the groups, and the declarations passed on the way
are the declared ones, in order (`Collector.passing_eq`).
-/
namespace DomainModel
namespace Collector

open NotingM (Notes)
open Source (Entity Event Member)

theorem notes_declare (declaration : Scope → Declaration) :
    Notes (declare declaration) (fun c => c.define (declaration c.scope)) fun c => [declaration c.scope] :=
  fun _ _ => rfl

theorem notes_walkBelow {walk : CollectorM Unit} {next : Collector → Collector} {noted : Collector → List Declaration}
    (name : Identifier) (h : Notes walk next noted) : Notes (walkBelow name walk)
      (fun c => { next { c with scope := .declaration c.scope name } with scope := c.scope })
      fun c => noted { c with scope := .declaration c.scope name } :=
  Notes.look fun _ => Notes.between _ h _

theorem notes_visitEvent (e : Event) : Notes (visitor.visitEvent e) (·.visitEvent e) fun c => [e.declaration c.scope] :=
  notes_declare e.declaration

theorem scope_define (c : Collector) (d : Declaration) : (c.define d).scope = c.scope := by rw [define_eq]

/-- **Visiting an entity passes it, then its events** in the scope that it opens. -/
theorem notes_visitEntity (e : Entity) : Notes (visitor.visitEntity e) (·.visitEntity e) fun c =>
    e.declaration c.scope :: e.events.map (·.declaration (.declaration c.scope e.name)) := by
  have hevents : Notes (forM e.events visitor.visitEvent) (fun c => e.events.foldl visitEvent c) fun c =>
      e.events.flatMap fun v => [v.declaration c.scope] :=
    Notes.forM (fun v _ => notes_visitEvent v) fun v _ w _ c => by rw [visitEvent, scope_define]
  intro c l
  refine ((notes_declare e.declaration).seq (notes_walkBelow e.name hevents) c l).trans ?_
  simp only [visitEntity, scope_define, List.map_eq_flatMap, List.singleton_append]

/-- **Visiting a member passes what it declares.** -/
theorem notes_visitMember {m : Member} (hm : m.isBlock = false) :
    Notes (visitor.visitMember m) (·.visitMember m) fun c => m.declarations c.scope := by
  cases m with
  | block b => cases hm
  | entity e => rw [Source.Visitor.visitMember]; exact notes_visitEntity e
  | value v => rw [Source.Visitor.visitMember]; exact notes_declare v.declaration
  | externalEnum e =>
    rw [Source.Visitor.visitMember]
    exact notes_declare (Source.plainDeclaration .externalEnum · e.name)
  | webApi root =>
    rw [Source.Visitor.visitMember]
    exact notes_declare (Source.plainDeclaration .webApi · root.operation.name)

theorem notes_visitIn {m : Member} (hm : m.isBlock = false) (s : Scope) :
    Notes (do NotingM.step fun c => { c with scope := s }; visitor.visitMember m)
      (fun c => { c with scope := s }.visitMember m) fun _ => m.declarations s :=
  (NotingM.notes_step _).seq (notes_visitMember hm)

/-- **A collector sent through groups passes what they declare, in order**, and ends as the collector does. -/
theorem passing_eq (groups : List Group) (outside : Universe) (report : Report) :
    passing groups outside report =
      ⟨(Group.all groups).foldl visitGroup ⟨.empty outside, report, .top []⟩, Table.declared groups⟩ := by
  have hpass : Notes (Group.pass (fun s => NotingM.step fun c => { c with scope := s }) visitor groups)
      (fun c => (Group.all groups).foldl visitGroup c) fun _ => Table.declared groups :=
    Notes.pass fun g _ x hx => notes_visitIn (isBlock_of_mem_members hx) x.2
  exact congrArg Prod.snd (hpass _ [])

end Collector
end DomainModel
