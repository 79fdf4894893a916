import DomainModel.Proofs.Address.Preorder
import DomainModel.Proofs.Source.Order
import DomainModel.Source.Visitor
/-!
# Visited — what a visitor is given

Visiting a node does what the visitor does there, with the walk over the nodes directly below (`Visitor.visit_eq`).  A
visitor that does the same everywhere does it at the nodes of `Node.walk`, one after another (`Visitor.visit_stopping`), so
the log of a walk is the pre-order of the forest (`Visitor.log_in_source_order`).
-/
namespace DomainModel
namespace Source

namespace Node

/-- **What holds of a node if it holds of those directly below it** holds of every node. -/
theorem induction {P : Node → Prop} (step : ∀ n : Node, (∀ c ∈ n.children, P c) → P n) (n : Node) : P n :=
  step n fun c _ => induction step c
termination_by (n.walk everywhere).length
decreasing_by exact length_walk_child rfl ‹_›

end Node

namespace Visitor

variable {m : Type → Type} [Monad m]

/-- **What is done at a node**, the walk below being given.  Where nothing can be below a node there is no walk. -/
def handle (v : Visitor m) : Node → m Unit → m Unit
  | .tree t => v.tree t
  | .block b => v.block b
  | .entity e => v.entity e
  | .event e => v.event e
  | .value x => v.value x
  | .externalEnum e => fun _ => v.externalEnum e
  | .property p => fun _ => v.property p
  | .webApi root => v.webApi root
  | .path p => v.path p
  | .query q => v.query q
  | .command operation => fun _ => v.command operation
  | .filter a => fun _ => v.filter a

variable (v : Visitor m)

theorem forM_congr {α : Type} {f g : α → m Unit} {as : List α} (h : ∀ a ∈ as, f a = g a) : forM as f = forM as g := by
  induction as with
  | nil => rfl
  | cons a as ih =>
    obtain ⟨ha, has⟩ := List.forall_mem_cons.1 h
    rw [List.forM_cons, List.forM_cons, ha, ih has]

theorem visitApiMembers_eq (ms : List ApiMember) : v.visitApiMembers ms = forM (ms.map ApiMember.node) v.visit := by
  induction ms with
  | nil => rw [visitApiMembers]; rfl
  | cons x xs ih =>
    have hx : v.visitApiMember x = v.visit x.node := by cases x <;> rw [visitApiMember] <;> rfl
    rw [visitApiMembers, hx, ih]
    rfl

theorem visitMembers_eq (ms : List Member) : v.visitMembers ms = forM (ms.map Member.node) v.visit := by
  induction ms with
  | nil => rw [visitMembers]; rfl
  | cons x xs ih =>
    have hx : v.visitMember x = v.visit x.node := by cases x <;> rw [visitMember] <;> rfl
    rw [visitMembers, hx, ih]
    rfl

variable [LawfulMonad m]

/-- **Visiting a node does what is done there**, the walk being over the nodes directly below. -/
theorem visit_eq (n : Node) : v.visit n = v.handle n (forM n.children v.visit) := by
  cases n with
  | tree t => rw [visit, visitTree, Node.children, List.forM_map]; rfl
  | block b => cases b; rw [visit, visitBlock, Node.children, visitMembers_eq]; rfl
  | entity e => rw [visit, visitEntity, Node.children, List.forM_map]; rfl
  | event e => rw [visit, visitEvent, Node.children, List.forM_map]; rfl
  | value x => rw [visit, visitValue, Node.children, List.forM_map]; rfl
  | webApi root => simp [visit, visitWebApi, Node.children, handle]
  | path p =>
    cases p
    rw [visit, visitPath, Node.children, visitApiMembers_eq, List.forM_append, List.forM_map (g := Node.filter)]
    rfl
  | query q => rw [visit, visitQuery, Node.children, List.forM_map]; rfl
  | externalEnum | property | command | filter => rfl

/-! ## The same at every node -/

variable {act : Node → m Unit} {stop : NodeKind → Bool}

theorem visit_stopping_eq (n : Node) : (stopping act stop).visit n =
    (do act n; unless stop n.kind do forM n.children (stopping act stop).visit) := by
  rw [visit_eq]
  cases n with
  | tree | block | entity | event | value | webApi | path | query => rfl
  | externalEnum | property | command | filter => simp [handle, stopping, Node.children]

theorem forM_flatMap {α β : Type} (f : α → List β) (act : β → m Unit) (as : List α) :
    forM (as.flatMap f) act = forM as fun a => forM (f a) act := by
  induction as with
  | nil => rfl
  | cons a as ih => rw [List.flatMap_cons, List.forM_append, List.forM_cons, ih]

/-- **A visitor that does the same everywhere does it at the nodes of the walk**, one after another. -/
theorem visit_stopping (n : Node) : (stopping act stop).visit n = forM (n.walk fun x => !stop x.kind) act := by
  induction n using Node.induction with
  | step n ih =>
    rw [visit_stopping_eq, Node.walk_eq, List.forM_cons, forM_congr ih]
    cases stop n.kind with
    | true => rfl
    | false => exact congrArg _ (funext fun _ => (forM_flatMap ..).symm)

theorem visitForest_stopping (forest : List Tree) : (stopping act stop).visitForest forest =
    forM (forest.flatMap fun t => (Node.tree t).walk fun x => !stop x.kind) act := by
  rw [forM_flatMap]
  exact forM_congr fun t _ => visit_stopping (.tree t)

theorem run_log (ns l : List Node) :
    (forM ns fun n => (modify (· ++ [n]) : StateM (List Node) Unit)).run l = ((), l ++ ns) := by
  induction ns generalizing l with
  | nil => rw [List.append_nil]; rfl
  | cons n ns ih =>
    rw [List.forM_cons, List.append_cons]
    exact ih (l ++ [n])

theorem log_eq (stop : List NodeKind) (forest : List Tree) : log stop forest = Tree.walkForest stop forest := by
  rw [log, visitForest_stopping, run_log]
  rfl

/-! ## The log -/

abbrev stopsAt (stop : List NodeKind) (n : Node) : Bool := stop.contains n.kind

theorem walk_eq_opened (stop : List NodeKind) (n : Node) : (n.walk fun x => !stopsAt stop x) =
    n :: (Address.opened Node.children (stopsAt stop) n).flatMap (·.walk fun x => !stopsAt stop x) := by
  rw [Node.walk_eq, Address.opened]
  cases stopsAt stop n <;> rfl

theorem exists_isPreorder_log (stop : List NodeKind) (forest : List Tree) : ∃ addresses,
    Address.IsPreorder Node.children (stopsAt stop) (forest.map .tree) addresses (log stop forest) := by
  obtain ⟨addresses, h⟩ := Address.exists_isPreorder (walk_eq_opened stop) (forest.map .tree)
  rw [List.flatMap_map] at h
  rw [log_eq]
  exact ⟨addresses, h⟩

/-- **The log of a walk is the pre-order of the forest**, cut below the nodes of the kinds to stop at: it has the nodes with
no such node above them, once each and in source order.  A web API comes right before its root path.  Where there is
nothing to stop at, every node of the forest is logged, the blocks and the other nodes being those listed. -/
theorem log_in_source_order (stop : List NodeKind) (forest : List Tree) :
    (∃ addresses, Address.IsPreorder Node.children (stopsAt stop) (forest.map .tree) addresses (log stop forest)) ∧
    (∀ i root, (log stop forest)[i]? = some (.webApi root) → .webApi ∉ stop →
      (log stop forest)[i + 1]? = some (.path root)) ∧
    (∃ addresses, Address.IsPreorder Node.children (fun _ => false) (forest.map .tree) addresses (log [] forest) ∧
      ∀ a, a ∈ addresses ↔ (Address.at? Node.children (forest.map .tree) a).isSome) ∧
    (log [] forest).filter (·.isBlock) = (fragmentsOf forest).map (fun f => .block f.block) ∧
    ((log [] forest).filter (·.isInner)).Perm ((places forest).map (·.2)) := by
  refine ⟨exists_isPreorder_log stop forest, fun i root hi hstop => ?_, ?_, ?_, ?_⟩
  · obtain ⟨addresses, h⟩ := exists_isPreorder_log stop forest
    have hopen : stopsAt stop (.webApi root) = false := by simpa [Node.kind] using hstop
    exact h.getElem?_firstChild hi hopen rfl
  · obtain ⟨addresses, h⟩ := exists_isPreorder_log [] forest
    exact ⟨addresses, h, fun a => (h.mem_iff a).trans ⟨And.left, fun ha => ⟨ha, fun _ _ _ _ _ => rfl⟩⟩⟩
  · rw [log_eq, blocks_walkForest]
  · rw [log_eq]
    exact inner_walkForest_perm forest

theorem log_in_source_order_shop : (log [.entity] Small.shop)[5]? = some (.webApi Small.orders) ∧
    .webApi ∉ [NodeKind.entity] ∧ (log [.entity] Small.shop)[6]? = some (.path Small.orders) := by
  have hi : (log [.entity] Small.shop)[5]? = some (.webApi Small.orders) := by rfl
  have hstop : NodeKind.webApi ∉ [NodeKind.entity] := by decide
  exact ⟨hi, hstop, (log_in_source_order [.entity] Small.shop).2.1 5 Small.orders hi hstop⟩

end Visitor
end Source
end DomainModel
