import DomainModel.Group.Stack
import DomainModel.Proofs.Address.Preorder
import DomainModel.Proofs.Group.Partition
/-!
# Stack — the rounds of a stack give the pre-order

What is noted and what the stack stands for make up the same list before and after a round (`GroupStack.round_eq`), and
each round notes one group, so there are as many rounds as groups and one to end them (`GroupStack.runWithin_eq`).
-/
namespace DomainModel

namespace GroupStack

theorem rest_concat (noted stack : List Group) (g : Group) :
    rest ⟨noted, stack ++ [g]⟩ = g :: rest ⟨noted, stack ++ g.children.reverse⟩ := by
  simp [rest, Group.preorderAll, Group.preorder_eq, Group.preorderAll_append]

/-- **A round ends the run, nothing being left, or moves one group from the rest to those noted.** -/
theorem round_eq (x : GroupStack) :
    x.rest = [] ∧ x.round = .inl x.noted ∨
      ∃ g y, x.round = .inr y ∧ x.rest = g :: y.rest ∧ y.noted = x.noted ++ [g] := by
  obtain ⟨noted, stack⟩ := x
  cases hlast : stack.getLast? with
  | none =>
    obtain rfl := List.getLast?_eq_none_iff.1 hlast
    exact .inl ⟨rfl, rfl⟩
  | some g =>
    obtain ⟨stack, rfl⟩ := List.getLast?_eq_some_iff.1 hlast
    exact .inr ⟨g, ⟨noted ++ [g], stack ++ g.children.reverse⟩, by simp [round], rest_concat noted stack g, rfl⟩

/-- **A run notes the rest in order**, within any number of rounds greater than there are groups left. -/
theorem runWithin_eq : ∀ {rounds : Nat} {x : GroupStack}, x.rest.length < rounds →
    runWithin rounds x = some (x.noted ++ x.rest)
  | 0, _, h => absurd h (Nat.not_lt_zero _)
  | rounds + 1, x, h => by
    rw [runWithin]
    rcases x.round_eq with ⟨hrest, hround⟩ | ⟨g, y, hround, hrest, hnoted⟩
    · simp [hround, hrest]
    · rw [hrest, List.length_cons] at h
      have hrun : runWithin rounds y = some (y.noted ++ y.rest) := runWithin_eq (by omega)
      simp [hround, hrun, hrest, hnoted]

end GroupStack

namespace Group

mutual

theorem length_preorder : ∀ g : Group, g.preorder.length = g.count
  | ⟨_, _, children⟩ => by rw [preorder, count, List.length_cons, length_preorderAll children, Nat.add_comm]

theorem length_preorderAll : ∀ gs : List Group, (preorderAll gs).length = countAll gs
  | [] => rfl
  | g :: gs => by rw [preorderAll, countAll, List.length_append, length_preorder g, length_preorderAll gs]

end

/-- **The stack of one group gives it and the groups inside it**, in pre-order. -/
theorem runWithin_single {g : Group} {rounds : Nat} (h : g.count < rounds) :
    GroupStack.runWithin rounds ⟨[], [g]⟩ = some g.preorder := by
  have hrest : GroupStack.rest ⟨[], [g]⟩ = g.preorder := by simp [GroupStack.rest, preorderAll]
  rw [GroupStack.runWithin_eq (by rwa [hrest, length_preorder]), hrest, List.nil_append]

theorem exists_isPreorder_all (groups : List Group) :
    ∃ addresses, Address.IsPreorder children (fun _ => false) groups addresses (all groups) := by
  rw [all_eq, preorderAll_eq_flatMap]
  refine Address.exists_isPreorder (fun g => ?_) groups
  rw [preorder_eq, preorderAll_eq_flatMap]
  rfl

end Group
end DomainModel
