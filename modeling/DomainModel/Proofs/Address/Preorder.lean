import DomainModel.Address
import Mathlib.Data.List.Lex
import Mathlib.Data.List.Nodup
import Mathlib.Order.Basic
/-!
# Preorder — walks are pre-orders

A walk that passes an entry and then, unless the entry is a stop, walks from each of its children passes the pre-order of
the forest (`Address.exists_isPreorder`).  Nothing comes between an entry that is no stop and its first child
(`IsPreorder.getElem?_firstChild`).
-/
namespace DomainModel
namespace Address

variable {α : Type} {children : α → List α} {stops : α → Bool} {roots : List α}

@[simp] theorem at?_nil : at? children roots [] = none := rfl

theorem at?_cons (k : Nat) (a : Address) :
    at? children roots (k :: a) = roots[k]?.bind fun x => from? children x a := rfl

theorem at?_succ (x : α) (k : Nat) (a : Address) :
    at? children (x :: roots) ((k + 1) :: a) = at? children roots (k :: a) := rfl

theorem at?_zero (x : α) {a : Address} (ha : a ≠ []) :
    at? children (x :: roots) (0 :: a) = at? children (children x) a := by
  cases a with
  | nil => exact absurd rfl ha
  | cons k a => rfl

theorem from?_append (x : α) : ∀ a b : Address,
    from? children x (a ++ b) = (from? children x a).bind fun y => from? children y b := by
  intro a
  induction a generalizing x with
  | nil => exact fun b => rfl
  | cons k a ih =>
    intro b
    rw [List.cons_append, from?, from?, Option.bind_assoc]
    exact congrArg _ (funext fun c => ih c b)

theorem at?_append {a b : Address} (ha : a ≠ []) :
    at? children roots (a ++ b) = (at? children roots a).bind fun y => from? children y b := by
  cases a with
  | nil => exact absurd rfl ha
  | cons k a =>
    rw [List.cons_append, at?_cons, at?_cons, Option.bind_assoc]
    exact congrArg _ (funext fun x => from?_append x a b)

/-! ## Reached addresses -/

theorem not_reached_nil : ¬ Reached children stops roots [] := fun h => by simpa using h.1

theorem not_reached_of_nil {a : Address} : ¬ Reached children stops [] a := by
  rintro ⟨h, -⟩
  cases a <;> simp [at?] at h

/-- **What is above a longer address**: the empty one, and what is above it one level down. -/
theorem forall_above_cons {k : Nat} {a : Address} {P : Address → Prop} :
    (∀ b, b <+: k :: a → b ≠ k :: a → P b) ↔ P [] ∧ ∀ b, b <+: a → b ≠ a → P (k :: b) := by
  constructor
  · intro h
    refine ⟨h [] List.nil_prefix nofun, fun b hb hne => ?_⟩
    exact h (k :: b) (List.cons_prefix_cons.2 ⟨rfl, hb⟩) fun heq => hne (List.cons.inj heq).2
  · rintro ⟨hnil, h⟩ b hb hne
    rcases List.prefix_cons_iff.1 hb with rfl | ⟨c, rfl, hc⟩
    · exact hnil
    · exact h c hc fun heq => hne (congrArg _ heq)

theorem reached_cons {k : Nat} {a : Address} : Reached children stops roots (k :: a) ↔
    (at? children roots (k :: a)).isSome ∧
      ∀ b, b <+: a → b ≠ a → ∀ x, at? children roots (k :: b) = some x → stops x = false := by
  rw [Reached, forall_above_cons]
  simp

theorem reached_succ {x : α} {k : Nat} {a : Address} :
    Reached children stops (x :: roots) ((k + 1) :: a) ↔ Reached children stops roots (k :: a) := by
  simp only [reached_cons, at?_succ]

def opened (children : α → List α) (stops : α → Bool) (x : α) : List α := if stops x then [] else children x

/-- **The first root is reached**, and what is below it if the root is no stop. -/
theorem reached_zero {x : α} {a : Address} : Reached children stops (x :: roots) (0 :: a) ↔
    a = [] ∨ Reached children stops (opened children stops x) a := by
  cases a with
  | nil => simp [reached_cons, at?, from?]
  | cons k a =>
    have hself : at? children (x :: roots) [0] = some x := rfl
    have hbelow : ∀ b, at? children (x :: roots) (0 :: k :: b) = at? children (children x) (k :: b) := fun b => rfl
    rw [reached_cons, forall_above_cons, hself]
    simp only [hbelow, Option.some.injEq, forall_eq', reduceCtorEq, false_or]
    cases hx : stops x with
    | false => simp [opened, hx, reached_cons]
    | true => simp [opened, hx, not_reached_of_nil]

/-! ## Pre-orders -/

/-- The address in a forest with one root more before the others. -/
def later : Address → Address
  | [] => []
  | k :: a => (k + 1) :: a

theorem isPreorder_nil : IsPreorder children stops [] [] [] :=
  ⟨rfl, .nil, fun _ => iff_of_false List.not_mem_nil not_reached_of_nil⟩

namespace IsPreorder

variable {as bs : List Address} {xs ys : List α}

theorem ne_nil (h : IsPreorder children stops roots as xs) {a : Address} (ha : a ∈ as) : ∃ k b, a = k :: b := by
  cases a with
  | nil => exact absurd ((h.mem_iff []).1 ha) not_reached_nil
  | cons k b => exact ⟨k, b, rfl⟩

/-- **The pre-order of a forest**: the first root, what is below it unless it is a stop, and the other roots. -/
theorem cons {x : α} (hbelow : IsPreorder children stops (opened children stops x) as xs)
    (hlater : IsPreorder children stops roots bs ys) :
    IsPreorder children stops (x :: roots) ([0] :: as.map (0 :: ·) ++ bs.map later) (x :: xs ++ ys) where
  entries := by
    have hfirst : (as.map (0 :: ·)).map (at? children (x :: roots)) = xs.map some := by
      rw [← hbelow.entries, List.map_map]
      refine List.map_congr_left fun a ha => ?_
      obtain ⟨k, a, rfl⟩ := hbelow.ne_nil ha
      cases hx : stops x with
      | false => simp [opened, hx, at?_zero]
      | true =>
        rw [hbelow.mem_iff, opened, if_pos hx] at ha
        exact absurd ha not_reached_of_nil
    have hothers : (bs.map later).map (at? children (x :: roots)) = ys.map some := by
      rw [← hlater.entries, List.map_map]
      refine List.map_congr_left fun b hb => ?_
      obtain ⟨k, b, rfl⟩ := hlater.ne_nil hb
      rfl
    simp only [List.map_append, List.map_cons, hfirst, hothers]
    rfl
  ordered := by
    have hfirst : (as.map (0 :: ·)).Pairwise (· < ·) :=
      List.pairwise_map.2 (hbelow.ordered.imp fun h => List.cons_lt_cons_iff.2 (.inr ⟨rfl, h⟩))
    have hothers : (bs.map later).Pairwise (· < ·) := by
      refine List.pairwise_map.2 (hlater.ordered.imp_of_mem fun ha hb h => ?_)
      obtain ⟨k, a, rfl⟩ := hlater.ne_nil ha
      obtain ⟨l, b, rfl⟩ := hlater.ne_nil hb
      simpa [later, List.cons_lt_cons_iff] using h
    have hbetween : ∀ a, ∀ b ∈ bs.map later, 0 :: a < b := by
      intro a b hb
      obtain ⟨c, hc, rfl⟩ := List.mem_map.1 hb
      obtain ⟨k, c, rfl⟩ := hlater.ne_nil hc
      exact List.cons_lt_cons_iff.2 (.inl (Nat.zero_lt_succ k))
    refine List.pairwise_append.2 ⟨List.pairwise_cons.2 ⟨fun a ha => ?_, hfirst⟩, hothers, fun a ha b hb => ?_⟩
    · obtain ⟨b, hb, rfl⟩ := List.mem_map.1 ha
      obtain ⟨k, b, rfl⟩ := hbelow.ne_nil hb
      exact List.cons_lt_cons_iff.2 (.inr ⟨rfl, List.nil_lt_cons k b⟩)
    · rcases List.mem_cons.1 ha with rfl | ha
      · exact hbetween [] b hb
      · obtain ⟨a, -, rfl⟩ := List.mem_map.1 ha
        exact hbetween a b hb
  mem_iff a := by
    have hothers : ∀ b, b ∈ bs.map later ↔ ∃ k c, b = (k + 1) :: c ∧ k :: c ∈ bs := by
      intro b
      constructor
      · intro hb
        obtain ⟨c, hc, rfl⟩ := List.mem_map.1 hb
        obtain ⟨k, c, rfl⟩ := hlater.ne_nil hc
        exact ⟨k, c, rfl, hc⟩
      · rintro ⟨k, c, rfl, hc⟩
        exact List.mem_map.2 ⟨_, hc, rfl⟩
    match a with
    | [] => simp [hothers, not_reached_nil]
    | 0 :: a => simp [hothers, reached_zero, hbelow.mem_iff]
    | (k + 1) :: a => simp [hothers, reached_succ, hlater.mem_iff]

end IsPreorder

/-- **A walk that goes on below an entry unless it is a stop passes the pre-order of the forest.** -/
theorem exists_isPreorder {walk : α → List α} (hwalk : ∀ x, walk x = x :: (opened children stops x).flatMap walk)
    (roots : List α) : ∃ addresses, IsPreorder children stops roots addresses (roots.flatMap walk) := by
  match roots with
  | [] => exact ⟨[], isPreorder_nil⟩
  | x :: roots =>
    have hbelow : ((opened children stops x).flatMap walk).length < ((x :: roots).flatMap walk).length := by
      rw [List.flatMap_cons, hwalk x]
      simp only [List.length_append, List.length_cons]
      omega
    have hlater : (roots.flatMap walk).length < ((x :: roots).flatMap walk).length := by
      rw [List.flatMap_cons, hwalk x]
      simp only [List.length_append, List.length_cons]
      omega
    obtain ⟨as, has⟩ := exists_isPreorder hwalk (opened children stops x)
    obtain ⟨bs, hbs⟩ := exists_isPreorder hwalk roots
    rw [List.flatMap_cons, hwalk x]
    exact ⟨_, has.cons hbs⟩
termination_by (roots.flatMap walk).length
decreasing_by
  · exact hbelow
  · exact hlater

/-! ## First children -/

theorem lt_append_zero : ∀ a : Address, a < a ++ [0]
  | [] => List.nil_lt_cons 0 []
  | _ :: a => List.cons_lt_cons_iff.2 (.inr ⟨rfl, lt_append_zero a⟩)

/-- **No address lies between one and its first below.** -/
theorem not_between : ∀ {a c : Address}, a < c → ¬ c < a ++ [0]
  | [], [], h => absurd h (List.not_lt_nil [])
  | [], k :: c, _ => by simp [List.cons_lt_cons_iff]
  | _ :: _, [], h => absurd h (List.not_lt_nil _)
  | k :: a, l :: c, h => by
    rw [List.cons_append, List.cons_lt_cons_iff]
    rcases List.cons_lt_cons_iff.1 h with hkl | ⟨rfl, hac⟩
    · omega
    · simpa using not_between hac

theorem Reached.firstChild {a : Address} {x y : α} {ys : List α} (h : Reached children stops roots a)
    (hx : at? children roots a = some x) (hstop : stops x = false) (hchildren : children x = y :: ys) :
    Reached children stops roots (a ++ [0]) ∧ at? children roots (a ++ [0]) = some y := by
  have hnil : a ≠ [] := by
    rintro rfl
    exact not_reached_nil h
  have hy : at? children roots (a ++ [0]) = some y := by
    rw [at?_append hnil, hx]
    simp [from?, hchildren]
  refine ⟨⟨by rw [hy]; rfl, fun b hb hne z hz => ?_⟩, hy⟩
  have hb : b <+: a := (List.prefix_concat_iff.1 hb).resolve_left hne
  by_cases heq : b = a
  · rw [heq, hx] at hz
    cases hz
    exact hstop
  · exact h.2 b hb heq z hz

/-- **An entry that is no stop is followed by its first child.** -/
theorem IsPreorder.getElem?_firstChild {as : List Address} {xs : List α} (h : IsPreorder children stops roots as xs)
    {i : Nat} {x y : α} {ys : List α} (hx : xs[i]? = some x) (hstop : stops x = false) (hchildren : children x = y :: ys) :
    xs[i + 1]? = some y := by
  have hentry : ∀ j : Nat, (as[j]?).map (at? children roots) = (xs[j]?).map some := fun j => by
    rw [← List.getElem?_map, h.entries, List.getElem?_map]
  have hi := hentry i
  rw [hx, Option.map_some, Option.map_eq_some_iff] at hi
  obtain ⟨a, ha, hat⟩ := hi
  obtain ⟨hreached, hy⟩ := ((h.mem_iff a).1 (List.mem_of_getElem? ha)).firstChild hat hstop hchildren
  obtain ⟨j, hj⟩ := List.getElem?_of_mem ((h.mem_iff _).2 hreached)
  -- The addresses increase, and the one at the next place cannot come before that of the child.
  have hlt : ∀ {k l : Nat} {b c : Address}, as[k]? = some b → as[l]? = some c → k < l → b < c := by
    intro k l b c hb hc hkl
    obtain ⟨hk, rfl⟩ := List.getElem?_eq_some_iff.1 hb
    obtain ⟨hl, rfl⟩ := List.getElem?_eq_some_iff.1 hc
    exact List.pairwise_iff_getElem.1 h.ordered k l hk hl hkl
  have hij : j = i + 1 := by
    rcases Nat.lt_trichotomy j (i + 1) with hji | hji | hji
    · rcases Nat.lt_succ_iff_lt_or_eq.1 hji with hji | rfl
      · exact absurd (hlt hj ha hji) (lt_asymm (lt_append_zero a))
      · rw [ha] at hj
        exact absurd (lt_append_zero a) (by rw [← Option.some.inj hj]; exact lt_irrefl a)
    · exact hji
    · have hshort : i + 1 < as.length := Nat.lt_trans hji (List.getElem?_eq_some_iff.1 hj).1
      have hc := List.getElem?_eq_getElem hshort
      exact absurd (hlt hc hj hji) (not_between (hlt ha hc (Nat.lt_succ_self i)))
  subst hij
  have hnext := hentry (i + 1)
  rw [hj, Option.map_some, hy, eq_comm, Option.map_eq_some_iff] at hnext
  obtain ⟨z, hz, heq⟩ := hnext
  rw [hz, heq]

end Address
end DomainModel
