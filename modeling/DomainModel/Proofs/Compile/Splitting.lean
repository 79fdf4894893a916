import DomainModel.Proofs.Compile.Blocks
import DomainModel.Proofs.Rules.Accepted
/-!
# Splitting — a block cut in two

Cutting a block at any depth into two blocks of the same name and imports, or a unit into two units of the same imports,
does not change what a forest compiles to (`compileForest_of_splits`).  The second half of a block comes right behind
the blocks inside the first half, all of which have longer names: so among the blocks of its own name it comes right
behind the first half, and no name appears earlier or later than before.
-/
namespace DomainModel
namespace Source

/-- **A block among members, or somewhere inside one, is cut in two.** -/
inductive SplitsMembers : List Member → List Member → Prop
  | block (before after : List Member) (name : QualifiedName) (imports : List QualifiedName)
      (first second : List Member) :
      SplitsMembers (before ++ .block ⟨name, imports, first ++ second⟩ :: after)
        (before ++ .block ⟨name, imports, first⟩ :: .block ⟨name, imports, second⟩ :: after)
  | inside (before after : List Member) (name : QualifiedName) (imports : List QualifiedName)
      {members members' : List Member} :
      SplitsMembers members members' →
        SplitsMembers (before ++ .block ⟨name, imports, members⟩ :: after)
          (before ++ .block ⟨name, imports, members'⟩ :: after)

/-- **A unit of a forest, or a block somewhere in one, is cut in two.**  The halves of a unit may come from any
sources. -/
inductive Splits : List Tree → List Tree → Prop
  | unit (before after : List Tree) (source source₁ source₂ : Option String) (imports : List QualifiedName)
      (first second : List Block) :
      Splits (before ++ ⟨source, imports, first ++ second⟩ :: after)
        (before ++ ⟨source₁, imports, first⟩ :: ⟨source₂, imports, second⟩ :: after)
  | block (before after : List Tree) (source : Option String) (imports : List QualifiedName)
      {blocks blocks' : List Block} :
      SplitsMembers (blocks.map .block) (blocks'.map .block) →
        Splits (before ++ ⟨source, imports, blocks⟩ :: after) (before ++ ⟨source, imports, blocks'⟩ :: after)

/-! ## Names inside are longer -/

mutual

theorem Block.startSize_lt {f : Fragment} (outer : Scope) : ∀ b : Block, f ∈ b.fragments outer →
    Group.startSize outer.fullName < f.fullName.size
  | ⟨name, imports, members⟩, hf => by
    have hself : Group.startSize outer.fullName < (name.under outer.fullName).size := by
      cases outer.fullName with
      | none => exact Nat.zero_lt_succ _
      | some o =>
        simp [Group.startSize, QualifiedName.under, QualifiedName.size, List.length_pos_iff, name.segments_ne_nil]
    rw [Block.fragments] at hf
    rcases List.mem_cons.1 hf with rfl | hf
    · exact hself
    · exact Nat.lt_trans hself (Member.startSize_lt_all (.block outer name imports) members hf)

theorem Member.startSize_lt {f : Fragment} (outer : Scope) : ∀ m : Member, f ∈ m.fragments outer →
    Group.startSize outer.fullName < f.fullName.size
  | .block b, hf => Block.startSize_lt outer b hf
  | .entity _, hf | .value _, hf | .externalEnum _, hf | .webApi _, hf => by cases hf

theorem Member.startSize_lt_all {f : Fragment} (outer : Scope) : ∀ ms : List Member, f ∈ Member.fragmentsAll outer ms →
    Group.startSize outer.fullName < f.fullName.size
  | [], hf => by cases hf
  | m :: ms, hf => by
    rw [Member.fragmentsAll, List.mem_append] at hf
    rcases hf with hf | hf
    · exact Member.startSize_lt outer m hf
    · exact Member.startSize_lt_all outer ms hf

end

theorem fullName_ne_of_inside {f : Fragment} {outer : Scope} {name : QualifiedName} {imports : List QualifiedName}
    {members : List Member} (hf : f ∈ Member.fragmentsAll (.block outer name imports) members) :
    f.fullName ≠ name.under outer.fullName := by
  have hlt := Member.startSize_lt_all _ members hf
  rintro heq
  rw [heq] at hlt
  exact Nat.lt_irrefl _ hlt

end Source

open Source (Block Member Splits SplitsMembers Tree)

/-- **One entry of a list of outlines is cut in two**, entries of other names between the halves. -/
def CutOnce (os ps : List (QualifiedName × List (Member × Scope))) : Prop :=
  ∃ before inner after name first second,
    os = before ++ (name, first ++ second) :: (inner ++ after) ∧
      ps = before ++ (name, first) :: (inner ++ (name, second) :: after) ∧ ∀ o ∈ inner, o.1 ≠ name

theorem CutOnce.within {os ps : List (QualifiedName × List (Member × Scope))} (h : CutOnce os ps)
    (as bs : List (QualifiedName × List (Member × Scope))) : CutOnce (as ++ os ++ bs) (as ++ ps ++ bs) := by
  obtain ⟨before, inner, after, name, first, second, rfl, rfl, hinner⟩ := h
  exact ⟨as ++ before, inner, after ++ bs, name, first, second, by simp, by simp, hinner⟩

theorem eraseDups_append_cons {α : Type} [DecidableEq α] {as bs : List α} {a : α} (h : a ∈ as) :
    (as ++ a :: bs).eraseDups = (as ++ bs).eraseDups := by
  rw [List.eraseDups_append, List.eraseDups_append]
  simp [List.removeAll, h]

/-- **Blocks of which one was cut in two are the same blocks.** -/
theorem CutOnce.sameBlocks {fs gs : List Fragment} (h : CutOnce (fs.map (·.outline)) (gs.map (·.outline))) :
    SameBlocks id fs gs := by
  obtain ⟨before, inner, after, name, first, second, hfs, hgs, hinner⟩ := h
  constructor
  · -- The name of the second half appears before it.
    have hsplit : ∀ cs : List (QualifiedName × List (Member × Scope)),
        (before ++ (name, first) :: (inner ++ cs)).map (·.1) =
          (before.map (·.1) ++ name :: inner.map (·.1)) ++ cs.map (·.1) := by
      intro cs
      simp
    have hmem : name ∈ before.map (·.1) ++ name :: inner.map (·.1) := by simp
    have hfirst : (before ++ (name, first ++ second) :: (inner ++ after)).map (·.1) =
        (before ++ (name, first) :: (inner ++ after)).map (·.1) := by simp
    rw [Fragment.names_eq, Fragment.names_eq, hfs, hgs, hfirst, hsplit, hsplit, List.map_cons,
      eraseDups_append_cons hmem]
  · intro n
    rw [Fragment.members_eq, Fragment.members_eq, hfs, hgs]
    by_cases hn : name = n
    · subst hn
      -- Between the halves there is no block of their name.
      have hnone : inner.filter (fun o => o.1 = name) = [] :=
        List.filter_eq_nil_iff.2 fun o ho he => hinner o ho (of_decide_eq_true he)
      simp [hnone]
    · simp [hn]

namespace Source

theorem Member.fragmentsAll_append (outer : Scope) : ∀ ms ns : List Member,
    Member.fragmentsAll outer (ms ++ ns) = Member.fragmentsAll outer ms ++ Member.fragmentsAll outer ns
  | [], _ => rfl
  | m :: ms, ns => by
    rw [List.cons_append, Member.fragmentsAll, Member.fragmentsAll_append outer ms ns, Member.fragmentsAll,
      List.append_assoc]

theorem Member.fragmentsAll_block (outer : Scope) : ∀ bs : List Block,
    Member.fragmentsAll outer (bs.map .block) = bs.flatMap (·.fragments outer)
  | [] => rfl
  | b :: bs => by
    rw [List.map_cons, Member.fragmentsAll, Member.fragmentsAll_block outer bs, Member.fragments, List.flatMap_cons]

/-- **Cutting a block among members cuts one entry of the list of blocks.** -/
theorem SplitsMembers.cutOnce {members members' : List Member} (h : SplitsMembers members members') (outer : Scope) :
    CutOnce ((Member.fragmentsAll outer members).map (·.outline))
      ((Member.fragmentsAll outer members').map (·.outline)) := by
  induction h generalizing outer with
  | block before after name imports first second =>
    refine ⟨(Member.fragmentsAll outer before).map (·.outline),
      (Member.fragmentsAll (.block outer name imports) first).map (·.outline),
      (Member.fragmentsAll (.block outer name imports) second).map (·.outline) ++
        (Member.fragmentsAll outer after).map (·.outline),
      name.under outer.fullName, (Fragment.mk outer ⟨name, imports, first⟩).members,
      (Fragment.mk outer ⟨name, imports, second⟩).members, ?_, ?_, ?_⟩
    · simp [Member.fragmentsAll_append, Member.fragmentsAll, Member.fragments, Block.fragments, Fragment.outline,
        Fragment.fullName, Fragment.members, Fragment.scope]
    · simp [Member.fragmentsAll_append, Member.fragmentsAll, Member.fragments, Block.fragments, Fragment.outline,
        Fragment.fullName]
    · intro o ho
      obtain ⟨f, hf, rfl⟩ := List.mem_map.1 ho
      exact fullName_ne_of_inside hf
  | @inside before after name imports members members' h ih =>
    -- The block around keeps its outline: of its members only blocks have changed.
    have hlist : ∀ ms : List Member,
        (Member.fragmentsAll outer (before ++ .block ⟨name, imports, ms⟩ :: after)).map (·.outline) =
          ((Member.fragmentsAll outer before).map (·.outline) ++ [(Fragment.mk outer ⟨name, imports, ms⟩).outline]) ++
            (Member.fragmentsAll (.block outer name imports) ms).map (·.outline) ++
              (Member.fragmentsAll outer after).map (·.outline) := by
      intro ms
      simp [Member.fragmentsAll_append, Member.fragmentsAll, Member.fragments, Block.fragments]
    have houtline : (Fragment.mk outer ⟨name, imports, members⟩).outline =
        (Fragment.mk outer ⟨name, imports, members'⟩).outline := by
      refine congrArg (Prod.mk _) (congrArg (List.map _) ?_)
      cases h <;> simp [Member.isBlock]
    rw [hlist, hlist, houtline]
    exact (ih _).within _ _

theorem Splits.sameBlocks {forest others : List Tree} (h : Splits forest others) :
    SameBlocks id (fragmentsOf forest) (fragmentsOf others) := by
  cases h with
  | unit before after source source₁ source₂ imports first second =>
    have heq : fragmentsOf (before ++ ⟨source₁, imports, first⟩ :: ⟨source₂, imports, second⟩ :: after) =
        fragmentsOf (before ++ ⟨source, imports, first ++ second⟩ :: after) := by
      simp [fragmentsOf]
    rw [heq]
    exact ⟨rfl, fun name => by simp⟩
  | @block before after source imports blocks blocks' h =>
    have hlist : ∀ bs : List Block, (fragmentsOf (before ++ ⟨source, imports, bs⟩ :: after)).map (·.outline) =
        (fragmentsOf before).map (·.outline) ++ (Member.fragmentsAll (.top imports) (bs.map .block)).map (·.outline) ++
          (fragmentsOf after).map (·.outline) := by
      intro bs
      simp [fragmentsOf, Member.fragmentsAll_block]
    have hcut := (h.cutOnce (.top imports)).within ((fragmentsOf before).map (·.outline))
      ((fragmentsOf after).map (·.outline))
    rw [← hlist, ← hlist] at hcut
    exact hcut.sameBlocks

end Source

/-- **Cutting a block or a unit in two does not change what a forest compiles to**, whatever the options. -/
theorem compileForest_of_splits {forest others : List Tree} (h : Splits forest others) (options : CompileOptions) :
    compileForest options others = compileForest options forest :=
  h.sameBlocks.compileForest_eq Scope.Keeps.id options

/-- The shop in two blocks, a value and an entity in the first. -/
def Source.Small.halves : List Tree :=
  [⟨none, [], [⟨Small.shopName, [], [.value Small.label, .entity Small.order]⟩,
    ⟨Small.shopName, [], [.entity Small.rush, .webApi Small.orders]⟩]⟩]

theorem compileForest_of_splits_shop : Splits Source.Small.shop Source.Small.halves ∧
    compileForest {} Source.Small.halves = compileForest {} Source.Small.shop := by
  have h : Splits Source.Small.shop Source.Small.halves :=
    .block [] [] none [] (.block [] [] _ [] [.value Source.Small.label, .entity Source.Small.order] _)
  exact ⟨h, compileForest_of_splits h {}⟩

end DomainModel
