import DomainModel.Scope.Search
/-!
# Asked — what a lookup is asked for

Resolving a reference asks for its candidates in order and stops at the first that the lookup knows, whatever effects
the lookup has (`Scope.resolveM_eq`); so does the search that lists the candidates of one place at a time
(`Scope.askWithin_eq`).  Of a lookup with a state this gives the answer, the state that is left and the names that were
asked for (`Scope.resolving_asks_candidates`).
-/
namespace DomainModel

/-! ## The first answer in a list -/

section FirstAnswer

variable {α ι σ : Type}

/-- In a joined list the second part is asked where the first has no answer. -/
theorem findSomeM?_append {m : Type → Type} [Monad m] [LawfulMonad m] (ask : ι → m (Option α)) : ∀ as bs : List ι,
    (as ++ bs).findSomeM? ask = do
      match ← as.findSomeM? ask with
      | some found => return some found
      | none => bs.findSomeM? ask
  | [], bs => by rw [List.nil_append, List.findSomeM?_nil, pure_bind]
  | a :: as, bs => by
    rw [List.cons_append, List.findSomeM?_cons, List.findSomeM?_cons, bind_assoc]
    refine congrArg (ask a >>= ·) (funext fun answer => ?_)
    cases answer with
    | some found => rw [pure_bind]
    | none => exact findSomeM?_append ask as bs

/-- **The entries up to the first that is answered**; all of them, if none is. -/
def upToAnswer (is : List ι) (answers : List (Option α)) : List ι := is.take (answers.findIdx Option.isSome + 1)

theorem upToAnswer_none (i : ι) (is : List ι) (answers : List (Option α)) :
    upToAnswer (i :: is) (none :: answers) = i :: upToAnswer is answers := by
  simp [upToAnswer, List.findIdx_cons]

theorem upToAnswer_some (i : ι) (is : List ι) (a : α) (answers : List (Option α)) :
    upToAnswer (i :: is) (some a :: answers) = [i] := by
  simp [upToAnswer, List.findIdx_cons]

variable (ask : ι → StateM σ (Option α))

theorem run_mapM_cons (i : ι) (is : List ι) (s : σ) :
    ((i :: is).mapM ask).run s =
      (((ask i).run s).1 :: ((is.mapM ask).run ((ask i).run s).2).1, ((is.mapM ask).run ((ask i).run s).2).2) := by
  rw [List.mapM_cons]
  rfl

/-- **Asking until there is an answer gives the first answer that all the entries have**, and leaves the state in which
the entries up to it leave it. -/
theorem run_findSomeM? : ∀ (is : List ι) (s : σ),
    (is.findSomeM? ask).run s =
      let answers := ((is.mapM ask).run s).1
      (answers.findSome? id, (((upToAnswer is answers).mapM ask).run s).2)
  | [], s => rfl
  | i :: is, s => by
    have hlater := run_findSomeM? is ((ask i).run s).2
    have hstep : ((i :: is).findSomeM? ask).run s =
        match ((ask i).run s).1 with
        | some found => (some found, ((ask i).run s).2)
        | none => (is.findSomeM? ask).run ((ask i).run s).2 := by
      rw [List.findSomeM?_cons, StateT.run_bind]
      change (match ((ask i).run s).1 with | some found => pure (some found) | none => is.findSomeM? ask).run _ = _
      cases ((ask i).run s).1 <;> rfl
    rw [hstep, run_mapM_cons]
    cases ((ask i).run s).1 with
    | some found => simp only [upToAnswer_some, run_mapM_cons, List.findSome?_cons, id]; rfl
    | none => simp only [hlater, upToAnswer_none, run_mapM_cons, List.findSome?_cons, id]

/-- Ask, and note what is asked for behind what was asked for before. -/
def noting (i : ι) : StateM (σ × List ι) (Option α) := fun (s, asked) =>
  let (answer, s) := (ask i).run s
  (answer, s, asked ++ [i])

theorem run_mapM_noting : ∀ (is : List ι) (s : σ) (asked : List ι),
    (is.mapM (noting ask)).run (s, asked) = (((is.mapM ask).run s).1, ((is.mapM ask).run s).2, asked ++ is)
  | [], s, asked => by rw [List.append_nil]; rfl
  | i :: is, s, asked => by
    have hfirst : (noting ask i).run (s, asked) = (((ask i).run s).1, ((ask i).run s).2, asked ++ [i]) := rfl
    rw [run_mapM_cons, run_mapM_cons, hfirst, run_mapM_noting is, List.append_assoc]
    rfl

end FirstAnswer

namespace Scope

variable {m : Type → Type} [Monad m] [LawfulMonad m] {α : Type} (lookup : QualifiedName → m (Option α))
  (r : QualifiedName)

/-- **Resolving is asking for the candidates in order**, whatever a lookup does when it is asked. -/
theorem resolveM_eq : ∀ s : Scope, s.resolveM lookup r = (s.candidates r).findSomeM? lookup
  | top _ => rfl
  | block outer name imports => by
    rw [resolveM, resolveM_eq outer]
    exact (findSomeM?_append lookup _ _).symm
  | declaration outer name => by
    rw [resolveM, resolveM_eq outer]
    exact (findSomeM?_append lookup _ _).symm

/-! ## The two searches outward -/

/-- **A search that gathers ends with the candidates**, behind what was listed before. -/
theorem gatherWithin_eq : ∀ (s : Scope) (names : List QualifiedName),
    gatherWithin r (s.chain.length + 1) ⟨names, some s⟩ = some (names ++ s.candidates r)
  | top imports, names => rfl
  | block outer name imports, names => by
    rw [chain, List.length_append, List.length_singleton, candidates, ← List.append_assoc]
    exact gatherWithin_eq outer _
  | declaration outer name, names => by
    rw [chain, List.length_append, List.length_singleton, candidates, ← List.append_assoc]
    exact gatherWithin_eq outer _

theorem askWithin_succ (rounds : Nat) (s : Scope) (names : List QualifiedName) :
    askWithin lookup r (rounds + 1) ⟨names, some s⟩ = (do
      match ← (s.frameCandidates r).findSomeM? lookup with
      | some found => return some (some found)
      | none => askWithin lookup r rounds ⟨s.frameCandidates r, s.parent?⟩) := by
  simp only [askWithin, askRound, List.nil_append, bind_assoc]
  refine congrArg (_ >>= ·) (funext fun answer => ?_)
  cases answer with
  | some found => rw [pure_bind]
  | none => rw [pure_bind]

/-- **A search that asks ends with what resolving gives**, whatever was listed before. -/
theorem askWithin_eq : ∀ (s : Scope) (names : List QualifiedName),
    askWithin lookup r (s.chain.length + 1) ⟨names, some s⟩ = some <$> s.resolveM lookup r
  | top imports, names => by
    rw [askWithin_succ, resolveM, ← bind_pure_comp]
    refine congrArg (_ >>= ·) (funext fun answer => ?_)
    cases answer with
    | some found => rfl
    | none => simp [chain, askWithin, askRound, parent?]
  | block outer name imports, names => by
    rw [askWithin_succ, resolveM, map_bind]
    refine congrArg (_ >>= ·) (funext fun answer => ?_)
    cases answer with
    | some found => rw [map_pure]
    | none =>
      rw [chain, List.length_append, List.length_singleton]
      exact askWithin_eq outer _
  | declaration outer name, names => by
    rw [askWithin_succ, resolveM, map_bind]
    refine congrArg (_ >>= ·) (funext fun answer => ?_)
    cases answer with
    | some found => rw [map_pure]
    | none =>
      rw [chain, List.length_append, List.length_singleton]
      exact askWithin_eq outer _

/-- **A reference is resolved by asking for its candidates up to the first that is known.**  The search for all the
candidates and the search that asks end, the second with the effects of asking for the candidates in order until one is
known.  From a lookup with a state it has the first of the answers that all the candidates would get, after asking for
the candidates up to it, each as often as it stands there. -/
theorem resolving_asks_candidates (s : Scope) (r : QualifiedName) {α : Type} :
    gatherWithin r (s.chain.length + 1) ⟨[], some s⟩ = some (s.candidates r) ∧
    (∀ {m : Type → Type} [Monad m] [LawfulMonad m] (lookup : QualifiedName → m (Option α)),
      askWithin lookup r (s.chain.length + 1) ⟨[], some s⟩ = some <$> s.resolveM lookup r ∧
        s.resolveM lookup r = (s.candidates r).findSomeM? lookup) ∧
    (∀ lookup : QualifiedName → Option α, s.resolve lookup r = (s.candidates r).findSome? lookup) ∧
    ∀ {σ : Type} (lookup : QualifiedName → StateM σ (Option α)) (start : σ),
      let answers := (((s.candidates r).mapM lookup).run start).1
      let asked := upToAnswer (s.candidates r) answers
      (s.resolveM lookup r).run start = (answers.findSome? id, ((asked.mapM lookup).run start).2) ∧
        (s.resolveM (noting lookup) r).run (start, []) =
          (answers.findSome? id, ((asked.mapM lookup).run start).2, asked) := by
  refine ⟨gatherWithin_eq r s [], fun lookup => ⟨askWithin_eq lookup r s [], resolveM_eq lookup r s⟩,
    fun lookup => resolve_eq lookup r s, fun lookup start => ?_⟩
  intro answers asked
  have hnoted := run_findSomeM? (noting lookup) (s.candidates r) (start, [])
  simp only [run_mapM_noting, List.nil_append] at hnoted
  rw [resolveM_eq, resolveM_eq, run_findSomeM?, hnoted]
  exact ⟨rfl, rfl⟩

/-- A lookup that knows every name when it is asked for the second time. -/
def secondTime (n : QualifiedName) : StateM Nat (Option QualifiedName) := fun times =>
  (if times = 1 then some n else none, times + 1)

/-- In a block `app` that imports itself. -/
def selfish : Scope := .block (.top []) (.single ⟨"app", by decide⟩) [.single ⟨"app", by decide⟩]

/-- The candidate `app.money` is asked for twice and known the second time; `money` is not asked for. -/
theorem resolving_asks_candidates_selfish :
    LawfulMonad (StateM Nat) ∧
      askWithin secondTime (.single ⟨"money", by decide⟩) 3 ⟨[], some selfish⟩ =
        some <$> selfish.resolveM secondTime (.single ⟨"money", by decide⟩) ∧
      (selfish.resolveM (noting secondTime) (.single ⟨"money", by decide⟩)).run (0, []) =
        (some ⟨⟨"app", by decide⟩, [⟨"money", by decide⟩]⟩, 2,
          [⟨⟨"app", by decide⟩, [⟨"money", by decide⟩]⟩, ⟨⟨"app", by decide⟩, [⟨"money", by decide⟩]⟩]) := by
  obtain ⟨-, heffects, -, hstate⟩ :=
    resolving_asks_candidates (α := QualifiedName) selfish (.single ⟨"money", by decide⟩)
  exact ⟨inferInstance, (heffects secondTime).1, (hstate secondTime 0).2.trans rfl⟩

end Scope
end DomainModel
