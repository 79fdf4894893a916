import DomainModel.Compile
/-!
# Limited — what the limit of observations changes

A limit cuts what a failure tells and nothing else: whether there is a graph, and which, it does not touch, nor what the
reader is asked (`compile_limited`).
-/
namespace DomainModel

open Source (Tree)

variable {options : CompileOptions}

/-- The failure with at most so many observations. -/
def CompileFailure.cut (limit : Nat) (f : CompileFailure) : CompileFailure := ⟨Observation.limited limit f.observations⟩

/-- **What a limit may change of a compilation**: it cuts the observations on a failure that it does not find room for. -/
structure OnlyCuts (compiled : Nat → Except CompileFailure Graph) : Prop where
  /-- There is a graph under any limit or under none, and it is the same. -/
  graph : ∀ k l g, compiled k = .ok g ↔ compiled l = .ok g
  /-- Told are all observations, if there is room for them; else the first and a note that counts the others. -/
  observations : ∀ limit told, compiled limit = .error told ↔ ∃ all, compiled 0 = .error all ∧
    told.observations =
      if limit = 0 ∨ all.observations.length ≤ limit then all.observations
      else all.observations.take limit ++
        [⟨"... and " ++ toString (all.observations.length - limit) ++ " more observations", none⟩]
  something : ∀ limit, compiled limit ≠ .error ⟨[]⟩

theorem mapError_cut_eq_ok_iff {r : Except CompileFailure Graph} {limit : Nat} {g : Graph} :
    r.mapError (·.cut limit) = .ok g ↔ r = .ok g := by
  cases r with
  | ok g' => exact Iff.rfl
  | error all => exact ⟨nofun, nofun⟩

theorem mapError_cut_eq_error_iff {r : Except CompileFailure Graph} {limit : Nat} {told : CompileFailure} :
    r.mapError (·.cut limit) = .error told ↔ ∃ all, r = .error all ∧ told = all.cut limit := by
  constructor
  · intro h
    cases r with
    | ok g => cases h
    | error all =>
      cases h
      exact ⟨all, rfl, rfl⟩
  · rintro ⟨all, rfl, rfl⟩
    rfl

theorem OnlyCuts.of_mapError {compiled : Nat → Except CompileFailure Graph}
    (h : ∀ limit, compiled limit = (compiled 0).mapError (·.cut limit)) (hne : compiled 0 ≠ .error ⟨[]⟩) :
    OnlyCuts compiled where
  graph k l g := by rw [h k, h l, mapError_cut_eq_ok_iff, mapError_cut_eq_ok_iff]
  observations limit told := by
    rw [h limit, mapError_cut_eq_error_iff]
    refine exists_congr fun all => and_congr_right fun _ => ?_
    exact ⟨fun htold => congrArg CompileFailure.observations htold, fun htold => by cases told; cases htold; rfl⟩
  something limit := by
    rw [h limit, Ne, mapError_cut_eq_error_iff]
    rintro ⟨⟨all⟩, hall, hcut⟩
    have hnil : all = [] := Observation.limited_eq_nil_iff.1 (congrArg CompileFailure.observations hcut).symm
    exact hne (by rw [hall, hnil])

/-! ## The two ends of a compilation -/

theorem compileForest_limit (limit : Nat) (forest : List Tree) : compileForest { options with limit } forest =
    (compileForest { options with limit := 0 } forest).mapError (·.cut limit) := by
  have hobserve : observe { options with limit } forest = observe { options with limit := 0 } forest := rfl
  rw [compileForest, compileForest, hobserve]
  cases observe { options with limit := 0 } forest with
  | nil => rfl
  | cons o os => simp only [Observation.limited_zero]; rfl

theorem compileReadings_limit (limit : Nat) (readings : List (Except (List ReadFailure) Tree)) :
    compileReadings { options with limit } readings =
      (compileReadings { options with limit := 0 } readings).mapError (·.cut limit) := by
  rw [compileReadings, compileReadings]
  cases readingObservations readings with
  | nil => exact compileForest_limit limit (readingTrees readings)
  | cons o os => simp only [Observation.limited_zero]; rfl

theorem compileM_limit {m : Type → Type} [Monad m] [LawfulMonad m] (reader : Reader m) (limit : Nat)
    (inputs : List Input) : compileM reader { options with limit } inputs =
      (·.mapError (·.cut limit)) <$> compileM reader { options with limit := 0 } inputs := by
  simp only [compileM, map_bind, map_pure, compileReadings_limit limit]

theorem compileReadings_ne_nil (readings : List (Except (List ReadFailure) Tree)) :
    compileReadings options readings ≠ .error ⟨[]⟩ := by
  rw [compileReadings]
  cases readingObservations readings with
  | nil => exact fun h => observations_compileForest_ne_nil h rfl
  | cons o os => simp [Observation.limited_eq_nil_iff]

/-- **The limit of observations only cuts what is told.**  For every reader and all inputs, as for every forest, each limit
gives the graph that there is without a limit, or a failure with the first of its observations; and the reader, whatever
else it does, does the same. -/
theorem compile_limited (options : CompileOptions) :
    (∀ (reader : Reader Id) (inputs : List Input), OnlyCuts fun limit => compile reader { options with limit } inputs) ∧
    (∀ forest : List Tree, OnlyCuts fun limit => compileForest { options with limit } forest) ∧
    ∀ {m : Type → Type} [Monad m] [LawfulMonad m] (reader : Reader m) (limit : Nat) (inputs : List Input),
      compileM reader { options with limit } inputs =
        (·.mapError (·.cut limit)) <$> compileM reader { options with limit := 0 } inputs := by
  refine ⟨fun reader inputs => ?_, fun forest => ?_, fun reader limit inputs => compileM_limit reader limit inputs⟩
  · exact .of_mapError (fun limit => compileReadings_limit limit _) (compileReadings_ne_nil _)
  · exact .of_mapError (fun limit => compileForest_limit limit forest) fun h => observations_compileForest_ne_nil h rfl

end DomainModel
