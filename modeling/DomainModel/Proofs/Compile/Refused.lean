import DomainModel.Compile
import DomainModel.Proofs.Rules.Accepted
import Mathlib.Data.Set.List
/-!
# Refused — compiling what a reader does not read

An input is blank, or the reader reads a tree in it, or the reader refuses it for some reasons.  Where every refusal has
a reason, a model with a refused input is told the reasons and nothing else, and the other models compile as their trees
do (`compile_of_explained`).  An input that is refused without a reason does not stop the others (`compile_unexplained`).
-/
namespace DomainModel

open Source (Tree)

/-- **The text of a failure in a source**, with the place if line and column are known: in its own source, else in the given
one, else in `{input}`. -/
def ReadFailure.textIn (source : Option String) (f : ReadFailure) : String :=
  match f.line, f.column with
  | some line, some column =>
    f.message ++ " (" ++ ((f.source <|> source).getD "\x7binput\x7d" ++ ": line:" ++ toString line ++ ", column:" ++
      toString column) ++ ")"
  | _, _ => f.message

theorem ReadFailure.text_within (source : Option String) (f : ReadFailure) :
    (f.within source).text = f.textIn source := by
  obtain ⟨message, own, line, column⟩ := f
  cases line <;> cases column <;> rfl

namespace Input

variable (reader : Reader Id)

/-- **The tree of an input**: an empty one if it is blank, else what the reader reads. -/
inductive Yields : Input → Tree → Prop
  | blank {i : Input} : i.isBlank = true → Yields i ⟨i.source, [], []⟩
  | read {i : Input} {t : Tree} : i.isBlank = false → (reader i.text i.source).run = .ok t → Yields i t

/-- **The reader refuses an input** for these reasons. -/
def Refused (i : Input) (reasons : List ReadFailure) : Prop :=
  i.isBlank = false ∧ (reader i.text i.source).run = .error reasons

/-- The reasons for which an input is refused; there are none if it is blank or read. -/
def reasons (i : Input) : List ReadFailure :=
  if i.isBlank then []
  else
    match (reader i.text i.source).run with
    | .ok _ => []
    | .error reasons => reasons

/-- The reasons as observations in the source of the input. -/
def observations (i : Input) : List Observation := (i.reasons reader).map fun f => (f.within i.source).observation

variable {reader} {i : Input}

theorem run_read (reader : Reader Id) (i : Input) : (i.read reader).run =
    if i.isBlank then .ok (.blank i.source)
    else
      match (reader i.text i.source).run with
      | .ok t => .ok t
      | .error reasons => .error (reasons.map (·.within i.source)) := by
  unfold read
  cases i.isBlank <;> rfl

theorem run_read_eq_ok_iff {t : Tree} : (i.read reader).run = .ok t ↔ i.Yields reader t := by
  rw [run_read]
  constructor
  · intro h
    split at h
    · rename_i hb
      cases h
      exact .blank hb
    · rename_i hb
      split at h
      · rename_i t' ht
        cases h
        exact .read (by simpa using hb) ht
      · cases h
  · rintro (hb | ⟨hb, ht⟩)
    · rw [if_pos hb, Tree.blank]
    · simp [hb, ht]

/-- **An input is read or refused.** -/
theorem yields_or_refused (reader : Reader Id) (i : Input) :
    (∃ t, i.Yields reader t) ∨ ∃ reasons, i.Refused reader reasons := by
  by_cases hb : i.isBlank = true
  · exact .inl ⟨_, .blank hb⟩
  · rw [Bool.not_eq_true] at hb
    cases h : (reader i.text i.source).run with
    | ok t => exact .inl ⟨t, .read hb h⟩
    | error reasons => exact .inr ⟨reasons, hb, h⟩

theorem reasons_of_refused {reasons : List ReadFailure} (h : i.Refused reader reasons) : i.reasons reader = reasons := by
  simp [Input.reasons, h.1, h.2]

theorem readingObservations_read (reader : Reader Id) (i : Input) :
    readingObservations [(i.read reader).run] = i.observations reader := by
  rw [run_read]
  unfold readingObservations observations reasons
  by_cases hb : i.isBlank = true
  · simp [hb]
  · simp only [hb]
    cases (reader i.text i.source).run <;> simp

end Input

variable {reader : Reader Id} {options : CompileOptions} {inputs : List Input}

theorem readingObservations_reads (reader : Reader Id) (inputs : List Input) :
    readingObservations (inputs.map (·.read reader)) = inputs.flatMap (·.observations reader) := by
  rw [readingObservations, List.flatMap_map]
  refine congrArg inputs.flatMap (funext fun i => ?_)
  rw [← i.readingObservations_read reader]
  exact (List.flatMap_singleton _ _).symm

/-- **Trees that are read compile as they are.** -/
theorem compileReadings_ok (options : CompileOptions) (trees : List Tree) :
    compileReadings options (trees.map .ok) = compileForest options trees := by
  have hobserve : readingObservations (trees.map .ok) = [] := by simp [readingObservations]
  have htrees : readingTrees (trees.map .ok) = trees := by
    simp [readingTrees, List.filterMap_map, Function.comp_def, Except.toOption]
  simp only [compileReadings, hobserve, htrees]

theorem reads_eq_iff {trees : List Tree} :
    inputs.map (fun i => (i.read reader).run) = trees.map .ok ↔ List.Forall₂ (Input.Yields reader) inputs trees := by
  rw [← List.forall₂_eq_eq_eq, List.forall₂_map_left_iff, List.forall₂_map_right_iff]
  simp only [Input.run_read_eq_ok_iff]

/-- **Inputs that are all read compile as their trees do.** -/
theorem compile_of_yields {trees : List Tree} (h : List.Forall₂ (Input.Yields reader) inputs trees)
    (options : CompileOptions) : compile reader options inputs = compileForest options trees := by
  rw [← compileReadings_ok, ← reads_eq_iff.2 h]
  rfl

/-- **An input that is refused for a reason stops the compilation**: the reasons of all inputs are told. -/
theorem compile_of_reasons {i : Input} (hi : i ∈ inputs) (h : i.reasons reader ≠ []) (options : CompileOptions) :
    compile reader options inputs =
      .error ⟨Observation.limited options.limit (inputs.flatMap (·.observations reader))⟩ := by
  have hne : inputs.flatMap (·.observations reader) ≠ [] := by
    intro hnil
    exact h (List.map_eq_nil_iff.1 (List.flatMap_eq_nil_iff.1 hnil i hi))
  unfold compile compileReadings
  rw [readingObservations_reads]
  split
  · rename_i hnil
    exact absurd hnil hne
  · rename_i o os hos
    rw [hos]

/-- **Inputs with an explanation for every refusal**: they compile exactly when each is read and the trees compile, and to
the same graph; if one is refused, the reasons of all of them are told, in order, and nothing else. -/
theorem compile_of_explained (reader : Reader Id) (options : CompileOptions) (inputs : List Input)
    (h : ∀ i ∈ inputs, ¬ i.Refused reader []) :
    (∀ g, compile reader options inputs = .ok g ↔
        ∃ trees, List.Forall₂ (Input.Yields reader) inputs trees ∧ compileForest options trees = .ok g) ∧
      ((∃ i ∈ inputs, ∃ reasons, i.Refused reader reasons) →
        compile reader options inputs =
            .error ⟨Observation.limited options.limit (inputs.flatMap (·.observations reader))⟩ ∧
          (options.limit = 0 → ∃ failure, compile reader options inputs = .error failure ∧
            failure.messages = inputs.flatMap fun i => (i.reasons reader).map (·.textIn i.source))) := by
  have hrefused : ∀ i ∈ inputs, ∀ reasons, i.Refused reader reasons → compile reader options inputs =
      .error ⟨Observation.limited options.limit (inputs.flatMap (·.observations reader))⟩ := by
    intro i hi reasons hr
    refine compile_of_reasons hi ?_ options
    rw [Input.reasons_of_refused hr]
    rintro rfl
    exact h i hi hr
  refine ⟨fun g => ⟨fun hg => ?_, ?_⟩, ?_⟩
  · -- Where there is a graph, no input was refused, so each has its tree.
    have hread : ∀ i ∈ inputs, ∃ t, i.Yields reader t := by
      intro i hi
      rcases i.yields_or_refused reader with hy | ⟨reasons, hr⟩
      · exact hy
      · rw [hrefused i hi reasons hr] at hg
        cases hg
    have : Nonempty Tree := ⟨.blank none⟩
    choose! tree htree using hread
    have htrees : List.Forall₂ (Input.Yields reader) inputs (inputs.map tree) :=
      List.forall₂_map_right_iff.2 (List.forall₂_same.2 htree)
    exact ⟨_, htrees, (compile_of_yields htrees options).symm.trans hg⟩
  · rintro ⟨trees, htrees, hg⟩
    exact (compile_of_yields htrees options).trans hg
  · rintro ⟨i, hi, reasons, hr⟩
    refine ⟨hrefused i hi reasons hr, fun hlimit => ⟨_, hrefused i hi reasons hr, ?_⟩⟩
    simp only [CompileFailure.messages, hlimit, Observation.limited_zero, List.map_flatMap, Input.observations,
      List.map_map, Function.comp_def]
    exact congrArg inputs.flatMap (funext fun i => List.map_congr_left fun f _ => f.text_within i.source)

/-- Three units: nothing, a text and another text. -/
def Source.Small.threeTexts : List Input := [⟨"", none⟩, ⟨"shop", some "shop.dm"⟩, ⟨"?", some "odd.dm"⟩]

/-- A reader of the shop that refuses every other text for the same reasons. -/
def Source.Small.shopReader (reasons : List ReadFailure) : Reader Id := fun text source =>
  if text = "shop" then .ok ⟨source, [], Source.Small.shop.flatMap (·.blocks)⟩ else .error reasons

theorem compile_of_explained_inputs :
    (∀ i ∈ Source.Small.threeTexts, ¬ i.Refused (Source.Small.shopReader [.located "unexpected '?'" 1 1]) []) ∧
      ∃ failure, compile (Source.Small.shopReader [.located "unexpected '?'" 1 1]) {} Source.Small.threeTexts =
          .error failure ∧
        failure.messages = ["unexpected '?' (odd.dm: line:1, column:1)"] := by
  have h : ∀ i ∈ Source.Small.threeTexts,
      ¬ i.Refused (Source.Small.shopReader [.located "unexpected '?'" 1 1]) [] := by
    rintro i hi ⟨-, hr⟩
    simp only [Source.Small.threeTexts, List.mem_cons, List.not_mem_nil, or_false] at hi
    rcases hi with rfl | rfl | rfl <;> cases hr
  obtain ⟨-, hrefused⟩ := compile_of_explained _ {} _ h
  obtain ⟨-, hmessages⟩ := hrefused ⟨⟨"?", some "odd.dm"⟩, by decide, _, by decide, rfl⟩
  exact ⟨h, hmessages rfl⟩

/-- **A text that is refused without a reason does not stop the compilation.** -/
theorem compile_unexplained :
    (∃ i ∈ Source.Small.threeTexts, i.isBlank = false ∧ (Source.Small.shopReader [] i.text i.source).run = .error []) ∧
      ∃ g, compile (Source.Small.shopReader []) {} Source.Small.threeTexts = .ok g := by
  have hg : compile (Source.Small.shopReader []) {} Source.Small.threeTexts =
      compileForest {} [.blank none, ⟨some "shop.dm", [], Source.Small.shop.flatMap (·.blocks)⟩] := rfl
  exact ⟨⟨⟨"?", some "odd.dm"⟩, by decide, by decide, rfl⟩, _,
    hg.trans (Table.compileForest_eq_ok_iff.2 ⟨by decide, rfl⟩)⟩

end DomainModel
