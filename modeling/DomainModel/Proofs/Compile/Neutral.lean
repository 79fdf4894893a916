import DomainModel.Compile
import DomainModel.Group.Index
import DomainModel.Proofs.Source.Place
/-!
# Neutral — units that declare nothing

Blank inputs, and inputs that are read as trees without blocks, may stand anywhere among others: what the inputs compile
to is the same with them as without (`compile_padded`).  No scope is entered below such a tree, so its imports are no one's.
The reader is asked for the inputs that are not blank, in order, and for nothing else.
-/
namespace DomainModel

open Source (Tree)

/-! ## Lists with further entries -/

/-- **A list with further entries put in**, each accepted by a test. -/
inductive Padded {α : Type} (P : α → Prop) : List α → List α → Prop
  | nil : Padded P [] []
  | kept (x : α) {xs ys : List α} : Padded P xs ys → Padded P (x :: xs) (x :: ys)
  | put {x : α} {xs ys : List α} : P x → Padded P xs ys → Padded P xs (x :: ys)

namespace Padded

variable {α β γ : Type} {P : α → Prop} {Q : β → Prop} {xs ys : List α}

theorem refl : ∀ xs : List α, Padded P xs xs
  | [] => .nil
  | x :: xs => .kept x (refl xs)

theorem flatMap_eq {f : α → List β} (h : Padded P xs ys) (hf : ∀ x, P x → f x = []) : ys.flatMap f = xs.flatMap f := by
  induction h with
  | nil => rfl
  | kept x _ ih => rw [List.flatMap_cons, List.flatMap_cons, ih]
  | put hx _ ih => rw [List.flatMap_cons, hf _ hx, ih, List.nil_append]

theorem foldl_eq {step : γ → α → γ} (h : Padded P xs ys) (hstep : ∀ c x, P x → step c x = c) (c : γ) :
    ys.foldl step c = xs.foldl step c := by
  induction h generalizing c with
  | nil => rfl
  | kept x _ ih => exact ih _
  | put hx _ ih => rw [List.foldl_cons, hstep _ _ hx, ih]

theorem filterMap {f : α → Option β} (h : Padded P xs ys) (hf : ∀ x y, P x → f x = some y → Q y) :
    Padded Q (xs.filterMap f) (ys.filterMap f) := by
  induction h with
  | nil => exact .nil
  | kept x _ ih =>
    rw [List.filterMap_cons, List.filterMap_cons]
    cases f x with
    | none => exact ih
    | some y => exact .kept y ih
  | @put x _ _ hx _ ih =>
    rw [List.filterMap_cons]
    cases hy : f x with
    | none => exact ih
    | some y => exact .put (hf x y hx hy) ih

/-- **Entries that are gone through without effect change nothing** for one who does not look at what they give. -/
theorem map_mapM_eq {m : Type → Type} [Monad m] [LawfulMonad m] {f : α → m β} (h : Padded P xs ys)
    (hf : ∀ x, P x → ∃ y, f x = pure y ∧ Q y) (k : List β → γ) (hk : ∀ as bs, Padded Q as bs → k bs = k as) :
    k <$> ys.mapM f = k <$> xs.mapM f := by
  induction h generalizing k with
  | nil => rfl
  | kept x _ ih =>
    simp only [List.mapM_cons, map_bind, bind_pure_comp, Functor.map_map]
    refine congrArg (f x >>= ·) (funext fun y => ?_)
    exact ih (fun as => k (y :: as)) fun as bs h => hk _ _ (.kept y h)
  | @put x _ _ hx _ ih =>
    obtain ⟨y, hy, hq⟩ := hf x hx
    -- To look at the result of the others is to look at it behind that of the entry put in.
    have hskip : (fun as => k (y :: as)) = k := funext fun as => hk as (y :: as) (.put hq (refl as))
    simp only [List.mapM_cons, hy, pure_bind, bind_pure_comp, Functor.map_map, hskip]
    exact ih k hk

end Padded

variable {m : Type → Type} [Monad m] [LawfulMonad m] {reader : Reader m} {options : CompileOptions}

/-! ## Trees without blocks -/

/-- The index of blocks has no place for a tree without blocks, nor for what it imports. -/
theorem FragmentIndex.ofForest_of_padded {forest padded : List Tree} (h : Padded (·.blocks = []) forest padded) :
    ofForest padded = ofForest forest :=
  h.foldl_eq (fun x t ht => by rw [ht]; rfl) empty

theorem fragmentsOf_of_padded {forest padded : List Tree} (h : Padded (·.blocks = []) forest padded) :
    fragmentsOf padded = fragmentsOf forest :=
  h.flatMap_eq fun t ht => by rw [ht]; rfl

theorem compileForest_of_padded {forest padded : List Tree} (h : Padded (·.blocks = []) forest padded) :
    compileForest options padded = compileForest options forest := by
  have hgroups : Group.merge padded = Group.merge forest := by
    rw [Group.merge, fragmentsOf_of_padded h]
    rfl
  simp only [compileForest, observe, graphOf, hgroups]

/-! ## Inputs that declare nothing -/

def IsBare (r : Except (List ReadFailure) Tree) : Prop := ∃ t, r = .ok t ∧ t.blocks = []

theorem compileReadings_of_padded {readings padded : List (Except (List ReadFailure) Tree)}
    (h : Padded IsBare readings padded) : compileReadings options padded = compileReadings options readings := by
  have hobserve : readingObservations padded = readingObservations readings :=
    h.flatMap_eq fun r ⟨t, hr, _⟩ => by rw [hr]
  have htrees : Padded (·.blocks = []) (readingTrees readings) (readingTrees padded) := by
    refine h.filterMap ?_
    rintro r t ⟨t', rfl, ht'⟩ ht
    cases ht
    exact ht'
  rw [compileReadings, compileReadings, hobserve, compileForest_of_padded htrees]

namespace Input

/-- **An input declares nothing**: it is blank, or the reader reads a tree without blocks in it, and does nothing else. -/
def DeclaresNothing (reader : Reader m) (i : Input) : Prop :=
  i.isBlank = true ∨ ∃ t, reader i.text i.source = pure (.ok t) ∧ t.blocks = []

omit [LawfulMonad m] in
theorem read_of_isBlank {i : Input} (h : i.isBlank = true) : i.read reader = pure (.ok (.blank i.source)) := by
  rw [read, if_pos h]

theorem read_of_not_isBlank {i : Input} (h : ¬ i.isBlank = true) :
    i.read reader = Except.mapError (·.map (·.within i.source)) <$> reader i.text i.source := by
  rw [read, if_neg h, map_eq_pure_bind]
  refine congrArg _ (funext fun r => ?_)
  cases r <;> rfl

theorem DeclaresNothing.read {i : Input} (h : i.DeclaresNothing reader) :
    ∃ r, i.read reader = pure r ∧ IsBare r := by
  by_cases hb : i.isBlank = true
  · exact ⟨_, read_of_isBlank hb, _, rfl, rfl⟩
  · obtain ⟨t, ht, hblocks⟩ := h.resolve_left hb
    exact ⟨.ok t, by rw [read_of_not_isBlank hb, ht, map_pure]; rfl, t, rfl, hblocks⟩

end Input

/-- **Inputs that declare nothing change nothing**, nor what the reader does. -/
theorem compileM_of_padded {inputs padded : List Input} (h : Padded (·.DeclaresNothing reader) inputs padded) :
    compileM reader options padded = compileM reader options inputs := by
  have hmap := h.map_mapM_eq (fun i hi => hi.read) (compileReadings options) fun _ _ => compileReadings_of_padded
  rwa [map_eq_pure_bind, map_eq_pure_bind] at hmap

theorem run_compileM (reader : Reader Id) (options : CompileOptions) (inputs : List Input) :
    (compileM reader options inputs).run = compile reader options inputs := by
  simp only [compileM, compile, Id.run_bind, Id.run_pure, List.idRun_mapM]
  rfl

/-! ## What the reader is asked -/

/-- **A reader that notes what it is asked**, behind what was noted before. -/
def Reader.noting (reader : Reader m) : Reader (StateT (List (String × Option String)) m) := fun text source => do
  modify (· ++ [(text, source)])
  reader text source

/-- What a reader is asked for inputs: for each that is not blank, in order. -/
def asked (inputs : List Input) : List (String × Option String) :=
  (inputs.filter fun i => !i.isBlank).map fun i => (i.text, i.source)

theorem asked_cons (i : Input) (inputs : List Input) : asked (i :: inputs) = asked [i] ++ asked inputs := by
  rw [asked, asked, asked, ← List.map_append, ← List.filter_append, List.singleton_append]

theorem run_noting (reader : Reader m) (text : String) (source : Option String)
    (calls : List (String × Option String)) :
    (reader.noting text source).run calls = (·, calls ++ [(text, source)]) <$> reader text source := by
  simp [Reader.noting]

theorem run_read_noting (reader : Reader m) (i : Input) (calls : List (String × Option String)) :
    (i.read reader.noting).run calls = (·, calls ++ asked [i]) <$> i.read reader := by
  by_cases hb : i.isBlank = true
  · simp [Input.read_of_isBlank hb, hb, asked]
  · simp [Input.read_of_not_isBlank hb, hb, asked, run_noting]

theorem run_mapM_read_noting (reader : Reader m) : ∀ (inputs : List Input) (calls : List (String × Option String)),
    (inputs.mapM (Input.read reader.noting)).run calls = (·, calls ++ asked inputs) <$> inputs.mapM (Input.read reader)
  | [], calls => by simp [asked]
  | i :: inputs, calls => by
    have ih := run_mapM_read_noting reader inputs
    simp [run_read_noting, ih, asked_cons i inputs, List.append_assoc]

/-- **Units that declare nothing change nothing.**  Wherever blank inputs and trees without blocks stand among others,
the result is the same: the graph, or the observations in order.  So it is for trees, and for their blocks in the order
in which they are merged; and for a reader with effects, which is asked for the inputs that are not blank. -/
theorem compile_padded (options : CompileOptions) :
    (∀ (reader : Reader Id) (inputs padded : List Input), Padded (·.DeclaresNothing reader) inputs padded →
      compile reader options padded = compile reader options inputs) ∧
    (∀ forest padded : List Tree, Padded (·.blocks = []) forest padded →
      FragmentIndex.ofForest padded = FragmentIndex.ofForest forest ∧
        compileForest options padded = compileForest options forest) ∧
    ∀ {m : Type → Type} [Monad m] [LawfulMonad m] (reader : Reader m) (inputs : List Input),
      (∀ padded, Padded (·.DeclaresNothing reader) inputs padded →
        compileM reader options padded = compileM reader options inputs) ∧
      ∀ calls, (compileM reader.noting options inputs).run calls =
        (·, calls ++ asked inputs) <$> compileM reader options inputs := by
  refine ⟨fun reader inputs padded h => ?_, fun forest padded h => ?_, fun reader inputs => ⟨fun padded h => ?_, ?_⟩⟩
  · rw [← run_compileM, ← run_compileM, compileM_of_padded h]
  · exact ⟨FragmentIndex.ofForest_of_padded h, compileForest_of_padded h⟩
  · exact compileM_of_padded h
  · intro calls
    simp [compileM, run_mapM_read_noting]

/-- A reader of the shop, of a unit that imports it and declares nothing, and of a value that derives from one of the
shop without an import. -/
def Source.Small.yardReader : Reader Id := fun text source =>
  if text = "shop" then .ok ⟨source, [], Small.shop.flatMap (·.blocks)⟩
  else if text = "import shop" then .ok ⟨source, [Small.shopName], []⟩
  else .ok ⟨source, [], [⟨.single ⟨"yard", by decide⟩, [], [.value
    { Small.label with name := ⟨"Berth", by decide⟩, base := some (Small.labelled .one) }]⟩]⟩

def Source.Small.yardTexts : List Input := [⟨"shop", none⟩, ⟨"yard", none⟩]

/-- The texts of shop and yard, with a blank one and an import that nothing stands below. -/
def Source.Small.paddedTexts : List Input :=
  [⟨" ", none⟩, ⟨"shop", none⟩, ⟨"import shop", none⟩, ⟨"yard", none⟩]

/-- **The imports of a unit that declares nothing are no one's.** -/
theorem compile_padded_imports :
    Padded (·.DeclaresNothing Source.Small.yardReader) Source.Small.yardTexts Source.Small.paddedTexts ∧
      compile Source.Small.yardReader {} Source.Small.paddedTexts =
        compile Source.Small.yardReader {} Source.Small.yardTexts ∧
      (observationsOf (compile Source.Small.yardReader {} Source.Small.yardTexts)).map (·.text) =
        ["The type or namespace 'Label' could not be found."] := by
  have h : Padded (·.DeclaresNothing Source.Small.yardReader) Source.Small.yardTexts Source.Small.paddedTexts :=
    .put (.inl (by decide)) (.kept _ (.put (.inr ⟨⟨none, [Source.Small.shopName], []⟩, rfl, rfl⟩) (.kept _ .nil)))
  exact ⟨h, (compile_padded {}).1 _ _ _ h, by decide⟩

end DomainModel
