import DomainModel.Group.Pass
import Mathlib.Data.List.Basic
/-!
# Pass — what a pass ends with and what it notes

A step of a visitor goes from a state to the next and puts notes behind those there are (`NotingM.Notes`).  Steps that do,
one after another or along a list, do again, so a pass through groups ends with what its steps come to, and its notes are
those on the members of the groups, one after the other (`NotingM.Notes.pass`).
-/
namespace DomainModel
namespace NotingM

variable {σ β α : Type}

/-- **A step that notes**: it goes from a state to the next, and notes what the state gives. -/
def Notes (x : NotingM σ β Unit) (next : σ → σ) (noted : σ → List β) : Prop :=
  ∀ s l, x.run ⟨s, l⟩ = ((), ⟨next s, l ++ noted s⟩)

theorem notes_pure : Notes (pure () : NotingM σ β Unit) id fun _ => [] := fun s l => by
  rw [List.append_nil]
  rfl

theorem notes_step (f : σ → σ) : Notes (step f : NotingM σ β Unit) f fun _ => [] := fun s l => by
  rw [List.append_nil]
  rfl

theorem notes_note (f : σ → β) : Notes (note f) id fun s => [f s] := fun _ _ => rfl

variable {x y : NotingM σ β Unit} {next after : σ → σ} {noted behind : σ → List β}

theorem Notes.congr {others : σ → List β} (hx : Notes x next noted) (h : ∀ s, noted s = others s) :
    Notes x next others := by
  rwa [show noted = others from funext h] at hx

/-- **One step after another notes one list after the other.** -/
theorem Notes.seq (hx : Notes x next noted) (hy : Notes y after behind) :
    Notes (do x; y) (fun s => after (next s)) fun s => noted s ++ behind (next s) := by
  intro s l
  rw [StateT.run_bind, hx s l, ← List.append_assoc]
  exact hy (next s) (l ++ noted s)

/-- What is noted between two steps that note nothing. -/
theorem Notes.between (enter : σ → σ) (hx : Notes x next noted) (leave : σ → σ) :
    Notes (do step enter; x; step leave) (fun s => leave (next (enter s))) fun s => noted (enter s) :=
  ((notes_step enter).seq (hx.seq (notes_step leave))).congr fun s => by rw [List.nil_append, List.append_nil]

theorem Notes.look {f : σ → NotingM σ β Unit} {next : σ → σ → σ} {noted : σ → σ → List β}
    (h : ∀ s, Notes (f s) (next s) (noted s)) : Notes (do f (← look)) (fun s => next s s) fun s => noted s s :=
  fun s l => h s s l

/-- **Steps along a list note what each of them notes**, if what one notes does not hang on those before it. -/
theorem Notes.forM {f : α → NotingM σ β Unit} {next : σ → α → σ} {noted : α → σ → List β} : ∀ {as : List α},
    (∀ a ∈ as, Notes (f a) (next · a) (noted a)) → (∀ a ∈ as, ∀ b ∈ as, ∀ s, noted b (next s a) = noted b s) →
      Notes (forM as f) (fun s => as.foldl next s) fun s => as.flatMap (noted · s)
  | [], _, _ => notes_pure
  | a :: as, h, hkeep => by
    obtain ⟨ha, has⟩ := List.forall_mem_cons.1 h
    have hrest := Notes.forM has fun b hb c hc => hkeep b (List.mem_cons_of_mem _ hb) c (List.mem_cons_of_mem _ hc)
    have hsame : ∀ s, as.flatMap (noted · (next s a)) = as.flatMap (noted · s) := fun s =>
      List.flatMap_congr fun b hb => hkeep a List.mem_cons_self b (List.mem_cons_of_mem _ hb) s
    rw [List.forM_cons]
    exact (ha.seq hrest).congr fun s => congrArg (noted a s ++ ·) (hsame s)

variable {enter : Scope → NotingM σ β Unit} {v : Source.Visitor (NotingM σ β)} {visit : σ → Source.Member × Scope → σ}
  {noted : Source.Member × Scope → List β} {groups : List Group}

/-- **A pass ends with what visiting the members comes to**, and notes what is noted on them. -/
theorem Notes.pass (h : ∀ g ∈ Group.all groups, ∀ x ∈ g.members,
      Notes (do enter x.2; v.visitMember x.1) (visit · x) fun _ => noted x) :
    Notes (Group.pass enter v groups) (fun s => (Group.all groups).foldl (fun s g => g.members.foldl visit s) s)
      fun _ => (Group.all groups).flatMap fun g => g.members.flatMap noted :=
  Notes.forM (fun g hg => Notes.forM (h g hg) fun _ _ _ _ _ => rfl) fun _ _ _ _ _ => rfl

end NotingM
end DomainModel
