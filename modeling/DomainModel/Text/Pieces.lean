import DomainModel.Text.Blank
/-!
# Pieces — a text cut at separators

`cut` gives the first piece and the pieces after it, one more than there are separators; `words` keeps the pieces
between blanks that hold something.  Cutting and joining undo each other (`join_cut`, `cut_join`).
-/
namespace DomainModel
namespace Text

/-- **Cut at every character the test accepts**: the piece before the first such character, and the pieces after. -/
def cut (p : Char → Bool) : List Char → List Char × List (List Char)
  | [] => ([], [])
  | c :: cs =>
    let (w, ws) := cut p cs
    if p c then ([], w :: ws) else (c :: w, ws)

/-- All the pieces in order, never none. -/
def pieces (p : Char → Bool) (cs : List Char) : List (List Char) :=
  (cut p cs).1 :: (cut p cs).2

/-- The words of a line: its longest runs without a blank. -/
def words (cs : List Char) : List (List Char) :=
  (pieces isBlank cs).filter fun w => !w.isEmpty

def join (sep : Char) (first : List Char) (rest : List (List Char)) : List Char :=
  first ++ rest.flatMap (sep :: ·)

@[simp] theorem join_nil (sep : Char) (w : List Char) : join sep w [] = w := by simp [join]

@[simp] theorem join_cons (sep : Char) (w v : List Char) (ws : List (List Char)) :
    join sep w (v :: ws) = w ++ sep :: join sep v ws := by simp [join]

/-- **Nothing is lost**: the pieces joined again are the text. -/
theorem join_cut (sep : Char) : ∀ cs : List Char, join sep (cut (· == sep) cs).1 (cut (· == sep) cs).2 = cs
  | [] => rfl
  | c :: cs => by
    have ih := join_cut sep cs
    by_cases h : c = sep
    · subst h; simpa [cut] using ih
    · have h' : (c == sep) = false := by simpa using h
      simp only [cut, h', Bool.false_eq_true, if_false]
      simpa [join] using ih

theorem not_mem_cut (sep : Char) : ∀ cs : List Char, ∀ w ∈ pieces (· == sep) cs, sep ∉ w
  | [] => by simp [pieces, cut]
  | c :: cs => by
    have ih := not_mem_cut sep cs
    simp only [pieces, List.mem_cons, forall_eq_or_imp] at ih
    by_cases h : c = sep
    · subst h; simpa [pieces, cut] using ih
    · have h' : (c == sep) = false := by simpa using h
      simp only [pieces, cut, h', Bool.false_eq_true, if_false, List.mem_cons, forall_eq_or_imp]
      exact ⟨by simpa [Ne.symm h] using ih.1, ih.2⟩

theorem cut_append (sep : Char) : ∀ (w cs : List Char), sep ∉ w →
    cut (· == sep) (w ++ cs) = (w ++ (cut (· == sep) cs).1, (cut (· == sep) cs).2)
  | [], _, _ => rfl
  | c :: w, cs, h => by
    simp only [List.mem_cons, not_or] at h
    have h' : (c == sep) = false := by simpa using Ne.symm h.1
    simp only [List.cons_append, cut, h', Bool.false_eq_true, if_false, cut_append sep w cs h.2]

/-- **Pieces without a separator come back** from the joined text. -/
theorem cut_join (sep : Char) : ∀ (ws : List (List Char)) (w : List Char), sep ∉ w → (∀ v ∈ ws, sep ∉ v) →
    cut (· == sep) (join sep w ws) = (w, ws)
  | [], w, hw, _ => by
    have := cut_append sep w [] hw
    simpa [cut] using this
  | v :: ws, w, hw, hs => by
    rw [join_cons, cut_append sep w _ hw]
    have ih := cut_join sep ws v (hs v (by simp)) fun u hu => hs u (by simp [hu])
    simp [cut, ih]

end Text
end DomainModel
