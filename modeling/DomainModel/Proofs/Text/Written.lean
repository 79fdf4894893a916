import DomainModel.Proofs.Text.Runs
import DomainModel.Writer
/-!
# Written — lines in a text

A writer at the start of a line writes a text that does not break as a line of its own, behind the blanks of its level
(`Writer.emitLine_start`).  No such text starts with a blank, so the lines and their levels are known from what is
written (`Writer.lines_injective`).
-/
namespace DomainModel

/-- **A text that stands on a line of its own**: it does not break, and it starts with a letter. -/
structure Text.IsLine (text : String) : Prop where
  unbroken : '\n' ∉ text.toList
  letter : ∃ c cs, text.toList = c :: cs ∧ c.isAlpha = true

namespace Writer

open Text (IsLine Stops append_inj_of_all)

/-- A text on a line of its own, at a level. -/
def line (l : Nat × String) : String := String.ofList (List.replicate (l.1 * indentWidth) ' ') ++ l.2 ++ "\n"

def lines : List (Nat × String) → String
  | [] => ""
  | l :: ls => line l ++ lines ls

theorem lines_append : ∀ ls ks : List (Nat × String), lines (ls ++ ks) = lines ls ++ lines ks
  | [], ks => (String.empty_append).symm
  | l :: ls, ks => by rw [List.cons_append, lines, lines_append ls ks, lines, String.append_assoc]

theorem foldl_emitChar : ∀ (cs : List Char) (output : String) (level : Nat), '\n' ∉ cs →
    cs.foldl emitChar ⟨output, level, false⟩ = ⟨output ++ String.ofList cs, level, false⟩
  | [], output, level, _ => by simp
  | c :: cs, output, level, h => by
    obtain ⟨hc, hcs⟩ := not_or.1 (mt List.mem_cons.2 h)
    have hstep : emitChar ⟨output, level, false⟩ c = ⟨output.push c, level, false⟩ := by
      simp [emitChar, margin, Ne.symm hc]
    rw [List.foldl_cons, hstep, foldl_emitChar cs _ _ hcs]
    congr 1
    apply String.toList_inj.1
    simp

/-- **At the start of a line a text is written as a line of its own.** -/
theorem emitLine_start {text : String} (h : IsLine text) (output : String) (level : Nat) :
    emitLine ⟨output, level, true⟩ text = ⟨output ++ line (level, text), level, true⟩ := by
  obtain ⟨c, cs, htext, -⟩ := h.letter
  have hbreak := h.unbroken
  rw [htext] at hbreak
  obtain ⟨hc, hcs⟩ := not_or.1 (mt List.mem_cons.2 hbreak)
  have hfirst : emitChar ⟨output, level, true⟩ c =
      ⟨(output ++ String.ofList (List.replicate (level * indentWidth) ' ')).push c, level, false⟩ := by
    simp [emitChar, margin, Ne.symm hc]
  rw [emitLine, emit, htext, List.foldl_cons, hfirst, foldl_emitChar cs _ _ hcs, newline]
  congr 1
  apply String.toList_inj.1
  simp [line, String.toList_append, htext]

theorem foldl_emitLine (level : Nat) : ∀ (texts : List String) (output : String), (∀ text ∈ texts, IsLine text) →
    texts.foldl emitLine ⟨output, level, true⟩ = ⟨output ++ lines (texts.map fun text => (level, text)), level, true⟩
  | [], output, _ => by simp [lines]
  | text :: texts, output, h => by
    rw [List.foldl_cons, emitLine_start (h _ List.mem_cons_self),
      foldl_emitLine level texts _ fun t ht => h t (List.mem_cons_of_mem _ ht), List.map_cons, lines,
      String.append_assoc]

/-- **The lines and their levels are known from the text.** -/
theorem lines_injective : ∀ {ls ks : List (Nat × String)}, (∀ l ∈ ls, IsLine l.2) → (∀ k ∈ ks, IsLine k.2) →
    lines ls = lines ks → ls = ks
  | [], [], _, _, _ => rfl
  | [], k :: ks, _, _, h => by
    have hlist := congrArg String.toList h
    simp [lines, line, String.toList_append] at hlist
  | l :: ls, [], _, _, h => by
    have hlist := congrArg String.toList h
    simp [lines, line, String.toList_append] at hlist
  | (a, s) :: ls, (b, t) :: ks, hls, hks, h => by
    have hs : IsLine s := hls _ List.mem_cons_self
    have ht : IsLine t := hks _ List.mem_cons_self
    have hlist : List.replicate (a * indentWidth) ' ' ++ (s.toList ++ ('\n' :: (lines ls).toList)) =
        List.replicate (b * indentWidth) ' ' ++ (t.toList ++ ('\n' :: (lines ks).toList)) := by
      simpa [lines, line, String.toList_append] using congrArg String.toList h
    have hblank : ∀ n, ∀ c ∈ List.replicate n ' ', (c == ' ') = true := by
      intro n c hc
      rw [List.eq_of_mem_replicate hc]
      rfl
    have hletter : ∀ {text : String}, IsLine text → ∀ rest, Stops (· == ' ') (text.toList ++ rest) := by
      rintro text htext rest
      obtain ⟨c, cs, hcs, hc⟩ := htext.letter
      rw [hcs, List.cons_append, Text.stops_cons, beq_eq_false_iff_ne]
      rintro rfl
      cases hc
    -- The margin ends at the first letter, and the text where the line does.
    obtain ⟨hmargin, hrest⟩ := append_inj_of_all (hblank _) (hblank _) (hletter hs _) (hletter ht _) hlist
    have hunbroken : ∀ {text : String}, IsLine text → ∀ c ∈ text.toList, (c != '\n') = true := by
      intro text htext c hc
      rw [bne_iff_ne]
      rintro rfl
      exact htext.unbroken hc
    obtain ⟨htext, hend⟩ := append_inj_of_all (hunbroken hs) (hunbroken ht) (by simp) (by simp) hrest
    have hlevel : a * indentWidth = b * indentWidth := by simpa using congrArg List.length hmargin
    have hab : a = b := Nat.eq_of_mul_eq_mul_right (by decide) hlevel
    have hls := lines_injective (fun l hl => hls l (List.mem_cons_of_mem _ hl))
      (fun k hk => hks k (List.mem_cons_of_mem _ hk)) (String.toList_inj.1 (List.cons.inj hend).2)
    rw [hab, String.toList_inj.1 htext, hls]

end Writer

end DomainModel
