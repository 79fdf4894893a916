import DomainModel.Proofs.Text.Written
import DomainModel.Writer.Pieces
/-!
# Indented — what steps of writing come to

The characters that steps of writing emit, each with the level of the moment, make up the raw text.  What is written is
the raw text cut at its line ends, with each line that is not empty behind the margin of its first character
(`Writer.output_of_run`).  It does not matter in how many pieces a text is emitted, nor whether it is written character
by character or line by line (`Writer.emitPieces_eq`).
-/
namespace DomainModel
namespace Writer

variable {w : Writer}

/-! ## Piece by piece -/

theorem openLine_eq (w : Writer) : w.openLine = ⟨w.output ++ w.margin, w.level, false⟩ := by
  obtain ⟨output, level, atLineStart⟩ := w
  cases atLineStart with
  | true => rfl
  | false => simp [openLine, margin]

theorem emitPiece_zero (w : Writer) {cs : List Char} (h : '\n' ∉ cs) : w.emitPiece (cs, 0) = cs.foldl emitChar w := by
  cases cs with
  | nil => rfl
  | cons c cs =>
    obtain ⟨hc, hcs⟩ := not_or.1 (mt List.mem_cons.2 h)
    have hfirst : w.emitChar c = ⟨(w.output ++ w.margin).push c, w.level, false⟩ := if_neg (Ne.symm hc)
    have hpiece : w.emitPiece (c :: cs, 0) =
        ⟨w.openLine.output ++ String.ofList (c :: cs), w.openLine.level, w.openLine.atLineStart⟩ := rfl
    rw [List.foldl_cons, hfirst, foldl_emitChar cs _ _ hcs, hpiece, openLine_eq]
    congr 1
    apply String.toList_inj.1
    simp

theorem emitPiece_succ (w : Writer) {cs : List Char} (h : '\n' ∉ cs) (i : Nat) :
    w.emitPiece (cs, i + 1) = ('\n' :: cs).foldl emitChar w := by
  rw [List.foldl_cons, ← newline_eq, ← emitPiece_zero w.newline h]
  rfl

theorem foldl_emitPiece : ∀ (pieces : List (List Char)) (w : Writer) (i : Nat), (∀ cs ∈ pieces, '\n' ∉ cs) →
    (pieces.zipIdx (i + 1)).foldl emitPiece w = (pieces.flatMap ('\n' :: ·)).foldl emitChar w
  | [], _, _, _ => rfl
  | cs :: pieces, w, i, h => by
    obtain ⟨hcs, hpieces⟩ := List.forall_mem_cons.1 h
    rw [List.zipIdx_cons, List.foldl_cons, emitPiece_succ w hcs, foldl_emitPiece pieces _ _ hpieces, List.flatMap_cons,
      List.foldl_append]

/-- **A text written line by line is the text written character by character.** -/
theorem emitPieces_eq (w : Writer) (text : String) : w.emitPieces text = w.emit text := by
  obtain ⟨hfirst, hrest⟩ := List.forall_mem_cons.1 (Text.not_mem_cut '\n' text.toList)
  have hjoin := Text.join_cut '\n' text.toList
  rw [emit, ← hjoin, emitPieces, Text.pieces, List.zipIdx_cons, List.foldl_cons, emitPiece_zero w hfirst,
    foldl_emitPiece _ _ _ hrest, Text.join, List.foldl_append]

theorem foldl_emit : ∀ (pieces : List String) (w : Writer), pieces.foldl emit w = w.emit (String.join pieces)
  | [], w => rfl
  | text :: pieces, w => by rw [List.foldl_cons, foldl_emit pieces, String.join_cons, emit_append]

/-! ## The raw text -/

def atLevel (w : Writer) (level : Nat) : Writer := { w with level }

/-- Emit a character at a level. -/
def put (w : Writer) (m : Nat × Char) : Writer := (w.atLevel m.1).emitChar m.2

mutual

/-- The level that a step leaves. -/
def levelAfter (level : Nat) : Step → Nat
  | .indent => level + 1
  | .outdent => level - 1
  | .indented body => levelAfterAll (level + 1) body - 1
  | .emit _ | .emitLine _ | .newline | .write _ => level

def levelAfterAll (level : Nat) : List Step → Nat
  | [] => level
  | s :: steps => levelAfterAll (levelAfter level s) steps

end

mutual

/-- **The characters that a step emits**, from a level on, each with its level. -/
def rawOf (level : Nat) : Step → List (Nat × Char)
  | .indent | .outdent => []
  | .emit text => text.toList.map (level, ·)
  | .emitLine text => (text.toList ++ ['\n']).map (level, ·)
  | .newline => [(level, '\n')]
  | .write pieces => (String.join pieces).toList.map (level, ·)
  | .indented body => raw (level + 1) body

/-- **The raw text of steps.** -/
def raw (level : Nat) : List Step → List (Nat × Char)
  | [] => []
  | s :: steps => rawOf level s ++ raw (levelAfter level s) steps

end

theorem foldl_put_map : ∀ (cs : List Char) (w : Writer), (cs.map (w.level, ·)).foldl put w = cs.foldl emitChar w
  | [], _ => rfl
  | c :: cs, w => by
    have hlevel := foldl_put_map cs (w.emitChar c)
    rw [level_emitChar] at hlevel
    exact hlevel

/-- A level is read where a character has its own. -/
theorem atLevel_foldl_put (ms : List (Nat × Char)) (w : Writer) (a b : Nat) :
    (ms.foldl put (w.atLevel a)).atLevel b = (ms.foldl put w).atLevel b := by
  cases ms <;> rfl

theorem level_foldl_emitChar : ∀ (cs : List Char) (w : Writer), (cs.foldl emitChar w).level = w.level
  | [], _ => rfl
  | c :: cs, w => by rw [List.foldl_cons, level_foldl_emitChar cs, level_emitChar]

theorem foldl_emitChar_eq (cs : List Char) (w : Writer) :
    cs.foldl emitChar w = ((cs.map (w.level, ·)).foldl put w).atLevel w.level := by
  rw [foldl_put_map, ← level_foldl_emitChar cs w]
  rfl

mutual

/-- **A step puts its raw text** and leaves its level. -/
theorem step_eq (w : Writer) : ∀ s : Step, w.step s = ((rawOf w.level s).foldl put w).atLevel (levelAfter w.level s)
  | .indent | .outdent => rfl
  | .emit text => foldl_emitChar_eq text.toList w
  | .emitLine text => by
    have hline : w.step (.emitLine text) = (text.toList ++ ['\n']).foldl emitChar w := by
      rw [List.foldl_append]
      rfl
    exact hline.trans (foldl_emitChar_eq _ w)
  | .newline => rfl
  | .write pieces => (foldl_emit pieces w).trans (foldl_emitChar_eq _ w)
  | .indented body => by
    have hbody := run_eq w.indent body
    rw [step, indented, hbody]
    exact atLevel_foldl_put (raw (w.level + 1) body) w (w.level + 1) (levelAfterAll (w.level + 1) body - 1)

/-- **Steps put their raw text.** -/
theorem run_eq (w : Writer) : ∀ steps : List Step,
    w.run steps = ((raw w.level steps).foldl put w).atLevel (levelAfterAll w.level steps)
  | [] => rfl
  | s :: steps => by
    have hlater := run_eq (w.step s) steps
    have hlevel : (w.step s).level = levelAfter w.level s := by rw [step_eq w s]; rfl
    rw [run, hlater, hlevel, raw, levelAfterAll, List.foldl_append, step_eq w s, atLevel_foldl_put]

end

/-! ## Lines behind their margins -/

/-- **A line as it is written**: behind four blanks for each level of its first character, or empty. -/
def indentedLine : List (Nat × Char) → List Char
  | [] => []
  | (level, c) :: ms => List.replicate (4 * level) ' ' ++ c :: ms.map Prod.snd

/-- The lines of a text, from where a writer stands on; what is on the line already has had its margin. -/
def laidLines (atLineStart : Bool) (ms : List (Nat × Char)) : List (List Char) :=
  match ms.splitOnP fun m => m.2 == '\n' with
  | [] => []
  | l :: ls => (if atLineStart then indentedLine l else l.map Prod.snd) :: ls.map indentedLine

theorem laidLines_true (ms : List (Nat × Char)) :
    laidLines true ms = (ms.splitOnP fun m => m.2 == '\n').map indentedLine := by
  unfold laidLines
  cases ms.splitOnP fun m => m.2 == '\n' <;> rfl

theorem laidLines_ne_nil (atLineStart : Bool) (ms : List (Nat × Char)) : laidLines atLineStart ms ≠ [] := by
  unfold laidLines
  cases h : ms.splitOnP fun m => m.2 == '\n' with
  | nil => exact absurd h (List.splitOnP_ne_nil _ _)
  | cons => exact List.cons_ne_nil _ _

theorem laidLines_break (atLineStart : Bool) (level : Nat) (ms : List (Nat × Char)) :
    laidLines atLineStart ((level, '\n') :: ms) = [] :: laidLines true ms := by
  rw [laidLines_true, laidLines, List.splitOnP_cons_eq_if_modifyHead]
  cases atLineStart <;> rfl

theorem laidLines_char (atLineStart : Bool) {level : Nat} {c : Char} (hc : c ≠ '\n') (ms : List (Nat × Char)) :
    laidLines atLineStart ((level, c) :: ms) =
      (laidLines false ms).modifyHead (((if atLineStart then List.replicate (4 * level) ' ' else []) ++ [c]) ++ ·) := by
  have hbreak : (c == '\n') = false := beq_eq_false_iff_ne.2 hc
  unfold laidLines
  rw [List.splitOnP_cons_eq_if_modifyHead, hbreak]
  cases ms.splitOnP fun m => m.2 == '\n' with
  | nil => rfl
  | cons l ls => cases atLineStart <;> simp [indentedLine]

theorem intercalate_nil_cons {sep : List Char} : ∀ {ls : List (List Char)}, ls ≠ [] →
    sep.intercalate ([] :: ls) = sep ++ sep.intercalate ls
  | [], h => absurd rfl h
  | l :: ls, _ => by rw [List.intercalate_cons_cons, List.nil_append]

theorem intercalate_modifyHead (sep before : List Char) : ∀ {ls : List (List Char)}, ls ≠ [] →
    sep.intercalate (ls.modifyHead (before ++ ·)) = before ++ sep.intercalate ls
  | [], h => absurd rfl h
  | [l], _ => by simp
  | l :: k :: ls, _ => by simp [List.intercalate_cons_cons]

/-- **Putting characters writes their lines** behind what was written before. -/
theorem output_foldl_put : ∀ (ms : List (Nat × Char)) (w : Writer),
    (ms.foldl put w).output.toList = w.output.toList ++ ['\n'].intercalate (laidLines w.atLineStart ms)
  | [], w => by cases h : w.atLineStart <;> simp [laidLines, indentedLine]
  | (level, c) :: ms, w => by
    rw [List.foldl_cons, output_foldl_put ms]
    by_cases hc : c = '\n'
    · subst hc
      have hput : w.put (level, '\n') = ⟨w.output.push '\n', level, true⟩ := rfl
      rw [hput, laidLines_break, intercalate_nil_cons (laidLines_ne_nil true ms), String.toList_push, List.append_assoc]
    · have hput : w.put (level, c) = ⟨(w.output ++ (w.atLevel level).margin).push c, level, false⟩ := if_neg hc
      have hmargin : (w.atLevel level).margin.toList =
          if w.atLineStart then List.replicate (4 * level) ' ' else [] := by
        cases h : w.atLineStart <;> simp [margin, atLevel, indentWidth, h, Nat.mul_comm]
      rw [hput, laidLines_char _ hc, ← hmargin, intercalate_modifyHead _ _ (laidLines_ne_nil false ms),
        String.toList_push, String.toList_append]
      simp only [List.append_assoc]

/-- **What steps of writing come to.**  From the start they write their raw text cut at its line ends, each line behind
four blanks for each level at which its first character is emitted, and empty lines as they are; and they leave the
level that they come to.  A text in any number of pieces leaves any writer as the joined text does, and a writer that
cuts a text at its line ends writes the same. -/
theorem output_of_run (steps : List Step) :
    (start.run steps).output.toList =
      ['\n'].intercalate (((raw 0 steps).splitOnP fun m => m.2 == '\n').map indentedLine) ∧
    (start.run steps).level = levelAfterAll 0 steps ∧
    (∀ (w : Writer) (pieces : List String), pieces.foldl emit w = w.emit (String.join pieces)) ∧
    ∀ (w : Writer) (text : String), w.emitPieces text = w.emit text := by
  have hrun : start.run steps = ((raw 0 steps).foldl put start).atLevel (levelAfterAll 0 steps) := run_eq start steps
  refine ⟨?_, by rw [hrun]; rfl, fun w pieces => foldl_emit pieces w, emitPieces_eq⟩
  have hput := output_foldl_put (raw 0 steps) start
  rw [show start.atLineStart = true from rfl, laidLines_true] at hput
  rw [hrun]
  exact hput

/-- A line that is begun at one level and ended at another stands behind the margin of the first. -/
example : (start.run [.indented [.emit "a\n\nb", .outdent, .emit "c"], .newline, .emit "d"]).output =
    "    a\n\n    bc\nd" := by decide

end Writer
end DomainModel
