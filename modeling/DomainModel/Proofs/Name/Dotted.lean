import DomainModel.Name.Segments
import DomainModel.Proofs.Text.Runs
/-!
# Dotted — which texts are chains

A text is read as a chain if it is made of tokens with single dots between them, and then it is the written form of the
chain.  A text that is refused is blank, or the first of its pieces that is no token is told
(`QualifiedName.reads_dotted`).
-/
namespace DomainModel
namespace Text

theorem pieces_eq_splitOn (sep : Char) : ∀ cs : List Char, pieces (· == sep) cs = cs.splitOn sep
  | [] => rfl
  | c :: cs => by
    have ih := pieces_eq_splitOn sep cs
    rw [List.splitOn, List.splitOnP_cons_eq_if_modifyHead, ← List.splitOn, ← ih]
    by_cases h : c = sep
    · simp [pieces, cut, h]
    · simp [pieces, cut, h]

theorem join_eq_intercalate (sep : Char) : ∀ (ws : List (List Char)) (w : List Char),
    join sep w ws = [sep].intercalate (w :: ws)
  | [], w => by simp
  | v :: ws, w => by simp [List.intercalate_cons_cons, join_eq_intercalate sep ws v]

theorem pieces_append_cons (sep : Char) {w : List Char} (cs : List Char) (hw : sep ∉ w) :
    pieces (· == sep) (w ++ sep :: cs) = w :: pieces (· == sep) cs := by
  rw [pieces, cut_append sep w _ hw]
  simp [cut, pieces]

def IsLetter (c : Char) : Prop := 'A' ≤ c ∧ c ≤ 'Z' ∨ 'a' ≤ c ∧ c ≤ 'z'

def IsDigit (c : Char) : Prop := '0' ≤ c ∧ c ≤ '9'

/-- **A token**: a letter, then letters and digits. -/
def IsToken : List Char → Prop
  | [] => False
  | c :: cs => IsLetter c ∧ ∀ d ∈ cs, IsLetter d ∨ IsDigit d

/-- **Tokens with single dots between them.** -/
inductive Dotted : List Char → Prop
  | token {w : List Char} : IsToken w → Dotted w
  | dot {w rest : List Char} : IsToken w → Dotted rest → Dotted (w ++ '.' :: rest)

theorem isAlpha_iff (c : Char) : c.isAlpha = true ↔ IsLetter c := by
  unfold Char.isAlpha Char.isUpper Char.isLower
  simp [IsLetter, Char.le_def]

theorem isAlphanum_iff (c : Char) : c.isAlphanum = true ↔ IsLetter c ∨ IsDigit c := by
  unfold Char.isAlphanum Char.isDigit
  rw [Bool.or_eq_true, isAlpha_iff]
  simp [IsDigit, Char.le_def]

theorem isToken_iff (text : String) : isToken text = true ↔ IsToken text.toList := by
  unfold isToken IsToken
  cases text.toList with
  | nil => simp
  | cons c cs => simp [isAlpha_iff, isAlphanum_iff]

theorem IsToken.dot_not_mem {w : List Char} (h : IsToken w) : '.' ∉ w := by
  have htext : isToken (String.ofList w) = true := (isToken_iff _).2 (by rwa [String.toList_ofList])
  have hdot := QualifiedName.dot_not_mem ⟨String.ofList w, htext⟩
  rwa [String.toList_ofList] at hdot

theorem dotted_join : ∀ (ws : List (List Char)) (w : List Char), (∀ v ∈ w :: ws, IsToken v) → Dotted (join '.' w ws)
  | [], w, h => by
    rw [join_nil]
    exact .token (h w List.mem_cons_self)
  | v :: ws, w, h => by
    obtain ⟨hw, hrest⟩ := List.forall_mem_cons.1 h
    rw [join_cons]
    exact .dot hw (dotted_join ws v hrest)

/-- **A text is dotted if the pieces between its dots are tokens.** -/
theorem dotted_iff {cs : List Char} : Dotted cs ↔ ∀ w ∈ pieces (· == '.') cs, IsToken w := by
  constructor
  · intro h
    induction h with
    | @token w hw =>
      -- Without a dot the text is its only piece.
      have hcut := cut_join '.' [] w hw.dot_not_mem (by simp)
      rw [join_nil] at hcut
      rw [pieces, hcut]
      simpa using hw
    | @dot w rest hw _ ih =>
      rw [pieces_append_cons '.' rest hw.dot_not_mem]
      exact List.forall_mem_cons.2 ⟨hw, ih⟩
  · intro h
    rw [← join_cut '.' cs]
    exact dotted_join _ _ h

/-- Going by the first entry: it is the one looked for, or it passes and the one looked for comes later. -/
theorem exists_split_cons_iff {α : Type} {P Q : α → Prop} {x : α} {xs : List α} :
    (∃ before y after, x :: xs = before ++ y :: after ∧ (∀ z ∈ before, P z) ∧ Q y) ↔
      Q x ∨ P x ∧ ∃ before y after, xs = before ++ y :: after ∧ (∀ z ∈ before, P z) ∧ Q y := by
  constructor
  · rintro ⟨before, y, after, hxs, hbefore, hy⟩
    cases before with
    | nil =>
      obtain ⟨rfl, rfl⟩ := List.cons.inj hxs
      exact .inl hy
    | cons z before =>
      obtain ⟨rfl, rfl⟩ := List.cons.inj hxs
      obtain ⟨hx, hbefore⟩ := List.forall_mem_cons.1 hbefore
      exact .inr ⟨hx, before, y, after, rfl, hbefore, hy⟩
  · rintro (hx | ⟨hx, before, y, after, rfl, hbefore, hy⟩)
    · exact ⟨[], x, xs, rfl, by simp, hx⟩
    · exact ⟨x :: before, y, after, rfl, List.forall_mem_cons.2 ⟨hx, hbefore⟩, hy⟩

end Text

open Text (Dotted IsToken pieces)

theorem Identifier.parse_eq_error_iff {text : String} {e : NameError} : parse text = .error e ↔
    ¬ IsToken text.toList ∧ e = if Text.isBlankText text then .empty else .invalid text := by
  rw [← Text.isToken_iff]
  unfold parse
  by_cases hblank : Text.isBlankText text = true
  · have htoken : isToken text ≠ true := fun h => by
      rw [isBlankText_of_isToken h] at hblank
      cases hblank
    simp [hblank, htoken, eq_comm]
  · by_cases htoken : isToken text = true <;> simp [hblank, htoken, eq_comm]

namespace QualifiedName

/-! ## Reading the pieces -/

def parsePiece (w : List Char) : Except NameError Identifier := Identifier.parse (String.ofList w)

theorem parsePiece_eq_ok_iff {w : List Char} {i : Identifier} : parsePiece w = .ok i ↔ i.text.toList = w := by
  rw [parsePiece, Identifier.parse_eq_ok_iff]
  exact ⟨fun h => by rw [h, String.toList_ofList], fun h => by rw [← h, String.ofList_toList]⟩

theorem parsePiece_eq_error_iff {w : List Char} {e : NameError} : parsePiece w = .error e ↔
    ¬ IsToken w ∧ e = if Text.isBlankText (String.ofList w) then .empty else .invalid (String.ofList w) := by
  rw [parsePiece, Identifier.parse_eq_error_iff, String.toList_ofList]

/-- **Pieces are read from the left, up to the first that is no token.** -/
theorem mapM_parsePiece_eq_error_iff {e : NameError} : ∀ {ws : List (List Char)}, ws.mapM parsePiece = .error e ↔
    ∃ before w after, ws = before ++ w :: after ∧ (∀ v ∈ before, IsToken v) ∧ parsePiece w = .error e
  | [] => by simp [pure, Except.pure]
  | w :: ws => by
    rw [Text.exists_split_cons_iff, ← mapM_parsePiece_eq_error_iff, List.mapM_cons]
    cases hw : parsePiece w with
    | error e' =>
      have htoken := (parsePiece_eq_error_iff.1 hw).1
      simp [htoken, bind, Except.bind]
    | ok i =>
      have htoken : IsToken w := by
        rw [← parsePiece_eq_ok_iff.1 hw]
        exact (Text.isToken_iff _).1 i.valid
      cases ws.mapM parsePiece <;> simp [htoken, bind, Except.bind, pure, Except.pure]

theorem map_segments_parse {text : String} (h : Text.isBlankText text = false) :
    (parse text).map segments = (pieces (· == '.') text.toList).mapM parsePiece := by
  rw [parse, h, pieces, List.mapM_cons]
  change Except.map segments (parsePiece _ >>= fun first => List.mapM parsePiece _ >>= _) = _
  cases parsePiece (Text.cut (· == '.') text.toList).1 with
  | error e => rfl
  | ok first => cases (Text.cut (· == '.') text.toList).2.mapM parsePiece <;> rfl

/-! ## Writing and comparing segment by segment -/

theorem foldl_writeSegment : ∀ (is : List Identifier) (text : String) (k : Nat),
    ((is.zipIdx (k + 1)).foldl writeSegment text).toList = Text.join '.' text.toList (is.map (·.text.toList))
  | [], text, k => by simp
  | i :: is, text, k => by
    rw [List.zipIdx_cons, List.foldl_cons, foldl_writeSegment is]
    simp [writeSegment, Text.join]

theorem written_eq (n : QualifiedName) : n.written = n.text := by
  have hfirst : writeSegment "" (n.first, 0) = n.first.text := by simp [writeSegment]
  rw [text, ← foldl_writeSegment n.rest n.first.text 0, String.ofList_toList, ← hfirst]
  rfl

/-- **The pieces of a text are the segments of the chain that is written so.** -/
theorem pieces_eq_iff {n : QualifiedName} {text : String} :
    pieces (· == '.') text.toList = n.segments.map (·.text.toList) ↔ n.text = text := by
  constructor
  · intro h
    obtain ⟨hfirst, hrest⟩ := List.cons.inj h
    have hjoin := Text.join_cut '.' text.toList
    rw [hfirst, hrest] at hjoin
    rw [QualifiedName.text, hjoin, String.ofList_toList]
  · rintro rfl
    rw [pieces, cut_text]
    rfl

theorem spells_iff {n : QualifiedName} {text : String} : n.spells text = true ↔ n.text = text := by
  have hid : String.toList ∘ String.ofList = id := funext fun _ => String.toList_ofList
  rw [← pieces_eq_iff, spells, beq_iff_eq]
  constructor
  · intro h
    have hlists := congrArg (List.map String.toList) h
    rwa [List.map_map, hid, List.map_id, List.map_map] at hlists
  · intro h
    rw [h]
    simp

theorem takePieces_iff : ∀ (is : List Identifier) (ws : List (List Char)),
    takePieces is ws = true ↔ ws = is.map (·.text.toList)
  | [], [] => by simp [takePieces]
  | [], _ :: _ => by simp [takePieces]
  | _ :: _, [] => by simp [takePieces]
  | i :: is, w :: ws => by
    have hword : String.ofList w = i.text ↔ w = i.text.toList :=
      ⟨fun h => by rw [← h, String.toList_ofList], fun h => by rw [h, String.ofList_toList]⟩
    simp [takePieces, hword, takePieces_iff is ws]

theorem takesPieces_iff {n : QualifiedName} {text : String} : n.takesPieces text = true ↔ n.text = text := by
  rw [takesPieces, takePieces_iff, pieces_eq_iff]

/-! ## The written form -/

theorem text_eq_intercalate (n : QualifiedName) : n.text = ".".intercalate (n.segments.map (·.text)) := by
  apply String.toList_inj.1
  rw [text, String.toList_ofList, Text.join_eq_intercalate, String.toList_intercalate, List.map_map]
  rfl

theorem text_join (a b : QualifiedName) : (a.join b).text = a.text ++ "." ++ b.text := by
  simp only [text_eq_intercalate, segments_join, List.map_append]
  exact String.intercalate_append_of_ne_nil (by simp [segments]) (by simp [segments])

theorem text_child (n : QualifiedName) (i : Identifier) : (n.child i).text = n.text ++ "." ++ i.text := by
  have hsingle : (single i).text = i.text := by simp [text_eq_intercalate]
  rw [child_eq_join, text_join, hsingle]

theorem ofSegments_eq_ok_iff {is : List Identifier} {n : QualifiedName} : ofSegments is = .ok n ↔ n.segments = is := by
  cases is with
  | nil => simp [ofSegments, segments]
  | cons i is =>
    constructor
    · intro h
      cases h
      rfl
    · rintro h
      exact congrArg Except.ok (QualifiedName.ext h.symm)

/-! ## What is read -/

theorem exists_segments : ∀ {ws : List (List Char)}, (∀ w ∈ ws, IsToken w) →
    ∃ is : List Identifier, is.map (·.text.toList) = ws
  | [], _ => ⟨[], rfl⟩
  | w :: ws, h => by
    obtain ⟨hw, hrest⟩ := List.forall_mem_cons.1 h
    obtain ⟨is, his⟩ := exists_segments hrest
    have hvalid : isToken (String.ofList w) = true := (Text.isToken_iff _).2 (by rwa [String.toList_ofList])
    exact ⟨⟨String.ofList w, hvalid⟩ :: is, by rw [List.map_cons, his, String.toList_ofList]⟩

theorem exists_text_iff {text : String} : (∃ n : QualifiedName, n.text = text) ↔ Dotted text.toList := by
  simp only [← pieces_eq_iff]
  rw [Text.dotted_iff]
  constructor
  · rintro ⟨n, hn⟩
    rw [hn]
    intro w hw
    obtain ⟨i, -, rfl⟩ := List.mem_map.1 hw
    exact (Text.isToken_iff _).1 i.valid
  · intro h
    obtain ⟨is, his⟩ := exists_segments h
    cases is with
    | nil => cases his
    | cons i is => exact ⟨⟨i, is⟩, his.symm⟩

/-- **A text that is refused is blank, or its first piece that is no token is told.** -/
theorem parse_eq_error_iff {text : String} {e : NameError} : parse text = .error e ↔
    if Text.isBlankText text then e = .empty
    else ∃ before w after, text.toList.splitOn '.' = before ++ w :: after ∧ (∀ v ∈ before, IsToken v) ∧
      parsePiece w = .error e := by
  by_cases hblank : Text.isBlankText text = true
  · simp [parse, hblank, eq_comm]
  · rw [Bool.not_eq_true] at hblank
    -- That it is refused can be told from the segments alone.
    have hmap : parse text = .error e ↔ (parse text).map segments = .error e := by
      cases parse text <;> simp [Except.map]
    rw [hmap, map_segments_parse hblank, mapM_parsePiece_eq_error_iff, Text.pieces_eq_splitOn]
    simp [hblank]

/-- **The chains are the texts of tokens with single dots between them.**  A text is read as the chain whose written form
it is, if it is one, and a chain is equal to that text alone; every chain, whether of given segments, extended or joined,
is read back from its segments with dots between them.  Of another text the reader tells that it is empty, if it is
blank, and else what reading its first piece that is no token tells. -/
theorem reads_dotted (text : String) :
    ((∃ n, parse text = .ok n) ↔ Dotted text.toList) ∧
    (∀ n, (parse text = .ok n ↔ n.text = text) ∧ (n.spells text = true ↔ n.text = text) ∧
      n.written = n.text ∧ n.takesPieces text = n.spells text ∧ n.text = ".".intercalate (n.segments.map (·.text))) ∧
    (∀ n, parse n.text = .ok n ∧ (∀ is, ofSegments is = .ok n ↔ n.segments = is) ∧
      (∀ i, parse (n.text ++ "." ++ i.text) = .ok (n.child i)) ∧
      ∀ m, parse (n.text ++ "." ++ m.text) = .ok (n.join m)) ∧
    ∀ e, parse text = .error e ↔
      if Text.isBlankText text then e = .empty
      else ∃ before w after, text.toList.splitOn '.' = before ++ w :: after ∧ (∀ v ∈ before, IsToken v) ∧ ¬ IsToken w ∧
        Identifier.parse (String.ofList w) = .error e ∧
        e = if Text.isBlankText (String.ofList w) then .empty else .invalid (String.ofList w) := by
  refine ⟨?_, fun n => ⟨parse_eq_ok_iff, spells_iff, written_eq n, ?_, text_eq_intercalate n⟩,
    fun n => ⟨parse_text n, fun is => ofSegments_eq_ok_iff, fun i => ?_, fun m => ?_⟩, fun e => ?_⟩
  · simp only [parse_eq_ok_iff]
    exact exists_text_iff
  · rw [Bool.eq_iff_iff, takesPieces_iff, spells_iff]
  · rw [← text_child, parse_text]
  · rw [← text_join, parse_text]
  · have hpiece : ∀ w, parsePiece w = .error e ↔ ¬ IsToken w ∧ Identifier.parse (String.ofList w) = .error e ∧
        e = if Text.isBlankText (String.ofList w) then .empty else .invalid (String.ofList w) := by
      intro w
      constructor
      · intro h
        obtain ⟨htoken, he⟩ := parsePiece_eq_error_iff.1 h
        exact ⟨htoken, h, he⟩
      · exact fun h => h.2.1
    simp only [parse_eq_error_iff, hpiece]

/-- Of several bad pieces the first is told; between two dots stands an empty one. -/
example : parse "Shop.1b..é" = .error (.invalid "1b") ∧ parse "Shop..1b" = .error .empty :=
  ⟨rfl, rfl⟩

end QualifiedName
end DomainModel
