import DomainModel.Cardinality
import DomainModel.Name.Qualified
/-!
# Runs — where a name ends in a text

A run of characters of one class ends where a character of another class stands, so it is known from the text that it
begins (`append_inj_of_all`).  Names are runs of letters, digits and dots, and what a type carries behind it is a run as
well; names, chains and cardinalities are known from their texts (`QualifiedName.text_injective`,
`Cardinality.suffix_injective`).
-/
namespace DomainModel
namespace Text

variable {α : Type}

/-- **What follows does not go on with a run** of a class. -/
def Stops (p : α → Bool) (cs : List α) : Prop := ∀ c, cs.head? = some c → p c = false

@[simp] theorem stops_nil (p : α → Bool) : Stops p [] := by simp [Stops]

@[simp] theorem stops_cons (p : α → Bool) (c : α) (cs : List α) : Stops p (c :: cs) ↔ p c = false := by simp [Stops]

theorem Stops.nil {p : α → Bool} : Stops p [] := stops_nil p

theorem Stops.cons {p : α → Bool} {c : α} {cs : List α} (h : p c = false) : Stops p (c :: cs) := (stops_cons p c cs).2 h

theorem takeWhile_eq_nil_of_stops {p : α → Bool} {cs : List α} (h : Stops p cs) : cs.takeWhile p = [] := by
  cases cs with
  | nil => rfl
  | cons c cs => rw [List.takeWhile_cons, (stops_cons p c cs).1 h]; rfl

/-- **A run is known from a text that it begins**, and so is what follows. -/
theorem append_inj_of_all {p : α → Bool} {as bs cs ds : List α} (ha : ∀ c ∈ as, p c = true) (hb : ∀ c ∈ bs, p c = true)
    (hc : Stops p cs) (hd : Stops p ds) (h : as ++ cs = bs ++ ds) : as = bs ∧ cs = ds := by
  have hrun : ∀ {xs ys : List α}, (∀ c ∈ xs, p c = true) → Stops p ys → (xs ++ ys).takeWhile p = xs := by
    intro xs ys hx hy
    rw [List.takeWhile_append_of_pos hx, takeWhile_eq_nil_of_stops hy, List.append_nil]
  have hab : as = bs := (hrun ha hc).symm.trans ((congrArg _ h).trans (hrun hb hd))
  subst hab
  exact ⟨rfl, List.append_cancel_left h⟩

/-- What a name is made of. -/
def isNameChar (c : Char) : Bool := c.isAlphanum || c == '.'

/-- What a type with its cardinality is made of. -/
def isTypeChar (c : Char) : Bool := isNameChar c || c == '?' || c == '*' || c == '+' || c == '[' || c == ']'

end Text

open Text (Stops append_inj_of_all isNameChar isTypeChar)

/-! ## Names -/

namespace Identifier

theorem all_isAlphanum (i : Identifier) : ∀ c ∈ i.text.toList, c.isAlphanum = true := by
  have h := i.valid
  unfold isToken at h
  cases hl : i.text.toList with
  | nil => simp
  | cons c cs =>
    rw [hl] at h
    simp only [Bool.and_eq_true, List.all_eq_true] at h
    intro d hd
    rcases List.mem_cons.1 hd with rfl | hd
    · simp [Char.isAlphanum, h.1]
    · exact h.2 d hd

theorem exists_letter (i : Identifier) : ∃ c cs, i.text.toList = c :: cs ∧ c.isAlpha = true := by
  have h := i.valid
  unfold isToken at h
  cases hl : i.text.toList with
  | nil => rw [hl] at h; cases h
  | cons c cs =>
    rw [hl] at h
    simp only [Bool.and_eq_true] at h
    exact ⟨c, cs, rfl, h.1⟩

/-- **A name is known from a text that it begins.** -/
theorem append_inj {i j : Identifier} {cs ds : List Char} (hc : Stops Char.isAlphanum cs)
    (hd : Stops Char.isAlphanum ds) (h : i.text.toList ++ cs = j.text.toList ++ ds) : i = j ∧ cs = ds := by
  obtain ⟨htext, hrest⟩ := append_inj_of_all i.all_isAlphanum j.all_isAlphanum hc hd h
  exact ⟨Identifier.ext (String.toList_inj.1 htext), hrest⟩

end Identifier

namespace QualifiedName

theorem text_injective {m n : QualifiedName} (h : m.text = n.text) : m = n := by
  have hparse := congrArg parse h
  rw [parse_text, parse_text] at hparse
  exact Except.ok.inj hparse

theorem all_isNameChar (n : QualifiedName) : ∀ c ∈ n.text.toList, isNameChar c = true := by
  have hletter : ∀ (i : Identifier), ∀ c ∈ i.text.toList, isNameChar c = true := by
    intro i c hc
    simp [isNameChar, i.all_isAlphanum c hc]
  intro c hc
  rw [text, String.toList_ofList, Text.join, List.mem_append] at hc
  rcases hc with hc | hc
  · exact hletter _ c hc
  · obtain ⟨w, hw, hc⟩ := List.mem_flatMap.1 hc
    obtain ⟨i, -, rfl⟩ := List.mem_map.1 hw
    rcases List.mem_cons.1 hc with rfl | hc
    · rfl
    · exact hletter i c hc

end QualifiedName

/-! ## Cardinalities -/

section Decimals

variable {m n : UInt32} {cs ds : List Char}

theorem toList_decimal (n : UInt32) : (toString n).toList = Nat.toDigits 10 n.toNat := by
  have hrepr : toString n = n.toNat.repr := rfl
  rw [hrepr, Nat.repr_eq_ofList_toDigits, String.toList_ofList]

theorem isDigit_of_mem_decimal {c : Char} (h : c ∈ (toString n).toList) : c.isDigit = true := by
  rw [toList_decimal] at h
  exact Nat.isDigit_of_mem_toDigits (by decide) (by decide) h

/-- **A number is known from a text that its digits begin.** -/
theorem decimal_append_inj (hc : Stops Char.isDigit cs) (hd : Stops Char.isDigit ds)
    (h : (toString m).toList ++ cs = (toString n).toList ++ ds) : m = n ∧ cs = ds := by
  obtain ⟨hdigits, hrest⟩ :=
    append_inj_of_all (fun _ => isDigit_of_mem_decimal) (fun _ => isDigit_of_mem_decimal) hc hd h
  rw [toList_decimal, toList_decimal] at hdigits
  have hnat := congrArg (Nat.ofDigitChars 10 · 0) hdigits
  simp only [Nat.ofDigitChars_toDigits (b := 10) (by decide) (by decide)] at hnat
  exact ⟨UInt32.toNat_inj.1 hnat, hrest⟩

end Decimals

namespace Cardinality

/-- What a range writes behind its minimum. -/
def upper (c : Cardinality) : List Char :=
  match c.maximum with
  | none => ['.', '.', '*']
  | some max => if max = c.minimum then [] else '.' :: '.' :: (toString max).toList

theorem toList_text (c : Cardinality) : c.text.toList = (toString c.minimum).toList ++ c.upper := by
  unfold text upper
  cases c.maximum with
  | none => simp [String.toList_append]
  | some max =>
    by_cases h : max = c.minimum
    · simp [h]
    · simp [h, String.toList_append]

theorem stops_upper (c : Cardinality) : Stops Char.isDigit c.upper := by
  unfold upper
  split
  · simp
  · split <;> simp

theorem upper_injective {minimum : UInt32} {m n : Option UInt32} (h : upper ⟨minimum, m⟩ = upper ⟨minimum, n⟩) :
    m = n := by
  -- The star is no digit.
  have hstar : ∀ n : UInt32, (toString n).toList ≠ ['*'] := by
    intro n hn
    have hdigit : '*'.isDigit = true := isDigit_of_mem_decimal (n := n) (hn ▸ List.mem_singleton.2 rfl)
    cases hdigit
  unfold upper at h
  cases m with
  | none => cases n with
    | none => rfl
    | some b =>
      by_cases hb : b = minimum
      · simp [hb] at h
      · simp [hb] at h
        exact absurd h.symm (hstar b)
  | some a => cases n with
    | none =>
      by_cases ha : a = minimum
      · simp [ha] at h
      · simp [ha] at h
        exact absurd h (hstar a)
    | some b =>
      by_cases ha : a = minimum
      · by_cases hb : b = minimum
        · rw [ha, hb]
        · simp [ha, hb] at h
      · by_cases hb : b = minimum
        · simp [ha, hb] at h
        · simp only [ha, hb, if_false, List.cons.injEq, true_and] at h
          have hdigits : (toString a).toList ++ [] = (toString b).toList ++ [] := by simpa using h
          rw [(decimal_append_inj (Text.stops_nil _) (Text.stops_nil _) hdigits).1]

theorem text_injective {c d : Cardinality} (h : c.text = d.text) : c = d := by
  have hlist := congrArg String.toList h
  rw [toList_text, toList_text] at hlist
  obtain ⟨hmin, hupper⟩ := decimal_append_inj c.stops_upper d.stops_upper hlist
  obtain ⟨minimum, maximum⟩ := c
  obtain ⟨minimum', maximum'⟩ := d
  subst hmin
  rw [upper_injective hupper]

/-- The ranges that have a short form. -/
def short : List Cardinality := [one, zeroOrOne, zeroOrMore, oneOrMore]

theorem suffix_of_not_short {c : Cardinality} (h : c ∉ short) : c.suffix.toList = '[' :: (c.text.toList ++ [']']) := by
  simp only [short, List.mem_cons, List.not_mem_nil, or_false, not_or] at h
  obtain ⟨h1, h2, h3, h4⟩ := h
  simp [suffix, h1, h2, h3, h4, String.toList_append]

theorem not_bracket_of_short : ∀ c ∈ short, c.suffix.toList.head? ≠ some '[' := by decide

theorem suffix_injective_short : ∀ c ∈ short, ∀ d ∈ short, c.suffix = d.suffix → c = d := by decide

/-- **A cardinality is known from what a type carries behind it.** -/
theorem suffix_injective {c d : Cardinality} (h : c.suffix = d.suffix) : c = d := by
  by_cases hc : c ∈ short
  · by_cases hd : d ∈ short
    · exact suffix_injective_short c hc d hd h
    · have hbracket := not_bracket_of_short c hc
      rw [h, suffix_of_not_short hd] at hbracket
      exact absurd rfl hbracket
  · by_cases hd : d ∈ short
    · have hbracket := not_bracket_of_short d hd
      rw [← h, suffix_of_not_short hc] at hbracket
      exact absurd rfl hbracket
    · have hlist := congrArg String.toList h
      rw [suffix_of_not_short hc, suffix_of_not_short hd] at hlist
      have htext := List.append_cancel_right (List.cons.inj hlist).2
      exact text_injective (String.toList_inj.1 htext)

theorem all_isTypeChar_text (c : Cardinality) : ∀ x ∈ c.text.toList, isTypeChar x = true := by
  have hdigit : ∀ {n : UInt32} {x : Char}, x ∈ (toString n).toList → isTypeChar x = true := by
    intro n x hx
    have hd := isDigit_of_mem_decimal hx
    simp [isTypeChar, isNameChar, Char.isAlphanum, hd]
  intro x hx
  rw [toList_text, List.mem_append] at hx
  rcases hx with hx | hx
  · exact hdigit hx
  · unfold upper at hx
    split at hx
    · have hstar : ['.', '.', '*'].all isTypeChar = true := by decide
      exact List.all_eq_true.1 hstar x hx
    · split at hx
      · cases hx
      · rcases List.mem_cons.1 hx with rfl | hx
        · rfl
        rcases List.mem_cons.1 hx with rfl | hx
        · rfl
        · exact hdigit hx

theorem all_isTypeChar_suffix (c : Cardinality) : ∀ x ∈ c.suffix.toList, isTypeChar x = true := by
  by_cases hc : c ∈ short
  · have hshort : ∀ c ∈ short, c.suffix.toList.all isTypeChar = true := by decide
    exact List.all_eq_true.1 (hshort c hc)
  · rw [suffix_of_not_short hc]
    intro x hx
    rcases List.mem_cons.1 hx with rfl | hx
    · rfl
    rcases List.mem_append.1 hx with hx | hx
    · exact c.all_isTypeChar_text x hx
    · rw [List.mem_singleton.1 hx]
      rfl

theorem stops_suffix (c : Cardinality) {cs : List Char} (h : Stops isTypeChar cs) :
    Stops isNameChar (c.suffix.toList ++ cs) := by
  have hcs : Stops isNameChar cs := by
    intro x hx
    have hx := h x hx
    simp only [isTypeChar, Bool.or_eq_false_iff] at hx
    exact hx.1.1.1.1.1
  by_cases hc : c ∈ short
  · have hshort : ∀ c ∈ short, c.suffix.toList.head?.all (fun x => !isNameChar x) = true := by decide
    have hfirst := hshort c hc
    cases hsuffix : c.suffix.toList with
    | nil => exact hcs
    | cons x xs =>
      rw [hsuffix] at hfirst
      simpa using hfirst
  · rw [suffix_of_not_short hc, List.cons_append, Text.stops_cons]
    rfl

end Cardinality

/-! ## Types -/

/-- **A name and a cardinality behind it are known from a text that they begin.** -/
theorem type_append_inj {m n : QualifiedName} {c d : Cardinality} {cs ds : List Char} (hc : Stops isTypeChar cs)
    (hd : Stops isTypeChar ds)
    (h : m.text.toList ++ (c.suffix.toList ++ cs) = n.text.toList ++ (d.suffix.toList ++ ds)) :
    m = n ∧ c = d ∧ cs = ds := by
  obtain ⟨hname, hrest⟩ := append_inj_of_all m.all_isNameChar n.all_isNameChar (c.stops_suffix hc) (d.stops_suffix hd) h
  obtain ⟨hsuffix, hend⟩ := append_inj_of_all c.all_isTypeChar_suffix d.all_isTypeChar_suffix hc hd hrest
  exact ⟨QualifiedName.text_injective (String.toList_inj.1 hname),
    Cardinality.suffix_injective (String.toList_inj.1 hsuffix), hend⟩

end DomainModel
