import DomainModel.Name.Segments
import DomainModel.Proofs.Text.Runs
import Mathlib.Data.Char
/-!
# Ordered — names in order

A dot comes before every letter and digit, so chains stand in the order of their texts, byte by byte
(`QualifiedName.compare_eq`), and behind each chain stand first the chains that it begins (`QualifiedName.ordered_as_text`).
-/
namespace DomainModel
namespace Text

/-! ## Runs in order -/

section Runs

variable {α : Type} [Ord α] [Std.OrientedOrd α] {p : α → Bool}

/-- **Texts that begin with runs are compared by the runs**, if the class of the runs comes behind all other entries, and
by what follows where the runs are alike. -/
theorem compare_append (hp : ∀ a b : α, p a = true → p b = false → compare a b = .gt) : ∀ (us vs xs ys : List α),
    (∀ a ∈ us, p a = true) → (∀ a ∈ vs, p a = true) → Stops p xs → Stops p ys →
    compare (us ++ xs) (vs ++ ys) = (compare us vs).then (compare xs ys)
  | [], [], xs, ys, _, _, _, _ => rfl
  | [], v :: vs, [], ys, _, _, _, _ => rfl
  -- Where one run ends first, what follows it comes before what is left of the other.
  | [], v :: vs, x :: xs, ys, _, hvs, hxs, _ => by
    have hlt : compare x v = .lt :=
      Std.OrientedCmp.gt_iff_lt.1 (hp v x (hvs v List.mem_cons_self) ((stops_cons p x xs).1 hxs))
    simp [List.compare_cons_cons, hlt]
  | u :: us, [], xs, [], _, _, _, _ => rfl
  | u :: us, [], xs, y :: ys, hus, _, _, hys => by
    have hgt : compare u y = .gt := hp u y (hus u List.mem_cons_self) ((stops_cons p y ys).1 hys)
    simp [List.compare_cons_cons, hgt]
  | u :: us, v :: vs, xs, ys, hus, hvs, hxs, hys => by
    have ih := compare_append hp us vs xs ys (List.forall_mem_cons.1 hus).2 (List.forall_mem_cons.1 hvs).2 hxs hys
    rw [List.cons_append, List.cons_append, List.compare_cons_cons, ih, List.compare_cons_cons, Ordering.then_assoc]

theorem compare_flatMap {sep : α} (hsep : p sep = false) (hp : ∀ a b : α, p a = true → p b = false → compare a b = .gt) :
    ∀ us vs : List (List α), (∀ u ∈ us, ∀ a ∈ u, p a = true) → (∀ v ∈ vs, ∀ a ∈ v, p a = true) →
    compare (us.flatMap (sep :: ·)) (vs.flatMap (sep :: ·)) = compare us vs
  | [], [], _, _ => rfl
  | [], v :: vs, _, _ => rfl
  | u :: us, [], _, _ => rfl
  | u :: us, v :: vs, hus, hvs => by
    have hstops : ∀ ws : List (List α), Stops p (ws.flatMap (sep :: ·)) := by
      intro ws
      cases ws <;> simp [hsep]
    have hself : compare sep sep = .eq := Std.ReflCmp.compare_self
    obtain ⟨hu, hus⟩ := List.forall_mem_cons.1 hus
    obtain ⟨hv, hvs⟩ := List.forall_mem_cons.1 hvs
    rw [List.flatMap_cons, List.flatMap_cons, List.cons_append, List.cons_append, List.compare_cons_cons,
      hself, compare_append hp u v _ _ hu hv (hstops us) (hstops vs),
      compare_flatMap hsep hp us vs hus hvs, List.compare_cons_cons]
    rfl

end Runs

theorem compare_map {α β : Type} [Ord α] [Ord β] {f : α → β} : ∀ {xs ys : List α},
    (∀ x ∈ xs, ∀ y ∈ ys, compare (f x) (f y) = compare x y) → compare (xs.map f) (ys.map f) = compare xs ys
  | [], [], _ => rfl
  | [], _ :: _, _ => rfl
  | _ :: _, [], _ => rfl
  | x :: xs, y :: ys, h => by
    have ih : compare (xs.map f) (ys.map f) = compare xs ys :=
      compare_map fun a ha b hb => h a (List.mem_cons_of_mem _ ha) b (List.mem_cons_of_mem _ hb)
    rw [List.map_cons, List.map_cons, List.compare_cons_cons, List.compare_cons_cons, ih,
      h x List.mem_cons_self y List.mem_cons_self]

/-! ## Characters and bytes -/

theorem compareOfLessAndEq_eq_compare : ∀ xs ys : List Char, compareOfLessAndEq xs ys = compare xs ys
  | [], [] => rfl
  | [], _ :: _ => rfl
  | _ :: _, [] => rfl
  | x :: xs, y :: ys => by
    have hchar : compare x y = compareOfLessAndEq x y := rfl
    rw [List.compare_cons_cons, ← compareOfLessAndEq_eq_compare xs ys, hchar]
    simp only [compareOfLessAndEq, List.cons_lt_cons_iff, List.cons.injEq]
    rcases lt_trichotomy x y with hlt | rfl | hgt
    · simp [hlt]
    · simp
    · simp [lt_asymm hgt, ne_of_gt hgt]

theorem compare_eq_toList (s t : String) : compare s t = compare s.toList t.toList := by
  have hstrings : compare s t = compareOfLessAndEq s t := rfl
  rw [hstrings, ← compareOfLessAndEq_eq_compare]
  simp only [compareOfLessAndEq, String.lt_iff, String.toList_inj]

theorem bytes_ofList : ∀ {cs : List Char}, (∀ c ∈ cs, c.toNat < 128) → bytes (String.ofList cs) = cs.map Char.toUInt8
  | [], _ => rfl
  | c :: cs, h => by
    obtain ⟨hc, hcs⟩ := List.forall_mem_cons.1 h
    have ih := bytes_ofList hcs
    have hsize : c.utf8Size = 1 :=
      Char.utf8Size_eq_one_iff.2 (UInt32.le_iff_toNat_le.2 (Nat.le_of_lt_succ hc))
    simp only [bytes, String.toUTF8_eq_toByteArray, String.toByteArray_ofList, List.utf8Encode] at ih ⊢
    simpa [String.utf8EncodeChar_eq_singleton hsize] using ih

theorem toNat_toUInt8 {c : Char} (h : c.toNat < 128) : c.toUInt8.toNat = c.toNat := by
  rw [← Char.toUInt8_val, UInt32.toNat_toUInt8]
  exact Nat.mod_eq_of_lt (Nat.lt_trans h (by decide))

theorem compare_toUInt8 {c d : Char} (hc : c.toNat < 128) (hd : d.toNat < 128) :
    compare c.toUInt8 d.toUInt8 = compare c d := by
  have hchar : compare c d = compareOfLessAndEq c d := rfl
  have hbyte : compare c.toUInt8 d.toUInt8 = compareOfLessAndEq c.toUInt8 d.toUInt8 := rfl
  have hlt : c.toUInt8 < d.toUInt8 ↔ c < d := by
    rw [UInt8.lt_iff_toNat_lt, toNat_toUInt8 hc, toNat_toUInt8 hd]
    rfl
  have heq : c.toUInt8 = d.toUInt8 ↔ c = d := by
    rw [← UInt8.toNat_inj, toNat_toUInt8 hc, toNat_toUInt8 hd, Char.toNat_inj]
  rw [hchar, hbyte]
  simp only [compareOfLessAndEq, hlt, heq]

/-- **ASCII texts stand in the order of their bytes.** -/
theorem compare_bytes {s t : String} (hs : ∀ c ∈ s.toList, c.toNat < 128) (ht : ∀ c ∈ t.toList, c.toNat < 128) :
    compare (bytes s) (bytes t) = compare s t := by
  rw [← String.ofList_toList (s := s), ← String.ofList_toList (s := t), bytes_ofList hs, bytes_ofList ht,
    String.ofList_toList, String.ofList_toList, compare_eq_toList]
  exact compare_map fun c hc d hd => compare_toUInt8 (hs c hc) (ht d hd)

/-! ## Lists in order -/

section Lists

variable {α : Type} [Ord α]

/-- Lists compared entry by entry, and by their lengths where one begins the other. -/
theorem foldr_zip_compare : ∀ xs ys : List α,
    (xs.zip ys).foldr (fun p later => (compare p.1 p.2).then later) (compare xs.length ys.length) = compare xs ys
  | [], [] => rfl
  | [], y :: ys => by simp [Nat.compare_eq_lt]
  | x :: xs, [] => by simp [Nat.compare_eq_gt]
  | x :: xs, y :: ys => by
    have ih := foldr_zip_compare xs ys
    have hlength : compare (x :: xs).length (y :: ys).length = compare xs.length ys.length := by
      simp [Nat.compare_eq_ite_lt]
    rw [List.zip_cons_cons, List.foldr_cons, hlength, ih, List.compare_cons_cons]

theorem compare_append_cons [Std.ReflOrd α] (y : α) (ys : List α) : ∀ xs : List α, compare xs (xs ++ y :: ys) = .lt
  | [] => rfl
  | x :: xs => by
    have hself : compare x x = .eq := Std.ReflCmp.compare_self
    rw [List.cons_append, List.compare_cons_cons, hself, compare_append_cons y ys xs]
    rfl

/-- **What stands between a list and one that it begins is begun by it.** -/
theorem prefix_of_between [Std.OrientedOrd α] [Std.LawfulEqOrd α] : ∀ {xs zs ys : List α}, (compare xs zs).isLE = true →
    (compare zs (xs ++ ys)).isLE = true → xs <+: zs
  | [], zs, _, _, _ => List.nil_prefix
  | x :: xs, [], ys, h, _ => by cases h
  | x :: xs, z :: zs, ys, hxs, hys => by
    rw [List.compare_cons_cons] at hxs
    rw [List.cons_append, List.compare_cons_cons] at hys
    cases hxz : compare x z with
    | lt =>
      rw [Std.OrientedCmp.gt_iff_lt.2 hxz] at hys
      cases hys
    | gt =>
      rw [hxz] at hxs
      cases hxs
    | eq =>
      obtain rfl := Std.LawfulEqOrd.eq_of_compare hxz
      rw [hxz] at hxs hys
      exact List.prefix_cons_inj x |>.2 (prefix_of_between hxs hys)

end Lists

end Text

namespace Identifier

theorem toNat_of_isAlphanum {c : Char} (h : c.isAlphanum = true) : '.'.toNat < c.toNat ∧ c.toNat < 128 := by
  unfold Char.isAlphanum Char.isAlpha Char.isUpper Char.isLower Char.isDigit at h
  simp only [Bool.or_eq_true, Bool.and_eq_true, decide_eq_true_eq, ge_iff_le, UInt32.le_iff_toNat_le] at h
  have hdot : '.'.toNat = 46 := rfl
  have hval : c.toNat = c.val.toNat := rfl
  simp at h
  omega

theorem isAscii (i : Identifier) : ∀ c ∈ i.text.toList, c.toNat < 128 :=
  fun c hc => (toNat_of_isAlphanum (i.all_isAlphanum c hc)).2

theorem dot_lt (i : Identifier) : ∀ c ∈ i.text.toList, '.' < c :=
  fun c hc => (toNat_of_isAlphanum (i.all_isAlphanum c hc)).1

instance : Std.TransOrd Identifier := inferInstanceAs (Std.TransCmp (compareOn Identifier.text))

instance : Std.LawfulEqOrd Identifier where
  compare_self := Std.ReflCmp.compare_self
  eq_of_compare {a b} h := Identifier.ext (Std.LawfulEqOrd.eq_of_compare (a := a.text) (b := b.text) h)

end Identifier

namespace QualifiedName

instance : Std.TransOrd QualifiedName := inferInstanceAs (Std.TransCmp (compareOn QualifiedName.segments))

instance : Std.LawfulEqOrd QualifiedName where
  compare_self := Std.ReflCmp.compare_self
  eq_of_compare {a b} h := QualifiedName.ext (Std.LawfulEqOrd.eq_of_compare (a := a.segments) (b := b.segments) h)

theorem dot_cons_toList_text (n : QualifiedName) :
    '.' :: n.text.toList = (n.segments.map (·.text.toList)).flatMap ('.' :: ·) := by
  rw [text, String.toList_ofList, Text.join, segments, List.map_cons, List.flatMap_cons, List.cons_append]

/-- **Chains stand in the order of their texts.** -/
theorem compare_eq (a b : QualifiedName) : compare a b = compare a.text b.text := by
  have hclass : ∀ c d : Char, decide ('.' < c) = true → decide ('.' < d) = false → compare c d = .gt := by
    intro c d hc hd
    have hlt : d < c := lt_of_le_of_lt (not_lt.1 (of_decide_eq_false hd)) (of_decide_eq_true hc)
    exact Std.OrientedCmp.gt_iff_lt.2 (compareOfLessAndEq_eq_lt.2 hlt)
  have hrun : ∀ n : QualifiedName, ∀ w ∈ n.segments.map (·.text.toList), ∀ c ∈ w, decide ('.' < c) = true := by
    intro n w hw c hc
    obtain ⟨i, -, rfl⟩ := List.mem_map.1 hw
    exact decide_eq_true (i.dot_lt c hc)
  have hdot : compare '.' '.' = .eq := rfl
  -- With a dot before them, too, the texts are their segments, each behind a dot.
  calc compare a b
      = compare (a.segments.map (·.text.toList)) (b.segments.map (·.text.toList)) :=
        (Text.compare_map fun i _ j _ => (Text.compare_eq_toList i.text j.text).symm).symm
    _ = compare ('.' :: a.text.toList) ('.' :: b.text.toList) := by
        rw [dot_cons_toList_text, dot_cons_toList_text, Text.compare_flatMap (by decide) hclass _ _ (hrun a) (hrun b)]
    _ = compare a.text b.text := by
        rw [List.compare_cons_cons, hdot, Text.compare_eq_toList]
        rfl

theorem isAscii_text (n : QualifiedName) : ∀ c ∈ n.text.toList, c.toNat < 128 := by
  intro c hc
  have hname := n.all_isNameChar c hc
  rw [Text.isNameChar, Bool.or_eq_true, beq_iff_eq] at hname
  rcases hname with halphanum | rfl
  · exact (Identifier.toNat_of_isAlphanum halphanum).2
  · decide

theorem compareSegments_eq (a b : QualifiedName) : a.compareSegments b = compare a b := by
  have hbytes : ∀ i j : Identifier, compare (Text.bytes i.text) (Text.bytes j.text) = compare i j :=
    fun i j => Text.compare_bytes i.isAscii j.isAscii
  simp only [compareSegments, hbytes]
  exact Text.foldr_zip_compare a.segments b.segments

/-- **Chains stand in the order of their texts, byte by byte**, whether they are compared segment against segment or by
their texts, so that a list of chains is sorted as the list of the texts is.  It is a total order, and behind each chain
stand first its extensions: it comes before each of them, and what comes between it and one of them is one of them. -/
theorem ordered_as_text :
    (∀ a b : QualifiedName, a.compareSegments b = compare a b ∧
      compare a b = compare (Text.bytes a.text) (Text.bytes b.text)) ∧
    (∀ names : List QualifiedName, (names.mergeSort fun a b => (compare a b).isLE).map (·.text) =
      (names.map (·.text)).mergeSort fun s t => (compare (Text.bytes s) (Text.bytes t)).isLE) ∧
    Std.TransOrd QualifiedName ∧ Std.LawfulEqOrd QualifiedName ∧
    (∀ a x : QualifiedName, compare a (a.join x) = .lt) ∧
    ∀ a c : QualifiedName, c.startsWith a = true ↔
      (compare a c).isLE = true ∧ ∃ x, (compare c (a.join x)).isLE = true := by
  have hbytes : ∀ a b : QualifiedName, compare a b = compare (Text.bytes a.text) (Text.bytes b.text) := fun a b => by
    rw [compare_eq, Text.compare_bytes a.isAscii_text b.isAscii_text]
  have hbehind : ∀ a x : QualifiedName, compare a (a.join x) = .lt :=
    fun a x => Text.compare_append_cons x.first x.rest a.segments
  refine ⟨fun a b => ⟨compareSegments_eq a b, hbytes a b⟩, fun names => List.map_mergeSort fun a _ b _ => ?_,
    inferInstance, inferInstance, hbehind, fun a c => ?_⟩
  · rw [hbytes]
  · rw [startsWith_iff]
    constructor
    · rintro ⟨rest, hrest⟩
      cases rest with
      | nil =>
        obtain rfl : a = c := QualifiedName.ext (by rw [← hrest, List.append_nil])
        have hself : compare a a = .eq := Std.ReflCmp.compare_self
        exact ⟨by rw [hself]; rfl, a, by rw [hbehind]; rfl⟩
      | cons i is =>
        obtain rfl : a.join ⟨i, is⟩ = c := QualifiedName.ext hrest
        have hself : compare (a.join ⟨i, is⟩) (a.join ⟨i, is⟩) = .eq := Std.ReflCmp.compare_self
        exact ⟨by rw [hbehind]; rfl, ⟨i, is⟩, by rw [hself]; rfl⟩
    · rintro ⟨hac, x, hcx⟩
      exact Text.prefix_of_between hac hcx

/-- A name that goes on comes behind the dotted names that begin with it. -/
example : compare (⟨⟨"A", by decide⟩, [⟨"B", by decide⟩]⟩ : QualifiedName) (single ⟨"A1", by decide⟩) = .lt := by decide

end QualifiedName
end DomainModel
