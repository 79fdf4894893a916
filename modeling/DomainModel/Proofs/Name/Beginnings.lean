import DomainModel.Name.Beginnings
import DomainModel.Proofs.Name.Dotted
import Mathlib.Data.List.Induction
/-!
# Beginnings — which chains begin a chain

The beginnings of a chain are itself and its ancestors, and the ancestors are its parent, the parent of that and so on.
One chain begins another if the other is it or is it joined with something; then their texts part at a dot, so that a
text in common that ends inside a segment counts for nothing (`QualifiedName.begins_by_segments`).
-/
namespace DomainModel

namespace Text

theorem pieces_join_append (sep : Char) (cs : List Char) : ∀ (ws : List (List Char)) (w : List Char),
    (∀ v ∈ w :: ws, sep ∉ v) → pieces (· == sep) (join sep w ws ++ sep :: cs) = w :: ws ++ pieces (· == sep) cs
  | [], w, h => by
    rw [join_nil, pieces_append_cons sep cs (h w List.mem_cons_self)]
    rfl
  | v :: ws, w, h => by
    obtain ⟨hw, hrest⟩ := List.forall_mem_cons.1 h
    rw [join_cons, List.append_assoc, List.cons_append, pieces_append_cons sep _ hw,
      pieces_join_append sep cs ws v hrest]
    rfl

/-- **Place by place**: the pairs are equal throughout and the first list is not the longer one. -/
theorem zip_all_iff_prefix {α : Type} [BEq α] [LawfulBEq α] : ∀ xs ys : List α,
    (xs.length ≤ ys.length ∧ (xs.zip ys).all (fun p => p.1 == p.2) = true) ↔ xs <+: ys
  | [], ys => by simp
  | x :: xs, [] => by simp
  | x :: xs, y :: ys => by
    have ih := zip_all_iff_prefix xs ys
    simp only [List.length_cons, Nat.add_le_add_iff_right, List.zip_cons_cons, List.all_cons, Bool.and_eq_true,
      beq_iff_eq, List.cons_prefix_cons]
    rw [← ih]
    exact and_left_comm

end Text

namespace QualifiedName

/-- **A chain is a single segment, or a chain with a segment behind it.** -/
theorem child_induction {P : QualifiedName → Prop} (hsingle : ∀ i, P (single i)) (hchild : ∀ n i, P n → P (n.child i))
    (n : QualifiedName) : P n := by
  obtain ⟨first, rest⟩ := n
  induction rest using List.reverseRecOn with
  | nil => exact hsingle first
  | append_singleton is i ih => exact hchild ⟨first, is⟩ i ih

theorem size_pos (n : QualifiedName) : 0 < n.size := List.length_pos_iff.2 n.segments_ne_nil

@[simp] theorem size_single (i : Identifier) : (single i).size = 1 := rfl

@[simp] theorem size_join (a b : QualifiedName) : (a.join b).size = a.size + b.size := by simp [size]

@[simp] theorem size_child (n : QualifiedName) (i : Identifier) : (n.child i).size = n.size + 1 := by simp [size]

@[simp] theorem parent_single (i : Identifier) : (single i).parent = none := rfl

@[simp] theorem parent_child (n : QualifiedName) (i : Identifier) : (n.child i).parent = some n := by
  simp [parent, child]

@[simp] theorem parents_single (i : Identifier) : (single i).parents = [] := by
  rw [parents]
  rfl

@[simp] theorem parents_child (n : QualifiedName) (i : Identifier) : (n.child i).parents = n :: n.parents := by
  have hparent := parent_child n i
  rw [parents]
  split
  next h => rw [hparent] at h; cases h
  next p h => rw [hparent] at h; cases h; rfl

@[simp] theorem ancestors_single (i : Identifier) : (single i).ancestors = [] := rfl

/-- **The beginnings of a joined name** are those that reach into the second part, the first part, and its own. -/
theorem ancestors_join (n m : QualifiedName) :
    (n.join m).ancestors = m.ancestors.map n.join ++ n :: n.ancestors := by
  have hsize : (n.join m).rest.length = (n.rest.length + 1) + m.rest.length := by
    simp only [join, segments, List.length_append, List.length_cons]
    omega
  have hinner : ∀ k, (n.join m).take (n.rest.length + 1 + k) = n.join (m.take k) := by
    intro k
    refine QualifiedName.ext ?_
    have hk : n.rest.length + 1 + k + 1 = n.segments.length + (k + 1) := by
      simp only [segments, List.length_cons]
      omega
    rw [segments_take, segments_join, segments_join, segments_take, hk, List.take_length_add_append]
  have hself : (n.join m).take n.rest.length = n := QualifiedName.ext (by simp [take, join, segments])
  have houter : ∀ k ∈ (List.range n.rest.length).reverse, (n.join m).take k = n.take k := by
    intro k hk
    have hk : k < n.rest.length := List.mem_range.1 (List.mem_reverse.1 hk)
    simp only [take, join, List.take_append_of_le_length (Nat.le_of_lt hk)]
  unfold ancestors
  rw [hsize, List.range_add, List.reverse_append, List.map_append, List.range_succ, List.reverse_append,
    List.map_append, List.map_congr_left houter, ← List.map_reverse, List.map_map, List.map_map]
  simp only [List.reverse_singleton, List.map_singleton, hself, List.singleton_append]
  exact congrArg (· ++ _) (List.map_congr_left fun k _ => hinner k)

@[simp] theorem ancestors_child (n : QualifiedName) (i : Identifier) : (n.child i).ancestors = n :: n.ancestors := by
  rw [child_eq_join, ancestors_join]
  simp

theorem ancestors_eq_parents (n : QualifiedName) : n.ancestors = n.parents := by
  induction n using child_induction with
  | hsingle i => simp
  | hchild n i ih => rw [ancestors_child, parents_child, ih]

theorem map_segments_parent (n : QualifiedName) : n.parent.map segments = n.parentSlice := by
  induction n using child_induction with
  | hsingle i => rfl
  | hchild n i _ =>
    have hsize : ¬ n.size + 1 < 2 := by
      have hn := n.size_pos
      omega
    rw [parent_child, parentSlice, size_child, if_neg hsize]
    simp [size]

theorem map_segments_ancestors (n : QualifiedName) : n.ancestors.map segments = n.slices := by
  have hsize : n.size - 1 = n.rest.length := by simp [size, segments]
  have hrange : List.range' 1 n.rest.length = (List.range n.rest.length).map (· + 1) := by
    rw [List.range_eq_range', ← List.map_add_range' 0]
    exact List.map_congr_left fun k _ => Nat.add_comm 1 k
  simp only [slices, ancestors, hsize, hrange, ← List.map_reverse, List.map_map]
  rfl

/-! ## What begins a chain -/

theorem startsWith_self (n : QualifiedName) : n.startsWith n = true := startsWith_iff.2 (List.prefix_refl _)

theorem startsWith_join (a b : QualifiedName) : (a.join b).startsWith a = true :=
  startsWith_iff.2 (List.prefix_append _ _)

theorem startsWith_iff_join {a b : QualifiedName} : a.startsWith b = true ↔ a = b ∨ ∃ c, a = b.join c := by
  constructor
  · intro h
    obtain ⟨rest, hrest⟩ := startsWith_iff.1 h
    cases rest with
    | nil => exact .inl (QualifiedName.ext (by rw [← hrest, List.append_nil]))
    | cons i is => exact .inr ⟨⟨i, is⟩, QualifiedName.ext hrest.symm⟩
  · rintro (rfl | ⟨c, rfl⟩)
    · exact startsWith_self a
    · exact startsWith_join b c

theorem beginsWith_eq (a b : QualifiedName) : a.beginsWith b = a.startsWith b := by
  rw [Bool.eq_iff_iff, startsWith_iff, ← Text.zip_all_iff_prefix, beginsWith, Bool.and_eq_true, decide_eq_true_eq]
  rfl

theorem startsWith_child {n b : QualifiedName} {i : Identifier} :
    (n.child i).startsWith b = true ↔ b = n.child i ∨ n.startsWith b = true := by
  rw [startsWith_iff, startsWith_iff, segments_child, List.prefix_concat_iff]
  exact or_congr_left ⟨fun h => QualifiedName.ext h, fun h => congrArg segments h⟩

theorem size_le_of_startsWith {a b : QualifiedName} (h : a.startsWith b = true) : b.size ≤ a.size :=
  (startsWith_iff.1 h).length_le

/-- **The ancestors are the other chains that begin a chain.** -/
theorem mem_ancestors_iff {a b : QualifiedName} : b ∈ a.ancestors ↔ b ≠ a ∧ a.startsWith b = true := by
  induction a using child_induction with
  | hsingle i =>
    have hsingle : ∀ c, single i ≠ b.join c := by
      intro c h
      have hsize := congrArg size h
      rw [size_single, size_join] at hsize
      have hb := b.size_pos
      have hc := c.size_pos
      omega
    simp only [ancestors_single, List.not_mem_nil, false_iff, startsWith_iff_join, hsingle, exists_false, or_false]
    exact fun h => h.1 h.2.symm
  | hchild n i ih =>
    have hne : n.startsWith b = true → b ≠ n.child i := by
      rintro h rfl
      have hsize := size_le_of_startsWith h
      rw [size_child] at hsize
      omega
    rw [ancestors_child, List.mem_cons, ih, startsWith_child]
    constructor
    · rintro (rfl | ⟨-, h⟩)
      · exact ⟨hne (startsWith_self b), .inr (startsWith_self b)⟩
      · exact ⟨hne h, .inr h⟩
    · rintro ⟨hb, h⟩
      by_cases hn : b = n
      · exact .inl hn
      · exact .inr ⟨hn, h.resolve_left hb⟩

theorem size_lt_of_mem_ancestors {a b : QualifiedName} (h : b ∈ a.ancestors) : b.size < a.size := by
  obtain ⟨hne, hstart⟩ := mem_ancestors_iff.1 h
  have hprefix := startsWith_iff.1 hstart
  refine Nat.lt_of_le_of_ne hprefix.length_le fun hsize => hne ?_
  exact QualifiedName.ext (List.IsPrefix.eq_of_length hprefix hsize)

theorem ancestors_pairwise (n : QualifiedName) : n.ancestors.Pairwise fun a b => b.size < a.size := by
  induction n using child_induction with
  | hsingle i => simp
  | hchild n i ih =>
    rw [ancestors_child]
    exact .cons (fun a ha => size_lt_of_mem_ancestors ha) ih

theorem extend_eq (a b : QualifiedName) : a.extend b = a.join b := by
  have hfold : ∀ (is : List Identifier) (n : QualifiedName), (is.foldl push n).segments = n.segments ++ is := by
    intro is
    induction is with
    | nil => simp
    | cons i is ih =>
      intro n
      rw [List.foldl_cons, ih]
      simp [push, segments]
  exact QualifiedName.ext (hfold b.segments a)

/-! ## Beginnings in the text -/

/-- **Where a chain begins another their texts part at a dot**, or do not part at all. -/
theorem startsWith_iff_text {a b : QualifiedName} :
    a.startsWith b = true ↔ a.text = b.text ∨ ∃ rest, a.text = b.text ++ "." ++ rest := by
  constructor
  · intro h
    rcases startsWith_iff_join.1 h with rfl | ⟨c, rfl⟩
    · exact .inl rfl
    · exact .inr ⟨c.text, text_join b c⟩
  · rintro (h | ⟨rest, h⟩)
    · rw [text_injective h]
      exact startsWith_self b
    · -- The pieces of the longer text are the segments of the shorter one, then those of what is left.
      have hlist : a.text.toList = b.text.toList ++ '.' :: rest.toList := by
        rw [h]
        simp
      have hpieces := (pieces_eq_iff (n := a)).2 rfl
      rw [hlist, text, String.toList_ofList, Text.pieces_join_append '.' _ _ _ ?_] at hpieces
      · have hmap : b.segments.map (·.text.toList) <+: a.segments.map (·.text.toList) := ⟨_, hpieces⟩
        have hinjective : Function.Injective fun i : Identifier => i.text.toList :=
          fun i j hij => Identifier.ext (String.toList_inj.1 hij)
        exact startsWith_iff.2 ((List.prefix_map_iff_of_injective hinjective).1 hmap)
      · intro w hw
        obtain ⟨i, -, rfl⟩ := List.mem_map.1 (show w ∈ b.segments.map (·.text.toList) from hw)
        exact dot_not_mem i

theorem startsWith_iff_dot {a b : QualifiedName} {c : Char} {rest : List Char}
    (h : a.text.toList = b.text.toList ++ c :: rest) : a.startsWith b = true ↔ c = '.' := by
  rw [startsWith_iff_text]
  constructor
  · rintro (htext | ⟨more, htext⟩)
    · rw [htext] at h
      simp at h
    · rw [htext, String.toList_append, String.toList_append, List.append_assoc] at h
      exact (List.cons.inj (List.append_cancel_left h)).1.symm
  · rintro rfl
    refine .inr ⟨String.ofList rest, String.toList_inj.1 ?_⟩
    rw [h]
    simp

/-- **A chain begins those chains that are joined from it**, and its own ancestors are the chains that begin it and are
not it.  Comparing place by place tells the same, and so does the text: where one text goes on behind the other, it must
go on with a dot.  The ancestors are what comes of taking the parent again and again, each longer than the next.  Joining
chains joins their lists of segments, whether it is done at once, by adding, or by putting one segment behind another. -/
theorem begins_by_segments (a b : QualifiedName) :
    (a.startsWith b = true ↔ a = b ∨ ∃ c, a = b.join c) ∧ a.beginsWith b = a.startsWith b ∧
    a.ancestors = a.parents ∧ a.ancestors.map segments = a.slices ∧ a.parent.map segments = a.parentSlice ∧
    (b ∈ a.ancestors ↔ b ≠ a ∧ a.startsWith b = true) ∧
    a.ancestors.Pairwise (fun x y => y.size < x.size) ∧ a.ancestors.Nodup ∧
    (∀ c, (a.join b).join c = a.join (b.join c)) ∧ (a.join b).size = a.size + b.size ∧
    (∀ i, a.child i = a.join (single i) ∧ a + i = a.child i ∧ a.push i = a.child i) ∧
    a + b = a.join b ∧ a.extend b = a.join b ∧
    (a.startsWith b = true ↔ a.text = b.text ∨ ∃ rest, a.text = b.text ++ "." ++ rest) ∧
    ∀ c rest, a.text.toList = b.text.toList ++ c :: rest → (a.startsWith b = true ↔ c = '.') :=
  ⟨startsWith_iff_join, beginsWith_eq a b, ancestors_eq_parents a, map_segments_ancestors a, map_segments_parent a,
    mem_ancestors_iff, ancestors_pairwise a, (ancestors_pairwise a).imp fun h heq => by rw [heq] at h; omega,
    join_assoc a b, size_join a b, fun i => ⟨child_eq_join a i, rfl, rfl⟩, rfl, extend_eq a b, startsWith_iff_text,
    fun _ _ => startsWith_iff_dot⟩

/-- A text in common that ends inside a segment is no beginning. -/
theorem begins_by_segments_barn :
    let bar : QualifiedName := ⟨⟨"Foo", by decide⟩, [⟨"Bar", by decide⟩]⟩
    let barn : QualifiedName := ⟨⟨"Foo", by decide⟩, [⟨"Barn", by decide⟩]⟩
    barn.text.toList = bar.text.toList ++ ['n'] ∧ (barn.startsWith bar = true ↔ 'n' = '.') := by
  intro bar barn
  have htext : barn.text.toList = bar.text.toList ++ ['n'] := by decide
  obtain ⟨-, -, -, -, -, -, -, -, -, -, -, -, -, -, hdot⟩ := begins_by_segments barn bar
  exact ⟨htext, hdot 'n' [] htext⟩

end QualifiedName
end DomainModel
