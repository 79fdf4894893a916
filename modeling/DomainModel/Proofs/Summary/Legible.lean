import DomainModel.Proofs.Summary.Lines
import DomainModel.Proofs.Symbol.Stripped
/-!
# Legible — what the lines of a symbol tell

The line of a symbol and the lines below it tell its kind, its name and its content, with the full names of the types
that it refers to; only annotations are not told.  Each part of a line ends where the next one begins with a character
that cannot go on with it, so parts are known one after the other (`Graph.typeText_append_inj`, `Graph.atomText_inj`,
`Graph.content_inj`).
-/
namespace DomainModel

open Text (Stops append_inj_of_all isNameChar isTypeChar)

/-- What is read off the entries of two lists one by one is equal if it follows from what the lists have in common. -/
theorem map_eq_map_of_imp {α β γ δ : Type} {f : α → γ} {f' : β → γ} {k : α → δ} {k' : β → δ} :
    ∀ {as : List α} {bs : List β}, (∀ a ∈ as, ∀ b ∈ bs, f a = f' b → k a = k' b) → as.map f = bs.map f' →
      as.map k = bs.map k'
  | [], [], _, _ => rfl
  | [], _ :: _, _, h => by cases h
  | _ :: _, [], _, h => by cases h
  | a :: as, b :: bs, himp, h => by
    obtain ⟨hab, hrest⟩ := List.cons.inj h
    have htail := map_eq_map_of_imp
      (fun a ha b hb => himp a (List.mem_cons_of_mem _ ha) b (List.mem_cons_of_mem _ hb)) hrest
    rw [List.map_cons, List.map_cons, himp a List.mem_cons_self b List.mem_cons_self hab, htail]

namespace Graph

/-! ## Types -/

/-- **The full name of what a reference names**; a built-in type goes by its keyword. -/
def typeName? (g : Graph) : Option TypeRef → Option QualifiedName
  | none => none
  | some (.builtIn b) => some b.fullName
  | some (.external e) => some e.fullName
  | some (.symbol id) => g.fullName? id

/-- A reference shows the full name of a type. -/
def IsNamed (g : Graph) (r : Option TypeRef) : Prop := ∃ name, g.typeName? r = some name

variable {g h : Graph} {cs ds : List Char}

theorem lookupText_eq {r : Option TypeRef} {name : QualifiedName} (hr : g.typeName? r = some name) :
    g.lookupText r = name.text := by
  rcases r with _ | b | e | id
  · cases hr
  · cases hr
    exact b.text_fullName.symm
  · cases hr
    rfl
  · have hsymbol : g.lookupText (some (.symbol id)) = ((g.fullName? id).map (·.text)).getD "" := rfl
    rw [hsymbol, show g.fullName? id = some name from hr]
    rfl

theorem lookupText_append_inj {r q : Option TypeRef} (hr : g.IsNamed r) (hq : h.IsNamed q) (hc : Stops isNameChar cs)
    (hd : Stops isNameChar ds) (heq : (g.lookupText r).toList ++ cs = (h.lookupText q).toList ++ ds) :
    g.typeName? r = h.typeName? q ∧ cs = ds := by
  obtain ⟨m, hm⟩ := hr
  obtain ⟨n, hn⟩ := hq
  rw [lookupText_eq hm, lookupText_eq hn] at heq
  obtain ⟨htext, hrest⟩ := append_inj_of_all m.all_isNameChar n.all_isNameChar hc hd heq
  rw [hm, hn, QualifiedName.text_injective (String.toList_inj.1 htext)]
  exact ⟨rfl, hrest⟩

/-- **A type with its cardinality is known from a text that it begins.** -/
theorem typeText_append_inj {t u : TypeUse (Option TypeRef)} (ht : g.IsNamed t.lookup) (hu : h.IsNamed u.lookup)
    (hc : Stops isTypeChar cs) (hd : Stops isTypeChar ds)
    (heq : (g.typeText t).toList ++ cs = (h.typeText u).toList ++ ds) :
    t.map g.typeName? = u.map h.typeName? ∧ cs = ds := by
  obtain ⟨m, hm⟩ := ht
  obtain ⟨n, hn⟩ := hu
  rw [typeText, typeText, lookupText_eq hm, lookupText_eq hn, String.toList_append, String.toList_append,
    List.append_assoc, List.append_assoc] at heq
  obtain ⟨hname, hcardinality, hrest⟩ := type_append_inj hc hd heq
  rw [TypeUse.map, TypeUse.map, hm, hn, hname, hcardinality]
  exact ⟨rfl, hrest⟩

theorem typeText_inj {t u : TypeUse (Option TypeRef)} (ht : g.IsNamed t.lookup) (hu : h.IsNamed u.lookup)
    (heq : (g.typeText t).toList = (h.typeText u).toList) : t.map g.typeName? = u.map h.typeName? :=
  (typeText_append_inj ht hu .nil .nil (congrArg (· ++ []) heq)).1

/-- A base, with a text behind that does not begin as one. -/
theorem baseText_append_inj {base base' : Option (Option TypeRef)} (hbase : ∀ r, base = some r → g.IsNamed r)
    (hbase' : ∀ r, base' = some r → h.IsNamed r) (hc : Stops isNameChar cs) (hd : Stops isNameChar ds)
    (hc' : ¬ [' ', ':'] <+: cs) (hd' : ¬ [' ', ':'] <+: ds)
    (heq : (g.baseText base).toList ++ cs = (h.baseText base').toList ++ ds) :
    base.map g.typeName? = base'.map h.typeName? ∧ cs = ds := by
  cases base with
  | none => cases base' with
    | none => exact ⟨rfl, by simpa [baseText] using heq⟩
    | some q =>
      refine absurd ?_ hc'
      simp [baseText, String.toList_append] at heq
      simp [heq]
  | some r => cases base' with
    | none =>
      refine absurd ?_ hd'
      simp [baseText, String.toList_append] at heq
      simp [← heq]
    | some q =>
      have hrest : (g.lookupText r).toList ++ cs = (h.lookupText q).toList ++ ds := by
        simpa [baseText, String.toList_append] using heq
      obtain ⟨hname, hend⟩ := lookupText_append_inj (hbase r rfl) (hbase' q rfl) hc hd hrest
      exact ⟨congrArg some hname, hend⟩

theorem baseText_inj {base base' : Option (Option TypeRef)} (hbase : ∀ r, base = some r → g.IsNamed r)
    (hbase' : ∀ r, base' = some r → h.IsNamed r) (heq : g.baseText base = h.baseText base') :
    base.map g.typeName? = base'.map h.typeName? :=
  (baseText_append_inj hbase hbase' .nil .nil (by simp) (by simp) (congrArg (String.toList · ++ []) heq)).1

/-! ## Properties, filters and operations -/

/-- The other name of a property behind its type. -/
def aliasText (aliasName : Option Identifier) : List Char :=
  match aliasName with
  | none => []
  | some i => " as ".toList ++ i.text.toList

theorem stops_aliasText (aliasName : Option Identifier) : Stops isTypeChar (aliasText aliasName) := by
  cases aliasName with
  | none => exact .nil
  | some i => exact .cons rfl

theorem aliasText_injective {i j : Option Identifier} (h : aliasText i = aliasText j) : i = j := by
  cases i with
  | none => cases j with
    | none => rfl
    | some j => cases h
  | some i => cases j with
    | none => cases h
    | some j => rw [Identifier.ext (String.toList_inj.1 (List.append_cancel_left h))]

theorem toList_atomText (a : GraphAtom) : (g.atomText a).toList =
    a.name.text.toList ++ (':' :: ' ' :: ((g.typeText a.type).toList ++ aliasText a.aliasName)) := by
  unfold atomText
  cases a.aliasName <;> simp [aliasText, String.toList_append]

/-- **A property or filter is known from its line**, annotations aside. -/
theorem atomText_inj {a b : GraphAtom} (ha : g.IsNamed a.type.lookup) (hb : h.IsNamed b.type.lookup)
    (heq : g.atomText a = h.atomText b) : a.untagged.map g.typeName? = b.untagged.map h.typeName? := by
  have htext := congrArg String.toList heq
  rw [toList_atomText, toList_atomText] at htext
  obtain ⟨hname, hrest⟩ := Identifier.append_inj (.cons rfl) (.cons rfl) htext
  obtain ⟨htype, hend⟩ := typeText_append_inj ha hb (stops_aliasText _) (stops_aliasText _)
    (List.cons.inj (List.cons.inj hrest).2).2
  simp only [AtomSymbol.map, AtomSymbol.untagged, AtomSymbol.mk.injEq]
  exact ⟨hname, trivial, htype, aliasText_injective hend⟩

/-- **The argument and the result of an operation are known from the text.** -/
theorem signatureText_inj {kind : OperationKind} {o p : OperationSymbol (Option TypeRef)} (ho : o.IsPlain kind)
    (hp : p.IsPlain kind) (horesult : g.IsNamed o.result.lookup) (hpresult : h.IsNamed p.result.lookup)
    (hoargument : ∀ a, o.argument = some a → g.IsNamed a.type.lookup)
    (hpargument : ∀ a, p.argument = some a → h.IsNamed a.type.lookup)
    (heq : g.signatureText o = h.signatureText p) : o.untagged.map g.typeName? = p.untagged.map h.typeName? := by
  obtain ⟨okind, result, argument⟩ := o
  obtain ⟨pkind, result', argument'⟩ := p
  obtain ⟨rfl, halias⟩ := ho
  obtain ⟨hkind, halias'⟩ := hp
  cases hkind
  have htext := congrArg String.toList heq
  cases argument with
  | none => cases argument' with
    | none =>
      have hsame : (g.typeText result).toList = (h.typeText result').toList := by
        simpa [signatureText, String.toList_append] using htext
      simp [OperationSymbol.map, OperationSymbol.untagged, typeText_inj horesult hpresult hsame]
    | some a => simp [signatureText, String.toList_append] at htext
  | some a => cases argument' with
    | none => simp [signatureText, String.toList_append] at htext
    | some b =>
      have hsame : a.name.text.toList ++ (':' :: ' ' :: ((g.typeText a.type).toList ++
          (')' :: ' ' :: '-' :: '>' :: ' ' :: (g.typeText result).toList))) = b.name.text.toList ++ (':' :: ' ' ::
            ((h.typeText b.type).toList ++ (')' :: ' ' :: '-' :: '>' :: ' ' :: (h.typeText result').toList))) := by
        simpa [signatureText, String.toList_append] using htext
      obtain ⟨hname, hrest⟩ := Identifier.append_inj (.cons rfl) (.cons rfl) hsame
      obtain ⟨htype, hend⟩ := typeText_append_inj (hoargument a rfl) (hpargument b rfl) (.cons rfl) (.cons rfl)
        (List.cons.inj (List.cons.inj hrest).2).2
      have hresult := typeText_inj horesult hpresult (by simpa using hend)
      simp [OperationSymbol.map, OperationSymbol.untagged, AtomSymbol.map, AtomSymbol.untagged, hname, htype, hresult,
        halias a rfl, halias' b rfl]

/-! ## Names by which values are compared -/

/-- What stands behind the first of several names in brackets. -/
def namesTail : List Identifier → List Char
  | [] => [')']
  | i :: is => ',' :: ' ' :: (i.text.toList ++ namesTail is)

theorem toList_names (i : Identifier) : ∀ is : List Identifier,
    (", ".intercalate ((i :: is).map (·.text))).toList ++ [')'] = i.text.toList ++ namesTail is
  | [] => by simp [namesTail]
  | j :: is => by
    have ih := toList_names j is
    rw [List.map_cons] at ih
    rw [List.map_cons, List.map_cons, String.intercalate_cons_cons, namesTail, ← ih]
    simp [String.toList_append]

theorem stops_namesTail : ∀ is : List Identifier, Stops Char.isAlphanum (namesTail is)
  | [] | _ :: _ => .cons rfl

theorem namesTail_inj : ∀ {is js : List Identifier}, namesTail is = namesTail js → is = js
  | [], [], _ => rfl
  | [], _ :: _, h => by cases (List.cons.inj h).1
  | _ :: _, [], h => by cases (List.cons.inj h).1
  | i :: is, j :: js, h => by
    obtain ⟨hij, hrest⟩ :=
      Identifier.append_inj (stops_namesTail is) (stops_namesTail js) (List.cons.inj (List.cons.inj h).2).2
    rw [hij, namesTail_inj hrest]

theorem toList_equalByText (i : Identifier) (is : List Identifier) :
    (equalByText (i :: is)).toList = " equal by (".toList ++ (i.text.toList ++ namesTail is) := by
  rw [← toList_names, equalByText, List.isEmpty_cons, if_neg (by decide), String.toList_append, String.toList_append,
    List.append_assoc]
  rfl

theorem stops_equalByText (equalBy : List Identifier) : Stops isNameChar (equalByText equalBy).toList := by
  cases equalBy with
  | nil => simp [equalByText]
  | cons i is =>
    rw [toList_equalByText]
    exact .cons rfl

/-- **The names are known from the text**, even if they are as the words around them. -/
theorem equalByText_inj {is js : List Identifier} (heq : equalByText is = equalByText js) : is = js := by
  have htext := congrArg String.toList heq
  cases is with
  | nil => cases js with
    | nil => rfl
    | cons j js =>
      rw [toList_equalByText] at htext
      cases htext
  | cons i is => cases js with
    | nil =>
      rw [toList_equalByText] at htext
      cases htext
    | cons j js =>
      rw [toList_equalByText, toList_equalByText] at htext
      obtain ⟨hij, hrest⟩ :=
        Identifier.append_inj (stops_namesTail is) (stops_namesTail js) (List.append_cancel_left htext)
      rw [hij, namesTail_inj hrest]

/-! ## Contents -/

/-- An entity with an identity or a base is known from what stands behind its name. -/
theorem entityText_inj {isAbstract isAbstract' : Bool} {identity identity' : Option (TypeUse (Option TypeRef))}
    {base base' : Option (Option TypeRef)} {events events' : Children} (hone : identity = none ∨ base = none)
    (hone' : identity' = none ∨ base' = none) (hidentity : ∀ t, identity = some t → g.IsNamed t.lookup)
    (hidentity' : ∀ t, identity' = some t → h.IsNamed t.lookup) (hbase : ∀ r, base = some r → g.IsNamed r)
    (hbase' : ∀ r, base' = some r → h.IsNamed r)
    (heq : g.restText (.entity isAbstract identity base events) =
      h.restText (.entity isAbstract' identity' base' events')) :
    identity.map (·.map g.typeName?) = identity'.map (·.map h.typeName?) ∧
      base.map g.typeName? = base'.map h.typeName? := by
  cases identity with
  | none => cases identity' with
    | none => exact ⟨rfl, baseText_inj hbase hbase' heq⟩
    | some u =>
      have htext := congrArg String.toList heq
      cases base <;> simp [restText, baseText, String.toList_append] at htext
  | some t => cases identity' with
    | none =>
      have htext := congrArg String.toList heq
      cases base' <;> simp [restText, baseText, String.toList_append] at htext
    | some u =>
      obtain rfl : base = none := hone.resolve_left (by simp)
      obtain rfl : base' = none := hone'.resolve_left (by simp)
      have htext : (g.typeText t).toList = (h.typeText u).toList := by
        simpa [restText, String.toList_append] using congrArg String.toList heq
      exact ⟨congrArg some (typeText_inj (hidentity t rfl) (hidentity' u rfl) htext), rfl⟩

/-- The base of a value and the names by which it is compared are known from what stands behind its name. -/
theorem valueText_inj {base base' : Option (Option TypeRef)} {equalBy equalBy' : List Identifier}
    (hbase : ∀ r, base = some r → g.IsNamed r) (hbase' : ∀ r, base' = some r → h.IsNamed r)
    (heq : g.baseText base ++ equalByText equalBy = h.baseText base' ++ equalByText equalBy') :
    base.map g.typeName? = base'.map h.typeName? ∧ equalBy = equalBy' := by
  have hcolon : ∀ is, ¬ [' ', ':'] <+: (equalByText is).toList := by
    intro is
    cases is with
    | nil => simp [equalByText]
    | cons i is => simp [toList_equalByText]
  have htext := congrArg String.toList heq
  rw [String.toList_append, String.toList_append] at htext
  obtain ⟨hname, hend⟩ :=
    baseText_append_inj hbase hbase' (stops_equalByText _) (stops_equalByText _) (hcolon _) (hcolon _) htext
  exact ⟨hname, equalByText_inj (String.toList_inj.1 hend)⟩

/-- **The lookups of a symbol show full names.** -/
def Named (g : Graph) (x : GraphSymbol) : Prop := ∀ slot r, x.lookup? slot = some r → g.IsNamed r

namespace Named

variable {x y : GraphSymbol} (hx : g.Named x) (hy : h.Named y)
include hx

theorem identity {t : TypeUse (Option TypeRef)} (ht : x.content.identity? = some t) : g.IsNamed t.lookup :=
  hx .identity _ (by rw [Symbol.lookup?, ht]; rfl)

theorem atom {a : GraphAtom} (ha : a ∈ x.content.atoms) : g.IsNamed a.type.lookup := by
  rw [Content.atoms, List.mem_append] at ha
  rcases ha with ha | ha
  · obtain ⟨i, hi⟩ := List.mem_iff_getElem?.1 ha
    exact hx (.property i) _ (by rw [Symbol.lookup?, hi]; rfl)
  · obtain ⟨i, hi⟩ := List.mem_iff_getElem?.1 ha
    exact hx (.filter i) _ (by rw [Symbol.lookup?, hi]; rfl)

include hy

theorem operation_inj {kind : OperationKind} {o p : OperationSymbol (Option TypeRef)}
    (ho : x.content.operation? = some o) (hp : y.content.operation? = some p) (hplain : o.IsPlain kind)
    (hplain' : p.IsPlain kind) (heq : g.signatureText o = h.signatureText p) :
    o.untagged.map g.typeName? = p.untagged.map h.typeName? := by
  refine signatureText_inj hplain hplain' (hx .result _ ?_) (hy .result _ ?_) (fun a ha => hx .argument _ ?_)
    (fun a ha => hy .argument _ ?_) heq
  · simp [Symbol.lookup?, ho]
  · simp [Symbol.lookup?, hp]
  · simp [Symbol.lookup?, ho, ha]
  · simp [Symbol.lookup?, hp, ha]

theorem atoms_inj {as bs : List GraphAtom} (has : x.content.atoms = as) (hbs : y.content.atoms = bs)
    (hatoms : x.content.atoms.map g.atomText = y.content.atoms.map h.atomText) :
    (as.map (·.untagged)).map (·.map g.typeName?) = (bs.map (·.untagged)).map (·.map h.typeName?) := by
  subst has hbs
  rw [List.map_map, List.map_map]
  exact map_eq_map_of_imp (fun a ha b hb => atomText_inj (hx.atom ha) (hy.atom hb)) hatoms

end Named

/-- **A content is known from its lines**, annotations and children aside. -/
theorem content_inj {x y : GraphSymbol} (hx : g.Named x) (hy : h.Named y) (hplain : x.content.IsPlain)
    (hplain' : y.content.IsPlain) (hkind : x.content.kind = y.content.kind)
    (habstract : x.content.isAbstract? = y.content.isAbstract?) (hrest : g.restText x.content = h.restText y.content)
    (hatoms : x.content.atoms.map g.atomText = y.content.atoms.map h.atomText) :
    (x.content.untagged.map g.typeName?).childless = (y.content.untagged.map h.typeName?).childless := by
  obtain ⟨name, parent, tags, content⟩ := x
  obtain ⟨name', parent', tags', content'⟩ := y
  cases content with
  | space => cases content' with
    | space => rfl
    | _ => cases hkind
  | entity isAbstract => cases content' with
    | entity =>
      cases habstract
      obtain ⟨hidentity, hbase⟩ := entityText_inj hplain hplain' (fun _ => hx.identity) (fun _ => hy.identity)
        (hx .base) (hy .base) hrest
      exact congrArg₂ (Content.entity isAbstract · · .unassigned) hidentity hbase
    | _ => cases hkind
  | event isAbstract => cases content' with
    | event =>
      cases habstract
      have hproperties := hx.atoms_inj hy (List.append_nil _) (List.append_nil _) hatoms
      exact congrArg₂ (Content.event isAbstract) (baseText_inj (hx .base) (hy .base) hrest) hproperties
    | _ => cases hkind
  | complexValue isAbstract => cases content' with
    | complexValue =>
      cases habstract
      have hproperties := hx.atoms_inj hy (List.append_nil _) (List.append_nil _) hatoms
      obtain ⟨hbase, rfl⟩ := valueText_inj (hx .base) (hy .base) hrest
      exact congrArg₂ (Content.complexValue isAbstract · · _) hbase hproperties
    | _ => cases hkind
  | externalValue => cases content' with
    | externalValue => exact congrArg Content.externalValue (baseText_inj (hx .base) (hy .base) hrest)
    | _ => cases hkind
  | externalEnum => cases content' with
    | externalEnum => rfl
    | _ => cases hkind
  | webApi => cases content' with
    | webApi =>
      exact congrArg₂ (Content.webApi · · .unassigned) (hx.operation_inj hy rfl rfl hplain hplain' hrest)
        (hx.atoms_inj hy rfl rfl hatoms)
    | _ => cases hkind
  | path => cases content' with
    | path =>
      exact congrArg₂ (Content.path · · .unassigned) (hx.operation_inj hy rfl rfl hplain hplain' hrest)
        (hx.atoms_inj hy rfl rfl hatoms)
    | _ => cases hkind
  | query => cases content' with
    | query =>
      exact congrArg₂ Content.query (hx.operation_inj hy rfl rfl hplain hplain' hrest) (hx.atoms_inj hy rfl rfl hatoms)
    | _ => cases hkind
  | command => cases content' with
    | command => exact congrArg Content.command (hx.operation_inj hy rfl rfl hplain hplain' hrest)
    | _ => cases hkind

/-! ## Lines -/

theorem stops_restText (c : Content (Option TypeRef)) : Stops isNameChar (g.restText c).toList := by
  have hbase : ∀ (base : Option (Option TypeRef)) {cs : List Char}, Stops isNameChar cs →
      Stops isNameChar ((g.baseText base).toList ++ cs) := by
    intro base cs hcs
    cases base with
    | none => simpa [baseText] using hcs
    | some r => simp [baseText, String.toList_append, isNameChar]
  have hlast : ∀ base : Option (Option TypeRef), Stops isNameChar (g.baseText base).toList := by
    intro base
    simpa using hbase base (.nil)
  have hsignature : ∀ o : OperationSymbol (Option TypeRef), Stops isNameChar (g.signatureText o).toList := by
    intro o
    unfold signatureText
    cases o.argument <;> simp [String.toList_append, isNameChar]
  cases c with
  | space | externalEnum => simp [restText]
  | entity _ identity base _ =>
    cases identity with
    | none => exact hlast base
    | some t => simp [restText, String.toList_append, isNameChar]
  | event _ base | externalValue base => exact hlast base
  | complexValue _ base _ equalBy =>
    rw [restText, String.toList_append]
    exact hbase base (stops_equalByText equalBy)
  | webApi o | path o | query o | command o => exact hsignature o

/-- **The parts of the line of a symbol are known from the line.** -/
theorem symbolText_inj {i j : SymbolId} {x y : GraphSymbol} (heq : g.symbolText i x = h.symbolText j y) :
    (x.content.kind = y.content.kind ∧ x.content.isAbstract? = y.content.isAbstract?) ∧
      g.nameText i x = h.nameText j y ∧ g.restText x.content = h.restText y.content := by
  have htext := congrArg String.toList heq
  simp only [symbolText_eq, String.toList_append] at htext
  -- Both heads begin the line, so one of them begins the other.
  have hheads : (x.content.kind, x.content.isAbstract?) = (y.content.kind, y.content.isAbstract?) := by
    have hmem := x.content.mem_headed
    have hmem' := y.content.mem_headed
    rcases List.prefix_or_prefix_of_prefix (List.prefix_append _ _) (htext ▸ List.prefix_append _ _) with hp | hp
    · exact (SymbolKind.eq_of_head_prefix _ hmem' _ hmem hp).symm
    · exact SymbolKind.eq_of_head_prefix _ hmem _ hmem' hp
  rw [hheads] at htext
  obtain ⟨hname, hrest⟩ := append_inj_of_all (g.all_isNameChar_nameText i x) (h.all_isNameChar_nameText j y)
    (stops_restText _) (stops_restText _) (List.append_cancel_left htext)
  exact ⟨Prod.mk.inj hheads, String.toList_inj.1 hname, String.toList_inj.1 hrest⟩

theorem name_of_nameText_eq {i j : SymbolId} {x y : GraphSymbol}
    (hx : ∃ name, g.fullName? i = some name ∧ name.last = x.name)
    (hy : ∃ name, h.fullName? j = some name ∧ name.last = y.name) (hkind : x.kind = y.kind)
    (heq : g.nameText i x = h.nameText j y) : x.name = y.name := by
  obtain ⟨m, hm, hmlast⟩ := hx
  obtain ⟨n, hn, hnlast⟩ := hy
  unfold nameText at heq
  rw [hkind] at heq
  split at heq
  · rw [hm, hn] at heq
    rw [← hmlast, ← hnlast, QualifiedName.text_injective heq]
  · exact Identifier.ext heq

end Graph
end DomainModel
