import Schemata.Proofs.Value.Alike
import Schemata.Proofs.Value.Evolution
import Schemata.Proofs.Value.Reading

/-!
# How contents are spelled

`Store.Spells` says how the text of a content is made of those of its elements. Printing the content
of a field in its final form gives such a text (`Print.spells_of_content`). Where the texts of the
elements can be told from each other and from the mark for absent contents, contents that are
written alike are alike (`Store.Spells.alike`).
-/

namespace Schemata

/-- What a constructed value shows: its label and its contents for the declared fields. -/
def Built.shape (b : Built) : Shape :=
  ⟨b.type.kind, Construct.label b.type b.constructor, Construct.declared b.type b.constructor,
    b.fields⟩

theorem TypeDef.Alternative.shape?_view {b : Built} (h : b.type.Alternative b.constructor) :
    b.view.shape? = some b.shape := by
  obtain ⟨⟨key, position, shape⟩, c, fields⟩ := b
  cases h with
  | product hshape =>
    obtain rfl := hshape
    rfl
  | sum hshape _ =>
    obtain rfl := hshape
    rfl

namespace Store

variable {s : Store} {type : TypeRef} {d : Datum}

theorem HasType.list?_eq_none (h : s.HasType type d) : s.list? d = none := by
  cases hlist : s.list? d with
  | none => rfl
  | some items => exact absurd h (not_conforms_of_list? hlist type)

theorem HasType.isEmpty_eq_false (h : s.HasType type d) : s.isEmpty d = false := by
  cases type with
  | primitive p =>
    cases h with
    | primitive hp =>
      rcases Primitive.of_accepts hp with ⟨-, t, rfl⟩ | ⟨-, x, rfl, -⟩ | ⟨-, b, rfl⟩ <;> rfl
  | declared key =>
    obtain ⟨v, t, declared, hv, -⟩ := h.view?_of_declared
    exact isEmpty_of_view? hv

/-- An element is printed as itself where it is the content of a field. -/
theorem HasType.content_eq (h : s.HasType type d) (inner : Datum → Path → Except PrintError String)
    (place : Path) : Print.content s inner d place = Print.element inner d place := by
  rw [Print.content, h.isEmpty_eq_false, h.list?_eq_none]
  rfl

/-- How an item of a list is written: nothing in place of a hole. -/
def ItemText (E : Datum → String → Prop) : Option Datum → String → Prop
  | none, text => text = ""
  | some e, text => E e text

/-- How the text of a content is made of texts of its elements. -/
def Spells (s : Store) (E : Datum → String → Prop) (f : Field) (d : Datum) (text : String) : Prop :=
  match f.multiplicity with
  | .single => E d text
  | .optional => d = .absent ∧ text = Print.absentMark ∨ E d text
  | .repeated => ∃ r items texts, d = .object r ∧ s.get? r = some (.list true items) ∧
    List.Forall₂ (ItemText E) items texts ∧ text = "[" ++ ", ".intercalate texts ++ "]"

end Store

namespace Print

variable {s : Store} {inner : Datum → Path → Except PrintError String} {v : Shape}
  {fs : List Field} {f : Field} {d : Datum} {ds : List (Option Datum)} {place : Path} {index : Nat}
  {text : String} {texts : List String} {P : TypeRef → Datum → Prop}

theorem forall₂_of_items (h : items inner place index ds = .ok texts) :
    List.Forall₂ (Store.ItemText fun e text => ∃ place, element inner e place = .ok text) ds
      texts := by
  induction ds generalizing index texts with
  | nil =>
    obtain rfl := Except.ok.inj h
    exact .nil
  | cons item ds ih =>
    cases item with
    | none =>
      obtain ⟨rest, hrest, h⟩ := Outcome.bind_eq_ok.mp h
      obtain rfl := Outcome.pure_eq_ok.mp h
      exact .cons rfl (ih hrest)
    | some d =>
      obtain ⟨text, htext, h⟩ := Outcome.bind_eq_ok.mp h
      obtain ⟨rest, hrest, h⟩ := Outcome.bind_eq_ok.mp h
      obtain rfl := Outcome.pure_eq_ok.mp h
      exact .cons ⟨_, htext⟩ (ih hrest)

theorem exists_items_eq_ok
    (h : ∀ e, some e ∈ ds → ∀ place, ∃ text, element inner e place = .ok text) (place : Path)
    (index : Nat) : ∃ texts, items inner place index ds = .ok texts := by
  induction ds generalizing index with
  | nil => exact ⟨[], rfl⟩
  | cons item ds ih =>
    obtain ⟨rest, hrest⟩ := ih (fun e he => h e (List.mem_cons_of_mem _ he)) (index + 1)
    cases item with
    | none => exact ⟨"" :: rest, by rw [items, hrest]; rfl⟩
    | some d =>
      obtain ⟨text, htext⟩ := h d List.mem_cons_self (place.item index)
      refine ⟨text :: rest, ?_⟩
      rw [items, htext, Outcome.ok_bind, hrest]
      rfl

theorem forall₂_of_fields (h : fields s inner v place fs = .ok texts) :
    List.Forall₂ (fun f text => ∃ place, content s inner (v.content f) place = .ok text) fs
      texts := by
  induction fs generalizing texts with
  | nil =>
    obtain rfl := Except.ok.inj h
    exact .nil
  | cons f fs ih =>
    obtain ⟨text, htext, h⟩ := Outcome.bind_eq_ok.mp h
    obtain ⟨rest, hrest, h⟩ := Outcome.bind_eq_ok.mp h
    obtain rfl := Outcome.pure_eq_ok.mp h
    exact .cons ⟨_, htext⟩ (ih hrest)

theorem exists_fields_eq_ok
    (h : ∀ f ∈ fs, ∀ place, ∃ text, content s inner (v.content f) place = .ok text) (place : Path) :
    ∃ texts, fields s inner v place fs = .ok texts := by
  induction fs with
  | nil => exact ⟨[], rfl⟩
  | cons f fs ih =>
    obtain ⟨hf, hfs⟩ := List.forall_mem_cons.mp h
    obtain ⟨text, htext⟩ := hf (place.field f.name)
    obtain ⟨rest, hrest⟩ := ih hfs
    refine ⟨text :: rest, ?_⟩
    rw [fields, htext, Outcome.ok_bind, hrest]
    rfl

/-- The text of a content in its final form is made of texts of its elements. -/
theorem spells_of_content {E : Datum → String → Prop} (h : s.Fits P f d)
    (hP : ∀ e, P f.type e → s.HasType f.type e)
    (hE : ∀ e text place, P f.type e → element inner e place = .ok text → E e text)
    (htext : content s inner d place = .ok text) : s.Spells E f d text := by
  unfold Store.Fits at h
  unfold Store.Spells
  have helement (he : P f.type d) : E d text :=
    hE d text place he ((hP d he).content_eq inner place ▸ htext)
  cases hm : f.multiplicity <;> simp only [hm] at h ⊢
  case single => exact helement h
  case optional =>
    rcases h with rfl | h
    · exact .inl ⟨rfl, (Except.ok.inj htext).symm⟩
    · exact .inr (helement h)
  case repeated =>
    obtain ⟨r, items, rfl, hr, hall⟩ := h
    have hlist := Store.list?_of_get? hr
    rw [content, Store.isEmpty_of_list? hlist, hlist] at htext
    obtain ⟨texts, htexts, htext⟩ := Outcome.bind_eq_ok.mp htext
    refine ⟨r, items, texts, rfl, hr, ?_, (Outcome.pure_eq_ok.mp htext).symm⟩
    refine (Outcome.forall₂_mem_and (forall₂_of_items htexts)).imp fun item text hitem => ?_
    obtain ⟨hmem, hitem⟩ := hitem
    cases item with
    | none => exact hitem
    | some e =>
      obtain ⟨place, he⟩ := hitem
      exact hE e text place (hall e hmem) he

theorem exists_content_eq_ok (h : s.Fits P f d) (hP : ∀ e, P f.type e → s.HasType f.type e ∧
      ∀ place, ∃ text, element inner e place = .ok text) (place : Path) :
    ∃ text, content s inner d place = .ok text := by
  unfold Store.Fits at h
  have helement (e : Datum) (he : P f.type e) : ∃ text, content s inner e place = .ok text := by
    obtain ⟨htype, htext⟩ := hP e he
    obtain ⟨text, htext⟩ := htext place
    exact ⟨text, (htype.content_eq inner place).trans htext⟩
  cases hm : f.multiplicity <;> simp only [hm] at h
  case single => exact helement d h
  case optional =>
    rcases h with rfl | h
    · exact ⟨_, rfl⟩
    · exact helement d h
  case repeated =>
    obtain ⟨r, items, rfl, hr, hall⟩ := h
    have hlist := Store.list?_of_get? hr
    obtain ⟨texts, htexts⟩ := exists_items_eq_ok (fun e he => (hP e (hall e he)).2) place 0
    refine ⟨"[" ++ ", ".intercalate texts ++ "]", ?_⟩
    rw [content, Store.isEmpty_of_list? hlist, hlist]
    dsimp only
    rw [if_neg Bool.false_ne_true, htexts]
    rfl

end Print

/-! ## Spelled contents -/

/-- The text of an element of the field is a piece, which is not taken for an absent content. -/
structure Print.Legible (f : Field) (text : String) : Prop where
  isPiece : Text.IsPiece text
  ne_absentMark : f.multiplicity = .optional → text ≠ Print.absentMark

namespace Store

variable {s : Store} {f : Field} {d d' : Datum} {text : String} {E E' : Datum → String → Prop}
  {item : Option Datum} {items : List (Option Datum)} {texts : List String}

theorem ItemText.piece (h : ItemText E item text) (hE : ∀ e text, E e text → Text.IsPiece text) :
    Text.Piece 0 text.toList := by
  cases item with
  | none =>
    obtain rfl : text = "" := h
    exact .nil
  | some e => exact (hE e text h).piece

/-- Only a single hole is written as a single empty text. -/
theorem texts_ne_of_forall₂ (h : List.Forall₂ (ItemText E) items texts)
    (hE : ∀ e text, E e text → Text.IsPiece text) (hne : items ≠ [none]) : texts ≠ [""] := by
  rintro rfl
  obtain ⟨item, rest, hitem, hrest, rfl⟩ := List.forall₂_cons_right_iff.mp h
  obtain rfl := List.forall₂_nil_right_iff.mp hrest
  cases item with
  | none => exact hne rfl
  | some e => exact (hE e "" hitem).ne_nil rfl

/-- Items that are written alike are alike if the elements among them are. -/
theorem ItemText.alike {item' : Option Datum} (h : ItemText E item text)
    (h' : ItemText E' item' text) (hE : ∀ e text, E e text → Text.IsPiece text)
    (hE' : ∀ e text, E' e text → Text.IsPiece text)
    (halike : ∀ e e' text, E e text → E' e' text → s.Alike e e') :
    Option.Rel s.Alike item item' := by
  cases item with
  | none =>
    obtain rfl : text = "" := h
    cases item' with
    | none => exact .none
    | some e' => exact absurd rfl (hE' e' "" h').ne_nil
  | some e =>
    cases item' with
    | none =>
      obtain rfl : text = "" := h'
      exact absurd rfl (hE e "" h).ne_nil
    | some e' => exact .some (halike e e' text h h')

theorem Spells.isPiece (h : s.Spells E f d text) (hE : ∀ e text, E e text → Text.IsPiece text) :
    Text.IsPiece text := by
  unfold Spells at h
  cases hm : f.multiplicity <;> simp only [hm] at h
  case single => exact hE d text h
  case optional =>
    rcases h with ⟨-, rfl⟩ | h
    · exact .of_plain (by decide) (by simp [Print.absentMark, Text.Plain])
    · exact hE d text h
  case repeated =>
    obtain ⟨r, items, texts, -, -, htexts, rfl⟩ := h
    exact .enclosed (.inr ⟨rfl, rfl⟩)
      (Outcome.forall_right_of_forall₂ htexts fun item text hitem => hitem.piece hE)

/-- Contents that are written alike are alike if their elements are and neither is a single hole. -/
theorem Spells.alike (h : s.Spells E f d text) (h' : s.Spells E' f d' text)
    (hne : s.list? d ≠ some [none]) (hne' : s.list? d' ≠ some [none])
    (hE : ∀ e text, E e text → Print.Legible f text)
    (hE' : ∀ e text, E' e text → Print.Legible f text)
    (halike : ∀ e e' text, E e text → E' e' text → s.Alike e e') : s.Alike d d' := by
  unfold Spells at h h'
  cases hm : f.multiplicity <;> simp only [hm] at h h'
  case single => exact halike d d' text h h'
  case optional =>
    rcases h with ⟨rfl, htext⟩ | h <;> rcases h' with ⟨rfl, htext'⟩ | h'
    · exact .same fun r hr => by cases hr
    · exact absurd htext ((hE' _ _ h').ne_absentMark hm)
    · exact absurd htext' ((hE _ _ h).ne_absentMark hm)
    · exact halike d d' text h h'
  case repeated =>
    obtain ⟨r, items, texts, rfl, hr, htexts, rfl⟩ := h
    obtain ⟨r', items', texts', rfl, hr', htexts', heq⟩ := h'
    rw [list?_of_get? hr, ne_eq, Option.some.injEq] at hne
    rw [list?_of_get? hr', ne_eq, Option.some.injEq] at hne'
    have hpiece (e : Datum) (t : String) (he : E e t) := (hE e t he).isPiece
    have hpiece' (e : Datum) (t : String) (he : E' e t) := (hE' e t he).isPiece
    obtain rfl := Text.intercalate_inj
      (Outcome.forall_right_of_forall₂ htexts fun item t hitem => hitem.piece hpiece)
      (Outcome.forall_right_of_forall₂ htexts' fun item t hitem => hitem.piece hpiece')
      (texts_ne_of_forall₂ htexts hpiece hne) (texts_ne_of_forall₂ htexts' hpiece' hne')
      ((String.append_right_inj _).mp ((String.append_left_inj _).mp heq))
    exact .list hr hr' (Outcome.forall₂_of_common htexts htexts' fun item item' t h h' =>
      h.alike h' hpiece hpiece' halike)

end Store

end Schemata
