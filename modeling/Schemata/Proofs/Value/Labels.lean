import Schemata.Proofs.Model.Naming
import Schemata.Proofs.Value.Spelling

/-!
# Labels around contents

The text of a value is put together from the texts of its contents, the names of its fields and its
label. Where names are words and the texts of the contents are pieces, it is a piece
(`Print.isPiece_assemble`), and from it one reads the constructor and the texts of the contents
(`Print.eq_of_assemble_eq`). It is the mark for absent contents only where a constructor is named so
and has no fields (`Print.eq_nil_of_assemble_eq_absentMark`).
-/

namespace Schemata

namespace Print

variable {b b' : Built} {t : TypeDef} {c c' : Constructor} {contents : List Datum}
  {texts texts' : List String} {fs : List Field}

/-! ## Contents behind field names -/

/-- The texts of contents, each behind the name of its field. -/
def labelled (fs : List Field) (texts : List String) : List String :=
  List.zipWith (fun f text => f.name ++ "=" ++ text) fs texts

theorem isPiece_labelled (hfs : ∀ f ∈ fs, Token.IsWord f.name) (h : ∀ t ∈ texts, Text.IsPiece t) :
    ∀ t ∈ labelled fs texts, Text.IsPiece t := by
  induction fs generalizing texts with
  | nil => exact fun t ht => by cases ht
  | cons f fs ih =>
    cases texts with
    | nil => exact fun t ht => by cases ht
    | cons text texts =>
      obtain ⟨hf, hfs⟩ := List.forall_mem_cons.mp hfs
      obtain ⟨htext, h⟩ := List.forall_mem_cons.mp h
      have hequals : Text.IsPiece "=" := .of_plain (by decide) (by simp [Text.Plain])
      exact List.forall_mem_cons.mpr ⟨(hf.isPiece.append hequals).append htext, ih hfs h⟩

theorem labelled_injective (hlength : texts.length = fs.length)
    (hlength' : texts'.length = fs.length) (h : labelled fs texts = labelled fs texts') :
    texts = texts' := by
  induction fs generalizing texts texts' with
  | nil => rw [List.length_eq_zero_iff.mp hlength, List.length_eq_zero_iff.mp hlength']
  | cons f fs ih =>
    cases texts with
    | nil => cases hlength
    | cons t texts =>
      cases texts' with
      | nil => cases hlength'
      | cons t' texts' =>
        obtain ⟨hhead, htail⟩ := List.cons.inj h
        rw [ih (Nat.succ.inj hlength) (Nat.succ.inj hlength') htail]
        rw [(String.append_right_inj _).mp hhead]

/-! ## Constructors -/

/-- The text of a value with the constructor. -/
def constructorText (c : Constructor) (texts : List String) : String :=
  if c.fields = [] then c.name
  else c.name ++ ("(" ++ ", ".intercalate (labelled c.fields texts) ++ ")")

theorem isPiece_constructorText (hname : Token.IsWord c.name)
    (hfs : ∀ f ∈ c.fields, Token.IsWord f.name) (h : ∀ t ∈ texts, Text.IsPiece t) :
    Text.IsPiece (constructorText c texts) := by
  unfold constructorText
  split
  · exact hname.isPiece
  · refine hname.isPiece.append (.enclosed (.inl ⟨rfl, rfl⟩) fun t ht => ?_)
    exact (isPiece_labelled hfs h t ht).piece

/-- The text begins with the name, behind which no word goes on. -/
theorem exists_toList_constructorText (c : Constructor) (texts : List String) :
    ∃ rest : List Char, (constructorText c texts).toList = c.name.toList ++ rest ∧
      ∀ d ∈ rest.head?, Token.isWordPart d = false := by
  unfold constructorText
  split
  · exact ⟨[], by simp, by simp⟩
  · refine ⟨'(' :: ((", ".intercalate (labelled c.fields texts)).toList ++ [')']), by simp, ?_⟩
    intro d hd
    obtain rfl := Option.some.inj hd
    decide

/-- Words that are followed by no character of a word are read back. -/
theorem word_append_inj {s s' : String} {x y : List Char} (hs : Token.IsWord s)
    (hs' : Token.IsWord s') (hx : ∀ c ∈ x.head?, Token.isWordPart c = false)
    (hy : ∀ c ∈ y.head?, Token.isWordPart c = false) (h : s.toList ++ x = s'.toList ++ y) :
    s = s' := by
  have hread {s : String} {x : List Char} (hs : Token.IsWord s)
      (hx : ∀ c ∈ x.head?, Token.isWordPart c = false) :
      (s.toList ++ x).takeWhile Token.isWordPart = s.toList := by
    obtain ⟨c, cs, htext, hc, hcs⟩ := hs
    have hall : ∀ d ∈ s.toList, Token.isWordPart d = true := by
      rw [htext]
      exact List.forall_mem_cons.mpr ⟨Token.isWordPart_of_isWordStart hc, hcs⟩
    have hrest : x.takeWhile Token.isWordPart = [] := by
      cases x with
      | nil => rfl
      | cons d x => rw [List.takeWhile_cons, hx d rfl]; rfl
    rw [List.takeWhile_append_of_pos hall, hrest, List.append_nil]
  refine String.toList_injective ?_
  rw [← hread hs hx, h, hread hs' hy]

theorem name_eq_of_constructorText_eq (hc : Token.IsWord c.name) (hc' : Token.IsWord c'.name)
    (h : constructorText c texts = constructorText c' texts') : c.name = c'.name := by
  obtain ⟨x, hx, hxhead⟩ := exists_toList_constructorText c texts
  obtain ⟨y, hy, hyhead⟩ := exists_toList_constructorText c' texts'
  exact word_append_inj hc hc' hxhead hyhead (hx.symm.trans ((congrArg String.toList h).trans hy))

theorem constructorText_injective (hfs : ∀ f ∈ c.fields, Token.IsWord f.name)
    (hpieces : ∀ t ∈ texts, Text.IsPiece t) (hpieces' : ∀ t ∈ texts', Text.IsPiece t)
    (hlength : texts.length = c.fields.length) (hlength' : texts'.length = c.fields.length)
    (h : constructorText c texts = constructorText c texts') : texts = texts' := by
  by_cases hempty : c.fields = []
  · rw [hempty] at hlength hlength'
    rw [List.length_eq_zero_iff.mp hlength, List.length_eq_zero_iff.mp hlength']
  · simp only [constructorText, if_neg hempty] at h
    have hbrackets := (String.append_right_inj _).mp h
    refine labelled_injective hlength hlength' (Text.IsPiece.intercalate_inj
      (isPiece_labelled hfs hpieces) (isPiece_labelled hfs hpieces') ?_)
    exact (String.append_right_inj _).mp ((String.append_left_inj _).mp hbrackets)

theorem eq_nil_of_constructorText_eq_absentMark (h : constructorText c texts = absentMark) :
    c.name = absentMark ∧ c.fields = [] := by
  by_cases hempty : c.fields = []
  · simp only [constructorText, if_pos hempty] at h
    exact ⟨h, hempty⟩
  · have hmem : '(' ∈ (constructorText c texts).toList := by
      simp [constructorText, if_neg hempty]
    rw [h] at hmem
    exact absurd hmem (by decide)

/-! ## Values -/

theorem assemble_product (hshape : t.shape = .product fs) :
    assemble (Built.shape ⟨t, none, contents⟩) texts = "(" ++ ", ".intercalate texts ++ ")" := by
  have hkind : t.kind = .product := by rw [TypeDef.kind, hshape]; rfl
  simp only [assemble, Built.shape, hkind]

theorem assemble_sum {cs : List Constructor} {attributes : List Field}
    (hshape : t.shape = .sum cs attributes) :
    assemble (Built.shape ⟨t, some c, contents⟩) texts = constructorText c texts := by
  have hkind : t.kind = .sum := by rw [TypeDef.kind, hshape]; rfl
  simp only [assemble, Built.shape, hkind, Construct.declared, List.isEmpty_iff, constructorText,
    labelled, String.append_assoc]
  rfl

theorem isPiece_assemble (hb : b.type.Alternative b.constructor) (hnamed : b.type.Named)
    (h : ∀ t ∈ texts, Text.IsPiece t) : Text.IsPiece (assemble b.shape texts) := by
  obtain ⟨t, c, contents⟩ := b
  have hfs := hnamed.fields c hb
  cases hb with
  | product hshape =>
    rw [assemble_product hshape]
    exact .enclosed (.inl ⟨rfl, rfl⟩) fun t ht => (h t ht).piece
  | sum hshape hc =>
    rw [assemble_sum hshape]
    exact isPiece_constructorText (hnamed.label (.sum hshape hc)) hfs h

/-- The constructor and the texts of the contents are read from the text of a value. -/
theorem eq_of_assemble_eq (htype : b'.type = b.type) (hb : b.type.Alternative b.constructor)
    (hb' : b'.type.Alternative b'.constructor) (hnamed : b.type.Named)
    (hdistinct : b.type.Distinct) (hpieces : ∀ t ∈ texts, Text.IsPiece t)
    (hpieces' : ∀ t ∈ texts', Text.IsPiece t) (hlength : texts.length = b.shape.declared.length)
    (hlength' : texts'.length = b'.shape.declared.length)
    (h : assemble b.shape texts = assemble b'.shape texts') :
    b.constructor = b'.constructor ∧ texts = texts' := by
  obtain ⟨t, c, contents⟩ := b
  obtain ⟨t', c', contents'⟩ := b'
  obtain rfl : t' = t := htype
  cases hb with
  | product hshape =>
    cases hb' with
    | product hshape' =>
      rw [assemble_product hshape, assemble_product hshape'] at h
      refine ⟨rfl, Text.IsPiece.intercalate_inj hpieces hpieces' ?_⟩
      exact (String.append_right_inj _).mp ((String.append_left_inj _).mp h)
    | sum hshape' _ => cases hshape.symm.trans hshape'
  | @sum cs attributes c hshape hc =>
    cases hb' with
    | product hshape' => cases hshape.symm.trans hshape'
    | @sum _ _ c' hshape' hc' =>
      rw [assemble_sum hshape, assemble_sum hshape'] at h
      have hname := name_eq_of_constructorText_eq (hnamed.label (.sum hshape hc))
        (hnamed.label (.sum hshape' hc')) h
      obtain ⟨rfl, rfl⟩ := TypeShape.sum.inj (hshape.symm.trans hshape')
      have hconstructors : t'.constructors = cs := by rw [TypeDef.constructors, hshape]
      obtain rfl : c = c' := List.inj_on_of_nodup_map hdistinct.constructors
        (hconstructors ▸ hc) (hconstructors ▸ hc') hname
      exact ⟨rfl, constructorText_injective (hnamed.fields _ (.sum hshape hc)) hpieces hpieces'
        hlength hlength' h⟩

/-- Of the values only those of a constructor without fields are written like an absent content. -/
theorem eq_nil_of_assemble_eq_absentMark (hb : b.type.Alternative b.constructor)
    (h : assemble b.shape texts = absentMark) :
    ∃ k ∈ b.type.constructors, k.name = absentMark ∧ k.fields = [] := by
  obtain ⟨t, c, contents⟩ := b
  cases hb with
  | product hshape =>
    rw [assemble_product hshape] at h
    have hlist := congrArg String.toList h
    simp only [String.toList_append] at hlist
    exact absurd (List.cons.inj hlist).1 (by decide)
  | @sum cs attributes c hshape hc =>
    rw [assemble_sum hshape] at h
    exact ⟨c, by rwa [TypeDef.constructors, hshape], eq_nil_of_constructorText_eq_absentMark h⟩

end Print

end Schemata
