import Schemata.Proofs.Session.Texts
import Schemata.Proofs.Value.Labels

/-!
# What a text tells about the value

In a model made by loads of texts all names are words, so that the text of a constructed value is a
piece, from which the constructor and the texts of the contents are read. By induction two
constructed values of one type that are printed alike are alike (`Session.Sound.alike_of_shows`).
There are two exceptions: a constructor with the name `_` and without fields is written like an
absent content, so nothing is known where one gets to an optional field of its type
(`Model.Ambiguous`), and a list that is nothing but a hole is written like an empty one
(`Store.Solid`).
-/

namespace Schemata

/-- `u` is a type of the model, and some value of `t` has a field of it. -/
def Model.Refers (m : Model) (t u : TypeDef) : Prop := u ∈ m.types ∧ t.RefersTo u.key

/-- One gets from the type, going from types to those of their fields, to a type with an optional
field of a type that has a constructor written like an absent content. -/
def Model.Ambiguous (m : Model) (t : TypeDef) : Prop :=
  ∃ u, Relation.ReflTransGen m.Refers t u ∧
    ∃ c, u.Alternative c ∧ ∃ f ∈ Construct.declared u c, f.multiplicity = .optional ∧
      ∃ v ∈ m.types, f.type = .declared v.key ∧
        ∃ k ∈ v.constructors, k.name = Print.absentMark ∧ k.fields = []

/-- The datum is an element of the type in which all values are constructed and no list is nothing
but a hole, and the text is its text for some depth limit. -/
structure Store.Shows (s : Store) (type : TypeRef) (d : Datum) (text : String) : Prop where
  hasType : s.HasType type d
  constructed : s.Constructed d
  solid : s.Solid d
  text : ∃ tooDeep levels place, Print.element (Print.value s tooDeep levels) d place = .ok text

/-- The texts are those of the contents of the value, and `P` holds of the elements in them. -/
def Store.ShowsContents (s : Store) (P : TypeRef → Datum → Prop) (b : Built)
    (texts : List String) : Prop :=
  List.Forall₂ (fun f text => s.Spells (fun e text => P f.type e ∧ s.Shows f.type e text) f
    (b.shape.content f) text) (Construct.declared b.type b.constructor) texts

/-- A reference to a declared type leads to a type of the model. -/
def Model.Covers (m : Model) (type : TypeRef) : Prop :=
  ∀ k, type = .declared k → ∃ t ∈ m.types, t.key = k

/-- A reference to a declared type leads to a type of the model that is not ambiguous. -/
def Model.Clear (m : Model) (type : TypeRef) : Prop :=
  ∀ k, type = .declared k → ∃ t ∈ m.types, t.key = k ∧ ¬ m.Ambiguous t

namespace Model

variable {m : Model} {next : Nat} {t : TypeDef} {c : Option Constructor} {f : Field}

theorem Sound.covers (h : m.Sound next) (ht : t ∈ m.types) (hc : t.Alternative c)
    (hf : f ∈ Construct.declared t c) : m.Covers f.type :=
  fun k hk => h.closed t ht k ⟨c, hc, f, hf, hk⟩

theorem Sound.clear (h : m.Sound next) (ht : t ∈ m.types) (hclear : ¬ m.Ambiguous t)
    (hc : t.Alternative c) (hf : f ∈ Construct.declared t c) : m.Clear f.type := by
  intro k hk
  obtain ⟨u, hu, hkey⟩ := h.covers ht hc hf k hk
  have hrefers : m.Refers t u := ⟨hu, c, hc, f, hf, hk.trans (congrArg TypeRef.declared hkey.symm)⟩
  exact ⟨u, hu, hkey, fun ⟨w, hway, hw⟩ => hclear ⟨w, .head hrefers hway, hw⟩⟩

end Model

namespace Session

variable {σ : Session} {m : Model} {next : Nat} {type : TypeRef} {r r' : Ref} {b b' : Built}
  {d d' : Datum} {text : String} {texts : List String}

/-- A constructed value of a type of the model is of the very type of the model. -/
theorem Sound.type_mem_model (h : σ.Sound) (hmem : m ∈ σ.models)
    (hb : σ.store.HasBuilt r b) (hcovers : m.Covers (.declared b.type.key)) :
    b.type ∈ m.types := by
  obtain ⟨t, ht, hkey⟩ := hcovers _ rfl
  have hbtype := h.type_mem hb.view? (Built.view_type b)
  rwa [h.eq_of_key_eq hbtype (mem_types hmem ht) hkey.symm]

/-- The text of a constructed value is put together from those of its elements. -/
theorem Sound.of_shows (h : σ.Sound) (hsealed : σ.store.Sealed)
    (hb : σ.store.HasBuilt r b) {P : TypeRef → Datum → Prop}
    (hcontents : List.Forall₂ (σ.store.Fits P) (Construct.declared b.type b.constructor) b.fields)
    (hP : ∀ type e, P type e → σ.store.HasType type e)
    (hshows : σ.store.Shows type (.object r) text) :
    ∃ texts, Print.assemble b.shape texts = text ∧ σ.store.ShowsContents P b texts := by
  obtain ⟨tooDeep, levels, place, htext⟩ := hshows.text
  obtain ⟨n, v, texts, rfl, hshape, htexts, rfl⟩ := Print.value_eq_ok.mp htext
  obtain rfl := Option.some.inj ((hsealed.shape?_of_hasBuilt hb).symm.trans hshape)
  refine ⟨texts, rfl, ?_⟩
  have hparts := Store.fits_reaches hb hcontents
  refine (Outcome.forall₂_mem_and (Print.forall₂_of_fields htexts)).imp
    fun f text ⟨hf, place, htext⟩ => ?_
  refine Print.spells_of_content (h.of_contents hsealed hb hparts hf) (fun e he => hP _ e he.1)
    (fun e text place he htext => ⟨he.1, hP _ e he.1, ?_, ?_, tooDeep, n, place, htext⟩) htext
  · exact hshows.constructed.of_reaches he.2
  · exact hshows.solid.of_reaches he.2

/-- The texts of elements of types of the model are pieces. -/
theorem Sound.isPiece_of_shows (h : σ.Sound) (hsealed : σ.store.Sealed) (hmem : m ∈ σ.models)
    (hm : m.Reachable next) (hcovers : m.Covers type) (hshows : σ.store.Shows type d text) :
    Text.IsPiece text := by
  suffices hall : ∀ text, m.Covers type → σ.store.Shows type d text → Text.IsPiece text from
    hall text hcovers hshows
  refine hsealed.element_induct (P := fun type d => ∀ text, m.Covers type →
    σ.store.Shows type d text → Text.IsPiece text) (fun p d hp => ?_) (fun r b hb _ hcontents => ?_)
    hshows.hasType hshows.constructed
  · rintro text - hshows
    obtain ⟨tooDeep, levels, place, htext⟩ := hshows.text
    exact p.isPiece_of_accepts hp htext
  · intro text hcovers hshows
    have halternative := hsealed.alternative hb
    have ht := h.type_mem_model hmem hb hcovers
    obtain ⟨texts, rfl, htexts⟩ := h.of_shows hsealed hb hcontents (fun _ _ he => he.1) hshows
    refine Print.isPiece_assemble halternative (hm.named_type ht) fun text htext => ?_
    obtain ⟨f, hf, hspells⟩ := Outcome.exists_of_mem_right htexts htext
    exact hspells.isPiece fun e text he => he.1.2 text (hm.sound.covers ht halternative hf) he.2

/-- In a type that is not ambiguous the texts of the elements of fields are told from each other and
from an absent content. -/
theorem Sound.legible_of_shows (h : σ.Sound) (hsealed : σ.store.Sealed) (hmem : m ∈ σ.models)
    (hm : m.Reachable next) {t : TypeDef} (ht : t ∈ m.types) (hclear : ¬ m.Ambiguous t)
    {c : Option Constructor} (hc : t.Alternative c) {f : Field}
    (hf : f ∈ Construct.declared t c) (hshows : σ.store.Shows f.type d text) :
    Print.Legible f text where
  isPiece := h.isPiece_of_shows hsealed hmem hm (hm.sound.covers ht hc hf) hshows
  ne_absentMark := by
    rintro hoptional rfl
    have hd := hshows.hasType
    cases hkey : f.type with
    | primitive p =>
      rw [hkey] at hd
      obtain ⟨tooDeep, levels, place, htext⟩ := hshows.text
      cases hd with
      | primitive hp => exact p.ne_absentMark_of_accepts hp htext rfl
    | declared key =>
      rw [hkey] at hd
      obtain ⟨r, b, rfl, hb, rfl⟩ := hsealed.exists_built hd hshows.constructed
      have hbmem := h.type_mem_model hmem hb (hkey ▸ hm.sound.covers ht hc hf)
      obtain ⟨texts, htexts, -⟩ :=
        h.of_shows hsealed hb (hsealed.contents hb) (fun _ _ he => he) hshows
      have hblank := Print.eq_nil_of_assemble_eq_absentMark (hsealed.alternative hb) htexts
      exact hclear ⟨t, .refl, c, hc, f, hf, hoptional, b.type, hbmem, hkey, hblank⟩

theorem Sound.pieces_of_showsContents (h : σ.Sound) (hsealed : σ.store.Sealed)
    (hmem : m ∈ σ.models) (hm : m.Reachable next) (ht : b.type ∈ m.types)
    (hclear : ¬ m.Ambiguous b.type) (hc : b.type.Alternative b.constructor)
    {P : TypeRef → Datum → Prop} (htexts : σ.store.ShowsContents P b texts) :
    ∀ text ∈ texts, Text.IsPiece text := by
  intro text htext
  obtain ⟨f, hf, hspells⟩ := Outcome.exists_of_mem_right htexts htext
  exact hspells.isPiece fun e text he =>
    (h.legible_of_shows hsealed hmem hm ht hclear hc hf he.2).isPiece

/-- Values of one type and constructor are alike if their contents are, field by field. -/
theorem Sound.alike_of_contents (h : σ.Sound) (hsealed : σ.store.Sealed)
    (hb : σ.store.HasBuilt r b) (hb' : σ.store.HasBuilt r' b')
    (htype : b'.type = b.type) (hconstructor : b.constructor = b'.constructor)
    (hall : ∀ f ∈ Construct.declared b.type b.constructor,
      σ.store.Alike (b.shape.content f) (b'.shape.content f)) :
    σ.store.Alike (.object r) (.object r') := by
  obtain ⟨t, c, contents⟩ := b
  obtain ⟨t', c', contents'⟩ := b'
  obtain rfl : t' = t := htype
  obtain rfl : c = c' := hconstructor
  exact .value hb hb' ((h.forall₂_contents_iff hsealed hb hb').mpr hall)

/-- Elements of one type that is not ambiguous are alike if they are written alike. -/
theorem Sound.alike_of_shows (h : σ.Sound) (hsealed : σ.store.Sealed) (hmem : m ∈ σ.models)
    (hm : m.Reachable next) (hclear : m.Clear type) (hshows : σ.store.Shows type d text)
    (hshows' : σ.store.Shows type d' text) : σ.store.Alike d d' := by
  suffices hall : ∀ d' text, m.Clear type → σ.store.Shows type d text → σ.store.Shows type d' text →
      σ.store.Alike d d' from hall d' text hclear hshows hshows'
  refine hsealed.element_induct (P := fun type d => ∀ d' text, m.Clear type →
    σ.store.Shows type d text → σ.store.Shows type d' text → σ.store.Alike d d')
    (fun p d hp => ?_) (fun r b hb _ hcontents => ?_) hshows.hasType hshows.constructed
  · rintro d' text - hshows hshows'
    obtain ⟨tooDeep, levels, place, htext⟩ := hshows.text
    obtain ⟨tooDeep', levels', place', htext'⟩ := hshows'.text
    cases hshows'.hasType with
    | primitive hp' => exact p.alike_of_text_eq hp hp' htext htext'
  · intro d' text hclear hshows hshows'
    obtain ⟨r', b', rfl, hb', hkey'⟩ := hsealed.exists_built hshows'.hasType hshows'.constructed
    obtain ⟨t, ht, hkey, hclear⟩ := hclear _ rfl
    -- a key belongs to one definition, so both values are of the type of the model
    have hbtype := h.type_mem hb.view? (Built.view_type b)
    have hbtype' := h.type_mem hb'.view? (Built.view_type b')
    obtain rfl : t = b.type := h.eq_of_key_eq (mem_types hmem ht) hbtype hkey
    have htype : b'.type = b.type := h.eq_of_key_eq hbtype' hbtype hkey'
    have hc := hsealed.alternative hb
    have hc' := hsealed.alternative hb'
    have ht' := htype ▸ ht
    have hclear' := htype ▸ hclear
    obtain ⟨texts, htext, htexts⟩ := h.of_shows hsealed hb hcontents (fun _ _ he => he.1) hshows
    obtain ⟨texts', htext', htexts'⟩ :=
      h.of_shows hsealed hb' (hsealed.contents hb') (fun _ _ he => he) hshows'
    obtain ⟨hconstructor, rfl⟩ := Print.eq_of_assemble_eq htype hc hc' (hm.named_type ht)
      (hm.sound.distinct _ ht) (h.pieces_of_showsContents hsealed hmem hm ht hclear hc htexts)
      (h.pieces_of_showsContents hsealed hmem hm ht' hclear' hc' htexts') htexts.length_eq.symm
      htexts'.length_eq.symm (htext.trans htext'.symm)
    refine h.alike_of_contents hsealed hb hb' htype hconstructor fun f hf => ?_
    rw [Store.ShowsContents, htype, ← hconstructor] at htexts'
    have hboth := htexts.mp (fun _ _ hleft hright => And.intro hleft hright) htexts'
    obtain ⟨text, -, hspells, hspells'⟩ := Outcome.exists_of_mem_left hboth hf
    have hlegible (e : Datum) (text : String) (he : σ.store.Shows f.type e text) :
        Print.Legible f text := h.legible_of_shows hsealed hmem hm ht hclear hc hf he
    exact hspells.alike hspells' (hshows.solid.content hb f.index) (hshows'.solid.content hb' f.index)
      (fun e text he => hlegible e text he.2) (fun e text he => hlegible e text he.2)
      fun e e' text he he' => he.1.2 e' text (hm.sound.clear ht hclear hc hf) he.2 he'.2

end Session

end Schemata
