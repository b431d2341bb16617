import Schemata.Proofs.Session.Growth
import Schemata.Proofs.Session.Readability

/-!
# Different values with one text

In an ambiguous type there are two values that are not alike and have the same text. Where a
constructor is written like an absent content, the two are contents of an optional field
(`Session.contentConfusable_of_blank`), and from two such contents of a field, all other contents
being the same, one gets two such values of the type that has the field
(`Session.confusable_of_contents`), and so on along the way that leads to the field.
-/

namespace Schemata

namespace Store

/-- The text of the element if as many levels are allowed as there are nodes. -/
def ElementText (s : Store) (d : Datum) (text : String) : Prop :=
  ∀ tooDeep place, Print.element (Print.value s tooDeep s.size) d place = .ok text

/-- The text of the content if as many levels are allowed as there are nodes. -/
def ContentText (s : Store) (d : Datum) (text : String) : Prop :=
  ∀ tooDeep place, Print.content s (Print.value s tooDeep s.size) d place = .ok text

/-- The data are not alike, and will not be. -/
def Differ (s : Store) (x y : Datum) : Prop := ∀ s', s.Extends s' → ¬ s'.Alike x y

variable {s s' : Store} {type : TypeRef} {d x y : Datum} {text : String} {f : Field}

theorem ElementText.sameBelow (h : s.ElementText d text) (hs : s.SameBelow s' d)
    (hsize : s.size ≤ s'.size) : s'.ElementText d text := by
  intro tooDeep place
  have hvalue (hd : Print.value s tooDeep s.size d place = .ok text) :
      Print.value s' tooDeep s'.size d place = .ok text := by
    rw [Print.value_sameBelow hs]
    exact Print.value_mono hsize hd
  have htext := h tooDeep place
  cases d <;> first | exact htext | exact hvalue htext

theorem ElementText.content (h : s.ElementText d text) (hd : s.HasType type d) :
    s.ContentText d text :=
  fun tooDeep place => (hd.content_eq _ place).trans (h tooDeep place)

/-- The same content in its final form is written in the same way. -/
theorem content_eq_of_settles (hx : Construct.Settles s s' f d x)
    (hy : Construct.Settles s s' f d y) (inner : Datum → Path → Except PrintError String) (place : Path) :
    Print.content s' inner x place = Print.content s' inner y place := by
  unfold Construct.Settles at hx hy
  cases hm : f.multiplicity <;> simp only [hm] at hx hy
  case single => rw [hx, hy]
  case optional => rw [hx, hy]
  case repeated =>
    obtain ⟨l, rfl, hl⟩ := hx
    obtain ⟨l', rfl, hl'⟩ := hy
    have hlist := list?_of_get? hl
    have hlist' := list?_of_get? hl'
    simp only [Print.content, isEmpty_of_list? hlist, isEmpty_of_list? hlist', hlist, hlist']

theorem contentText_of_singleton {l : Ref} {frozen : Bool}
    (hl : s.get? l = some (.list frozen [some d]))
    (h : s.ElementText d text) :
    s.ContentText (.object l) ("[" ++ ", ".intercalate [text] ++ "]") := by
  intro tooDeep place
  have hlist := list?_of_get? hl
  rw [Print.content, isEmpty_of_list? hlist, hlist]
  dsimp only
  rw [if_neg Bool.false_ne_true, Print.items, h, Outcome.ok_bind]
  rfl

/-- Values differ if their contents somewhere do. -/
theorem Differ.values {r r' : Ref} {b b' : Built} (hb : s.HasBuilt r b) (hb' : s.HasBuilt r' b')
    (h : ∀ s', s.Extends s' → ¬ List.Forall₂ s'.Alike b.fields b'.fields) :
    s.Differ (.object r) (.object r') := by
  intro s' hs' halike
  exact h s' hs' (halike.contents (hs'.hasBuilt hb) (hs'.hasBuilt hb'))

theorem Differ.singletons {l l' : Ref} {frozen frozen' : Bool} (h : s.Differ x y)
    (hl : s.get? l = some (.list frozen [some x]))
    (hl' : s.get? l' = some (.list frozen' [some y])) :
    s.Differ (.object l) (.object l') := by
  intro s' hs' halike
  obtain ⟨⟨halike⟩, -⟩ := List.forall₂_cons.mp (halike.items (hs'.get? hl) (hs'.get? hl'))
  exact h s' hs' halike

end Store

/-- An element that is given for a field that is not repeated is its own final form. -/
theorem Construct.Settles.eq_of_hasType {s s' : Store} {f : Field} {d d' : Datum}
    (h : Construct.Settles s s' f d d') (hm : f.multiplicity ≠ .repeated)
    (hd : s.HasType f.type d) : d' = d := by
  unfold Construct.Settles at h
  cases hmult : f.multiplicity <;> simp only [hmult] at h
  case single => exact h
  case optional => simpa [hd.isEmpty_eq_false] using h
  case repeated => exact absurd hmult hm

/-- The final form of a list is a list of the same items. -/
theorem Construct.Settles.exists_list {s s' : Store} {f : Field} {d d' : Datum}
    (h : Construct.Settles s s' f d d') (hm : f.multiplicity = .repeated)
    {items : List (Option Datum)}
    (hd : s.list? d = some items) : ∃ l, d' = .object l ∧ s'.get? l = some (.list true items) := by
  unfold Construct.Settles at h
  simp only [hm, hd] at h
  exact h

namespace Session

/-- Two elements of the type that are not alike and have the same text. -/
structure Rivals (σ : Session) (type : TypeRef) (x y : Datum) : Prop where
  left : σ.Offers type x
  right : σ.Offers type y
  text : ∃ text, σ.store.ElementText x text ∧ σ.store.ElementText y text
  differ : σ.store.Differ x y

/-- Two contents for the field that are in their final form not alike and have the same text. -/
structure ContentRivals (σ : Session) (f : Field) (x y : Datum) : Prop where
  left : σ.Content f x
  right : σ.Content f y
  settled : ∀ σ' x' y', σ.Grown σ' → Construct.Settles σ.store σ'.store f x x' →
    Construct.Settles σ.store σ'.store f y y' →
    (∃ text, σ'.store.ContentText x' text ∧ σ'.store.ContentText y' text) ∧ σ'.store.Differ x' y'

/-- Wherever the model is, two elements of the type can be made that are not alike and have the same
text. -/
def Confusable (m : Model) (type : TypeRef) : Prop :=
  ∀ σ : Session, σ.Reachable → m ∈ σ.models → ∃ σ' x y, σ.Grown σ' ∧ σ'.Rivals type x y

/-- Wherever the model is, two such contents for the field can be made. -/
def ContentConfusable (m : Model) (f : Field) : Prop :=
  ∀ σ : Session, σ.Reachable → m ∈ σ.models → ∃ σ' x y, σ.Grown σ' ∧ σ'.ContentRivals f x y

variable {σ σ' : Session} {m : Model} {next : Nat} {type : TypeRef} {f : Field} {t : TypeDef}
  {c : Option Constructor} {r : Ref} {b : Built} {d x y : Datum}

theorem Rivals.grown (h : σ.Rivals type x y) (hσ : σ.Reachable) (hgrown : σ.Grown σ') :
    σ'.Rivals type x y where
  left := h.left.grown hσ hgrown
  right := h.right.grown hσ hgrown
  text := by
    have hsame {d : Datum} (hd : σ.Offers type d) : σ.store.SameBelow σ'.store d :=
      hgrown.grows.sameBelow hσ.sound.holds_of_mentions hd.has.holds
    obtain ⟨text, hx, hy⟩ := h.text
    exact ⟨text, hx.sameBelow (hsame h.left) hgrown.grows.size_le,
      hy.sameBelow (hsame h.right) hgrown.grows.size_le⟩
  differ s' hs' := h.differ s' (hgrown.grows.trans hs')

/-! ## Texts of values made -/

/-- The contents of a constructed value have texts. -/
theorem Reachable.exists_contentText (h : σ.Reachable) (hb : σ.store.HasBuilt r b)
    (hmade : σ.store.Constructed (.object r)) (hf : f ∈ Construct.declared b.type b.constructor) :
    ∃ text, σ.store.ContentText (contentAt b.fields f.index) text := by
  have hcontents := hmade.contents hb (h.sealed.contents hb)
  have hfits := h.sound.of_contents h.sealed hb (h.sealed.contents_rank hb hcontents) hf
  let tooDeep : Path → PrintError := fun _ => .malformed
  obtain ⟨text, htext⟩ := Print.exists_content_eq_ok hfits (fun e ⟨⟨htype, hmade⟩, hrank⟩ => by
    have hsize : e.rank ≤ σ.store.size := Nat.le_trans hrank (Nat.le_of_lt hb.lt_size)
    exact ⟨htype, h.sound.exists_text h.sealed htype hmade tooDeep _ hsize⟩) (.ofRoot "")
  exact ⟨text, fun tooDeep place =>
    Print.content_mono (fun e _ _ text he => Print.value_mono (Nat.le_refl _) he) htext⟩

/-- The text of a constructed value is put together from those of its contents. -/
theorem Reachable.elementText_of_contents (h : σ.Reachable) (hb : σ.store.HasBuilt r b)
    (hmade : σ.store.Constructed (.object r))
    {texts : Field → String} (htexts : ∀ f ∈ Construct.declared b.type b.constructor,
      σ.store.ContentText (contentAt b.fields f.index) (texts f)) :
    σ.store.ElementText (.object r)
      (Print.assemble b.shape ((Construct.declared b.type b.constructor).map texts)) := by
  intro tooDeep place
  have hsize : (Datum.object r).rank ≤ σ.store.size := hb.lt_size
  obtain ⟨text, htext⟩ := h.sound.exists_text h.sealed (h.sealed.hasType_of_hasBuilt hb) hmade tooDeep
    σ.store.size hsize place
  obtain ⟨n, v, shown, hn, hshape, hshown, rfl⟩ := Print.value_eq_ok.mp htext
  -- the contents are printed with a level less, which makes no difference to their texts
  obtain rfl := Option.some.inj ((h.sealed.shape?_of_hasBuilt hb).symm.trans hshape)
  have heach : List.Forall₂ (fun f text => texts f = text) b.shape.declared shown := by
    refine (Outcome.forall₂_mem_and (Print.forall₂_of_fields hshown)).imp
      fun f text ⟨hf, place, hcontent⟩ => ?_
    have hmore : Print.content σ.store (Print.value σ.store tooDeep σ.store.size)
        (b.shape.content f) place = .ok text :=
      Print.content_mono (fun e _ _ text he => Print.value_mono (by omega) he) hcontent
    exact Except.ok.inj ((htexts f hf tooDeep place).symm.trans hmore)
  have hall : b.shape.declared.map texts = shown := by
    rw [← List.forall₂_eq_eq_eq]
    exact List.forall₂_map_left_iff.mpr heach
  rw [← hall] at htext
  exact htext

/-! ## Contents -/

/-- Of elements one gets contents for a field, lists of one element if it is repeated. -/
theorem Rivals.exists_contentRivals (h : σ.Rivals f.type x y) (hσ : σ.Reachable) :
    ∃ σ' x' y', σ.Grown σ' ∧ σ'.ContentRivals f x' y' := by
  by_cases hm : f.multiplicity = .repeated
  · obtain ⟨σ₁, x', hgrown₁, hx', hxlist⟩ := hσ.exists_list hm [x] (by simpa using h.left)
    have h₁ := h.grown hσ hgrown₁
    obtain ⟨σ₂, y', hgrown₂, hy', hylist⟩ :=
      hgrown₁.reachable.exists_list hm [y] (by simpa using h₁.right)
    have hxlist₂ : σ₂.store.list? x' = some [some x] :=
      (Store.list?_of_node?_eq (hgrown₂.grows.node?_eq hx'.has.holds)).trans hxlist
    refine ⟨σ₂, x', y', hgrown₁.trans hgrown₂, hx'.grown hgrown₁.reachable hgrown₂, hy', ?_⟩
    intro σ' u v hgrown hu hv
    obtain ⟨l, rfl, hl⟩ := hu.exists_list hm hxlist₂
    obtain ⟨l', rfl, hl'⟩ := hv.exists_list hm hylist
    have hrivals := (h₁.grown hgrown₁.reachable hgrown₂).grown hgrown₂.reachable hgrown
    obtain ⟨text, hx, hy⟩ := hrivals.text
    exact ⟨⟨_, Store.contentText_of_singleton hl hx, Store.contentText_of_singleton hl' hy⟩,
      hrivals.differ.singletons hl hl'⟩
  · refine ⟨σ, x, y, .refl hσ, content_of_offers hm h.left, content_of_offers hm h.right, ?_⟩
    intro σ' x' y' hgrown hx hy
    obtain rfl := hx.eq_of_hasType hm h.left.hasType
    obtain rfl := hy.eq_of_hasType hm h.right.hasType
    have hrivals := h.grown hσ hgrown
    obtain ⟨text, hx, hy⟩ := hrivals.text
    exact ⟨⟨text, hx.content hrivals.left.hasType, hy.content hrivals.right.hasType⟩,
      hrivals.differ⟩

/-- A value of a constructor without fields whose name is the mark for absent contents is written
like the absent content. -/
theorem contentConfusable_of_blank (hm : m.Sound next) (hoptional : f.multiplicity = .optional)
    {v : TypeDef} (hv : v ∈ m.types) (hkey : f.type = .declared v.key) {k : Constructor}
    (hk : k ∈ v.constructors) (hname : k.name = Print.absentMark) (hfields : k.fields = []) :
    ContentConfusable m f := by
  intro σ hσ hmem
  obtain ⟨cs, attributes, hshape, hk⟩ := TypeDef.shape_of_mem_constructors hk
  have hdeclared : Construct.declared v (some k) = [] := hfields
  obtain ⟨σ₁, r, fields, hgrown, hr, hoffers, -⟩ := hσ.exists_construct hmem hm hv (.sum hshape hk)
    (g := fun _ => .absent) (by simp [hdeclared])
  refine ⟨σ₁, .absent, .object r, hgrown, content_absent hoptional,
    content_of_offers (by simp [hoptional]) (hkey ▸ hoffers), fun σ' x' y' hgrown' hx hy => ?_⟩
  obtain rfl := hy.eq_of_hasType (by simp [hoptional]) (hkey ▸ hoffers.hasType)
  obtain rfl : x' = .absent := by simpa [Construct.Settles, hoptional] using hx
  have hmade := hoffers.grown hgrown.reachable hgrown'
  have hnone : ∀ f' ∈ Construct.declared v (some k),
      σ'.store.ContentText (contentAt fields f'.index) "" := by simp [hdeclared]
  have htext := hgrown'.reachable.elementText_of_contents (hgrown'.grows.hasBuilt hr)
    hmade.constructed
    hnone
  rw [Print.assemble_sum hshape, Print.constructorText, if_pos hfields, hname] at htext
  refine ⟨⟨_, fun _ _ => rfl, htext.content hmade.hasType⟩, fun s' _ halike => ?_⟩
  cases halike

/-- Values of one type and constructor have the same text if their contents have, and they differ if
the contents of some field do. -/
theorem Reachable.rivals_of_contents (h : σ.Reachable) {r' : Ref} {contents contents' : List Datum}
    (hr : σ.store.HasBuilt r ⟨t, c, contents⟩) (hr' : σ.store.HasBuilt r' ⟨t, c, contents'⟩)
    (hoffers : σ.Offers (.declared t.key) (.object r))
    (hoffers' : σ.Offers (.declared t.key) (.object r'))
    (htexts : ∀ f ∈ Construct.declared t c, ∃ text,
      σ.store.ContentText (contentAt contents f.index) text ∧
        σ.store.ContentText (contentAt contents' f.index) text)
    (hf : f ∈ Construct.declared t c)
    (hdiffer : σ.store.Differ (contentAt contents f.index) (contentAt contents' f.index)) :
    σ.Rivals (.declared t.key) (.object r) (.object r') where
  left := hoffers
  right := hoffers'
  text := by
    choose! texts htexts using htexts
    exact ⟨_, h.elementText_of_contents hr hoffers.constructed fun f hf => (htexts f hf).1,
      h.elementText_of_contents hr' hoffers'.constructed fun f hf => (htexts f hf).2⟩
  differ := by
    refine .values hr hr' fun s' hs' halike => ?_
    exact hdiffer s' hs' ((h.sound.forall₂_contents_iff h.sealed hr hr').mp halike f hf)

/-- Where contents of a field can be confused, values of the type can. -/
theorem confusable_of_contents (hm : m.Sound next) (ht : t ∈ m.types) (hc : t.Alternative c)
    (hf : f ∈ Construct.declared t c) (h : ContentConfusable m f) :
    Confusable m (.declared t.key) := by
  intro σ hσ hmem
  -- the two values get the same contents `g` for all fields but `f`
  obtain ⟨σ₀, g, hgrown₀, hg₀⟩ := hσ.exists_contents hmem fun f hf _ =>
    available_of_field hm ht hc hf
  obtain ⟨σ₁, x, y, hgrown₁, hrivals⟩ := h σ₀ hgrown₀.reachable (hgrown₀.models ▸ hmem)
  have hg (f' : Field) (hf' : f' ∈ Construct.declared t c) : σ₁.Content f' (g f') :=
    (hg₀ f' hf').grown hgrown₀.reachable hgrown₁
  obtain ⟨σ₂, r, r', fields, fields', hgrown₂, hr, hr', hoffers, hoffers', hsettles⟩ :=
    hgrown₁.reachable.exists_construct_pair (hgrown₁.models ▸ hgrown₀.models ▸ hmem) hm ht hc
      (content_update hrivals.left fun f' hf' _ => hg f' hf')
      (content_update hrivals.right fun f' hf' _ => hg f' hf')
  obtain ⟨htext, hdiffer⟩ := hrivals.settled σ₂ _ _ hgrown₂
    (Function.update_self f x g ▸ (hsettles f hf).1) (Function.update_self f y g ▸ (hsettles f hf).2)
  refine ⟨σ₂, .object r, .object r', (hgrown₀.trans hgrown₁).trans hgrown₂,
    hgrown₂.reachable.rivals_of_contents hr hr' hoffers hoffers' (fun f' hf' => ?_) hf hdiffer⟩
  by_cases heq : f' = f
  · exact heq ▸ htext
  · obtain ⟨hsettles, hsettles'⟩ := hsettles f' hf'
    rw [Function.update_of_ne heq] at hsettles hsettles'
    obtain ⟨text, htext⟩ := hgrown₂.reachable.exists_contentText hr hoffers.constructed hf'
    refine ⟨text, htext, fun tooDeep place => ?_⟩
    rw [← Store.content_eq_of_settles hsettles hsettles']
    exact htext tooDeep place

/-- In an ambiguous type there are values that are not alike and have the same text. -/
theorem confusable_of_ambiguous (hm : m.Sound next) (ht : t ∈ m.types) (h : m.Ambiguous t) :
    Confusable m (.declared t.key) := by
  obtain ⟨u, hway, c, hc, f, hf, hoptional, v, hv, hkey, k, hk, hname, hfields⟩ := h
  have hblank := contentConfusable_of_blank hm hoptional hv hkey hk hname hfields
  induction hway using Relation.ReflTransGen.head_induction_on with
  | refl => exact confusable_of_contents hm ht hc hf hblank
  | head hrefers _ ih =>
    obtain ⟨hu, c', hc', f', hf', hkey'⟩ := hrefers
    refine confusable_of_contents hm ht hc' hf' fun σ hσ hmem => ?_
    obtain ⟨σ₁, x, y, hgrown, hrivals⟩ := ih hu σ hσ hmem
    obtain ⟨σ₂, x', y', hgrown', hcontents⟩ :=
      (hkey' ▸ hrivals : σ₁.Rivals f'.type x y).exists_contentRivals hgrown.reachable
    exact ⟨σ₂, x', y', hgrown.trans hgrown', hcontents⟩

end Session

end Schemata
