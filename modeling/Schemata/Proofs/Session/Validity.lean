import Schemata.Proofs.Session
import Schemata.Proofs.Value.Holes
import Schemata.Proofs.Value.Wording

/-!
# Validity in sessions

In every session that can be reached, validation decides conformance to the types of its models, for
every datum and with any amount of room (`Session.Reachable.validate_decides`). Types are told apart
by their keys there, which is the same as telling definitions apart. Holes in lists are passed over,
and a datum that does not conform need not be reported: the report may fail for want of words.

A value that is not made by construction may contain itself, as a content or an item of one
(`Store.Embeds`), on a way through other such values. As fields are numbered by their places, every
content belongs to a declared field, so each step of the way leads to an element
(`Session.Sound.nests_of_embeds`) and the value conforms to nothing.
-/

namespace Schemata

/-- `x` is a value not made by construction, and `y` one of its contents or an item of one. -/
def Store.Embeds (s : Store) (x y : Datum) : Prop :=
  ∃ r v, x = .object r ∧ Check.isBuilt s r = false ∧ s.view? x = some v ∧
    ∃ c ∈ v.fields, y = c ∨ ∃ items, s.list? c = some items ∧ some y ∈ items

theorem ValueView.IsOf.numbered {v : ValueView} {t : TypeDef} {declared : List Field}
    (h : v.IsOf t declared) (ht : t.Numbered) : Field.Numbered declared := by
  cases h with
  | product _ _ hshape =>
    have hfields := ht.fields
    rwa [TypeDef.fields, hshape] at hfields
  | @sum cs attributes c _ _ hshape _ hc _ =>
    have hmem : c ∈ t.constructors := by rwa [TypeDef.constructors, hshape]
    exact (ht.constructors c hmem).1

/-- Every content of a value with as many contents as fields belongs to a field. -/
theorem Field.Numbered.exists_content {declared : List Field} (h : Field.Numbered declared)
    {contents : List Datum} (hlength : contents.length = declared.length) {c : Datum}
    (hc : c ∈ contents) : ∃ f ∈ declared, contentAt contents f.index = c := by
  obtain ⟨i, hi, rfl⟩ := List.mem_iff_getElem.mp hc
  have hlt : i < declared.length := hlength ▸ hi
  have hindex : declared[i].index = i := h.index_eq (List.getElem?_eq_getElem hlt)
  refine ⟨declared[i], List.getElem_mem hlt, ?_⟩
  rw [contentAt, hindex, List.getElem?_eq_getElem hi, Option.getD_some]

/-- What is known of fields and contents place by place is known of the content of each field. -/
theorem Field.Numbered.contentAt_of_forall₂ {declared : List Field} (h : Field.Numbered declared)
    {R : Field → Datum → Prop} {contents : List Datum}
    (hall : List.Forall₂ R declared contents) {f : Field} (hf : f ∈ declared) :
    R f (contentAt contents f.index) := by
  obtain ⟨i, hi, rfl⟩ := List.mem_iff_getElem.mp hf
  have hlt : i < contents.length := hall.length_eq ▸ hi
  have hindex : declared[i].index = i := h.index_eq (List.getElem?_eq_getElem hi)
  rw [contentAt, hindex, List.getElem?_eq_getElem hlt, Option.getD_some]
  exact hall.get hi hlt

/-- The contents of the fields, one after the other, are all contents. -/
theorem Field.Numbered.map_contentAt {declared : List Field} (h : Field.Numbered declared)
    {contents : List Datum} (hlength : contents.length = declared.length) :
    declared.map (fun f => contentAt contents f.index) = contents := by
  refine List.ext_getElem (by rw [List.length_map, hlength]) fun i hi hi' => ?_
  have hlt : i < declared.length := hlength ▸ hi'
  have hindex : declared[i].index = i := h.index_eq (List.getElem?_eq_getElem hlt)
  rw [List.getElem_map, contentAt, hindex, List.getElem?_eq_getElem hi', Option.getD_some]

namespace Session

variable {σ : Session} {type : TypeRef} {x y : Datum}

/-- Where a value that conforms embeds a value, this is an element of one of its fields. -/
theorem Sound.nests_of_embeds (h : σ.Sound)
    (hx : σ.store.Conforms (Check.isBuilt σ.store) type x) (hxy : σ.store.Embeds x y)
    {w : ValueView} (hy : σ.store.view? y = some w) :
    σ.store.Nests (Check.isBuilt σ.store) x y := by
  obtain ⟨r, v, rfl, hbuilt, hv, c, hc, hcy⟩ := hxy
  cases hx with
  | primitive hp => exact absurd rfl (Store.ne_object_of_accepts hp r)
  | trusted _ _ hr => simp [hbuilt] at hr
  | @entered _ v' t declared hv' ht hlength hsome hall =>
    obtain rfl := Option.some.inj (hv.symm.trans hv')
    have hnumbered := ht.numbered (h.numbered (h.type_mem hv ht.type_eq))
    obtain ⟨f, hf, hcontent⟩ := hnumbered.exists_content hlength hc
    have hfsome := hsome f hf
    have hfall := hall f hf
    rw [hcontent] at hfsome hfall
    suffices helement : ∃ ds, σ.store.elements? f c = some ds ∧ y ∈ ds by
      obtain ⟨ds, hds, hyds⟩ := helement
      exact .mk hbuilt hv ht hf (hcontent ▸ hds) hyds
    unfold Store.elements? at hfsome hfall ⊢
    cases hm : f.multiplicity <;> simp only [hm] at hfsome hfall ⊢
    case single =>
      rcases hcy with rfl | ⟨items, hitems, -⟩
      · exact ⟨_, rfl, List.mem_singleton_self y⟩
      · exact absurd (hfall _ rfl c (List.mem_singleton_self c))
          (Store.not_conforms_of_list? hitems f.type)
    case optional =>
      rcases hcy with rfl | ⟨items, hitems, -⟩
      · rw [Store.isEmpty_of_view? hy]
        exact ⟨_, rfl, List.mem_singleton_self y⟩
      · rw [Store.isEmpty_of_list? hitems] at hfall
        exact absurd (hfall _ rfl c (List.mem_singleton_self c))
          (Store.not_conforms_of_list? hitems f.type)
    case repeated =>
      rcases hcy with rfl | ⟨items, hitems, hyitems⟩
      · rw [Option.isSome_map, Option.isSome_iff_exists] at hfsome
        obtain ⟨items, hitems⟩ := hfsome
        rw [Store.view?_eq_none_of_list? hitems] at hy
        cases hy
      · exact ⟨present items, by rw [hitems]; rfl, mem_present.mpr hyitems⟩

/-- A value that contains itself on a way through values not made by construction does not
conform. -/
theorem Sound.not_conforms_of_embeds_self (h : σ.Sound)
    (hcycle : Relation.TransGen σ.store.Embeds x x) :
    ¬ σ.store.Conforms (Check.isBuilt σ.store) type x := by
  intro hx
  have hway : ∀ y, Relation.TransGen σ.store.Embeds x y → (∃ w, σ.store.view? y = some w) →
      Relation.TransGen (σ.store.Nests (Check.isBuilt σ.store)) x y ∧
        ∃ type', σ.store.Conforms (Check.isBuilt σ.store) type' y := by
    intro y hxy
    induction hxy with
    | single hxy =>
      rintro ⟨w, hw⟩
      have hnests := h.nests_of_embeds hx hxy hw
      exact ⟨.single hnests, hx.of_nests hnests⟩
    | tail _ hyz ih =>
      rintro ⟨w, hw⟩
      obtain ⟨r, v, -, -, hv, -⟩ := id hyz
      obtain ⟨hway, type', hy⟩ := ih ⟨v, hv⟩
      have hnests := h.nests_of_embeds hy hyz hw
      exact ⟨hway.tail hnests, hy.of_nests hnests⟩
  have hvalue : ∃ w, σ.store.view? x = some w := by
    obtain ⟨y, ⟨r, v, -, -, hv, -⟩, -⟩ := Relation.TransGen.head'_iff.mp hcycle
    exact ⟨v, hv⟩
  exact hx.not_nests_self (hway x hcycle hvalue).1

/-- A constructor belongs to one type, and stands there once. -/
theorem Sound.eq_of_mem_constructors (h : σ.Sound) {t t' : TypeDef} {c : Constructor}
    (ht : t ∈ σ.types) (ht' : t' ∈ σ.types) (hc : c ∈ t.constructors)
    (hc' : c ∈ t'.constructors) : t = t' := by
  have hkey : t.key = t'.key := by
    rw [← ((h.numbered ht).constructors c hc).2, ((h.numbered ht').constructors c hc').2]
  exact h.eq_of_key_eq ht ht' hkey

theorem Sound.nodup_constructors (h : σ.Sound) {t : TypeDef} (ht : t ∈ σ.types) :
    t.constructors.Nodup := by
  have htags : (t.constructors.map Constructor.tag).Nodup := by
    rw [(h.numbered ht).tags]
    exact List.nodup_range
  exact List.Nodup.of_map _ htags

/-- In every session that can be reached, and for every type, a datum is valid if and only if it
conforms, and it conforms at every index of its lists if and only if it is valid and these lists
have no holes. Where no plain object would give its own text, a datum that does not conform is
reported. The verdict never depends on how deep the check may go. What has the key of a type is of
that very type, and what is one of its constructors is so by that very constructor. No value that
contains itself through values not made by construction is valid. -/
theorem Reachable.validate_decides (h : σ.Reachable) (type : TypeRef) :
    (∀ d, σ.store.validate type d = .valid ↔
      σ.store.Conforms (Check.isBuilt σ.store) type d) ∧
    (∀ d, σ.store.ConformsThroughout (Check.isBuilt σ.store) type d ↔
      σ.store.validate type d = .valid ∧ σ.store.Gapless (Check.isBuilt σ.store) d) ∧
    (∀ d, σ.store.Displayable d → σ.store.validate type d ≠ .raised) ∧
    (∀ d room, σ.store.size ≤ room →
      Check.element σ.store room [] type d (σ.store.rootPlace type d) = σ.store.check type d) ∧
    (∀ t ∈ σ.types, ∀ d v t', σ.store.view? d = some v → v.type = .typeDef t' → t'.key = t.key →
      t' = t) ∧
    (∀ t ∈ σ.types, t.constructors.Nodup ∧
      ∀ t' ∈ σ.types, ∀ c ∈ t.constructors, c ∈ t'.constructors → t = t') ∧
    ∀ d, Relation.TransGen σ.store.Embeds d d → σ.store.validate type d ≠ .valid := by
  have hsound := h.sound
  have hvalid (d : Datum) : σ.store.validate type d = .valid ↔
      σ.store.Conforms (Check.isBuilt σ.store) type d :=
    Store.validate_eq_valid_iff.trans Store.check_eq_ok_iff
  refine ⟨hvalid, fun d => ?_, fun d => Store.validate_ne_raised, fun d room hroom => ?_,
    fun t ht d v t' hv ht' hkey => ?_,
    fun t ht => ⟨hsound.nodup_constructors ht, fun t' ht' c hc hc' => ?_⟩, fun d hcycle hcheck => ?_⟩
  · rw [hvalid, Store.conformsThroughout_iff]
  · rw [Store.check_eq_elementTrusting room hroom, Check.element_eq_elementTrusting]
  · exact hsound.eq_of_key_eq (hsound.type_mem hv ht') ht hkey
  · exact hsound.eq_of_mem_constructors ht ht' hc hc'
  · exact hsound.not_conforms_of_embeds_self hcycle ((hvalid d).mp hcheck)

/-- A node whose next node is itself. -/
theorem Reachable.validate_decides_loop : ∃ σ : Session, σ.Reachable ∧
    Relation.TransGen σ.store.Embeds (.object ⟨1⟩) (.object ⟨1⟩) ∧
    σ.store.validate (.declared Sample.node.key) (.object ⟨1⟩) ≠ .valid := by
  let one : Datum := .number (.ofNat 1)
  have h₁ : Reachable ⟨⟨#[.list false [some one]]⟩, 1, [Sample.model]⟩ :=
    Sample.reachable.call (.list (by decide))
  let s₀ : Store := ⟨#[.list false [some one], .record (Sample.properties ⟨0⟩)]⟩
  have h₂ : Reachable ⟨s₀, 1, [Sample.model]⟩ := h₁.call (.record (by decide))
  let s : Store :=
    ⟨#[.list false [some one, some (.object ⟨1⟩)], .record (Sample.properties ⟨0⟩)]⟩
  have hwrite : s₀.setField (.object ⟨1⟩) 1 (.object ⟨1⟩) = some s := rfl
  have h₃ : Reachable ⟨s, 1, [Sample.model]⟩ := h₂.call (.setField (by decide) hwrite)
  have hloop : s.Embeds (.object ⟨1⟩) (.object ⟨1⟩) :=
    ⟨⟨1⟩, _, rfl, rfl, rfl, .object ⟨1⟩, by decide, .inl rfl⟩
  obtain ⟨-, -, -, -, -, -, hrefused⟩ := h₃.validate_decides (.declared Sample.node.key)
  exact ⟨_, h₃, .single hloop, hrefused _ (.single hloop)⟩

/-- A value of a type that is a plain object, the name of which would give its own text. -/
theorem exists_validate_raised : ∃ σ : Session, σ.Reachable ∧ Sample.node ∈ σ.types ∧ ∃ d, σ.Has d ∧
    σ.store.validate (.declared Sample.node.key) d = .raised := by
  let named : Record Datum := ⟨[("toString", .number (.ofNat 5))]⟩
  let type : Record Datum := ⟨[("kind", .text "product"), ("name", .object ⟨1⟩)]⟩
  let value : Record Datum :=
    ⟨[("kind", .text "product"), ("type", .object ⟨2⟩), ("fields", .object ⟨0⟩)]⟩
  have h₁ : Reachable ⟨⟨#[.list false []]⟩, 1, [Sample.model]⟩ :=
    Sample.reachable.call (.list (by decide))
  have h₂ : Reachable ⟨⟨#[.list false [], .record named]⟩, 1, [Sample.model]⟩ :=
    h₁.call (.record (by decide))
  have h₃ : Reachable ⟨⟨#[.list false [], .record named, .record type]⟩, 1, [Sample.model]⟩ :=
    h₂.call (.record (by decide))
  have h₄ : Reachable ⟨⟨#[.list false [], .record named, .record type, .record value]⟩, 1,
    [Sample.model]⟩ := h₃.call (.record (by decide))
  exact ⟨_, h₄, List.mem_cons_self, .object ⟨3⟩, by decide, rfl⟩

end Session

end Schemata
