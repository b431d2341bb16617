import Schemata.Proofs.Session.Texts

/-!
# What construction makes lasts

A value that is made of scalars, lists and constructed values never changes and stays well typed:
there is no way from it, or from anything in it, back to itself, and all contents at any depth
conform to their fields. Whatever is done with the session afterwards, all that can be asked of the
value has the answer that it had when the value was made (`Session.Reachable.construct_lasts`).

Construction passes over the holes of a list and keeps them in its copy. What is read there is no
element, so that what is read conforms just where there are no holes (`Store.Proper`,
`Session.exists_construct_hole`).
-/

namespace Schemata

/-- Of a datum `s'` tells what `s` tells: all below it, its label and its contents for the declared
fields, and so what is read from it, its text for every depth limit and its plain view. -/
structure Store.Repeats (s s' : Store) (d : Datum) : Prop where
  below : s.SameBelow s' d
  shape : s'.shape? d = s.shape? d
  text : ∀ limit, s'.print limit d = s.print limit d
  plain : ∀ v, s.shape? d = some v → s'.plain? v = s.plain? v

/-- The datum has a text if any nesting is allowed, and a plain view. -/
structure Store.Told (s : Store) (d : Datum) : Prop where
  text : ∀ limit : Number, limit.levels = none → ∃ text, s.print limit d = .ok text
  plain : ∃ v p, s.shape? d = some v ∧ s.plain? v = some p

/-- The content has the final form of its field's contents and its elements conform, with all
contents. Just if it is no list with holes, all that is read from it conforms. -/
structure Store.Proper (s : Store) (f : Field) (d : Datum) : Prop where
  fits : s.Fits s.ConformsFully f d
  read : (∀ ds, s.readElements? f d = some ds → ∀ e ∈ ds, s.ConformsFully f.type e) ↔
    ∀ items, s.list? d = some items → none ∉ items

/-- Nothing is read in a hole, and that is no element of any type. -/
theorem Store.Fits.proper {s : Store} {f : Field} {d : Datum} (h : s.Fits s.ConformsFully f d) :
    s.Proper f d := by
  refine ⟨h, fun hread items hitems hnone => ?_, fun hgapless ds hds => ?_⟩
  · have helement (hd : s.ConformsFully f.type d) : False := not_conforms_of_list? hitems f.type hd
    unfold Store.Fits at h
    cases hm : f.multiplicity <;> simp only [hm] at h
    case single => exact helement h
    case optional =>
      rcases h with rfl | h
      · cases hitems
      · exact helement h
    case repeated =>
      have hds : s.readElements? f d = some (readItems items) := by
        simp only [readElements?, hm, hitems, Option.map_some]
      exact not_conforms_missing (hread _ hds _ (mem_readItems_of_none hnone))
  · rw [readElements?_eq fun _ => hgapless] at hds
    obtain ⟨ds', hds', hall⟩ := h.exists_elements?
    obtain rfl := Option.some.inj (hds.symm.trans hds')
    exact hall

namespace Session

variable {σ σ' : Session} {r : Ref} {b : Built}

theorem Sound.told (h : σ.Sound) (hsealed : σ.store.Sealed) (hb : σ.store.HasBuilt r b)
    (hmade : σ.store.Constructed (.object r)) : σ.store.Told (.object r) := by
  have htype := hsealed.hasType_of_hasBuilt hb
  have hshape := hsealed.shape?_of_hasBuilt hb
  have hlt := hb.lt_size
  refine ⟨fun limit hlimit => ?_, ?_⟩
  · rw [Store.print, hshape, hlimit]
    exact h.exists_text hsealed htype hmade _ _ hlt _
  · obtain ⟨p, hp⟩ := h.exists_plain hsealed htype hmade (σ.store.size + 2) (by
      rw [Datum.rank]
      omega)
    exact ⟨_, p, hshape, (Plain.plain?_eq_ofDatum? hshape).trans hp⟩

/-- What is settled is told in the same way by all later stores. -/
theorem repeats_of_settled {s s' : Store} {d : Datum} (h : s.Settled d) (htold : s.Told d)
    (hs : s.Evolves s') : s.Repeats s' d := by
  have hbelow := h.sameBelow hs
  refine ⟨hbelow, hbelow.shape?_eq, fun limit => ?_, fun v hv => ?_⟩
  · obtain ⟨v, -, hv, -⟩ := htold.plain
    have htext := htold.text limit
    unfold Store.print at htext ⊢
    rw [hbelow.shape?_eq, hv] at *
    cases hlevels : limit.levels with
    | some n => exact Print.value_sameBelow hbelow
    | none =>
      -- without a limit there is more room in the later store, and the room was enough before
      obtain ⟨text, htext⟩ := htext hlevels
      rw [hlevels] at htext
      dsimp only at htext ⊢
      rw [htext, Print.value_sameBelow hbelow]
      exact Print.value_mono hs.size_le htext
  · obtain ⟨v', p, hv', hp⟩ := htold.plain
    obtain rfl := Option.some.inj (hv.symm.trans hv')
    rw [hp]
    rw [Plain.plain?_eq_ofDatum? hv] at hp
    rw [Plain.plain?_eq_ofDatum? (hbelow.shape?_eq.trans hv), Plain.ofDatum?_sameBelow hbelow]
    exact Plain.ofDatum?_mono (Nat.add_le_add_right hs.size_le 2) hp

/-- A value that a construction makes, all values in it being constructed too, has no way back to
itself, nor has anything in it; the contents of the value and of all values in it are absent
markers, elements and lists of elements, as their fields say, that conform with all contents, and so
does all that is read from a content, unless it is a list with a hole; it has a text and a plain
view; and after any further steps all that it tells is the same. -/
theorem Reachable.construct_lasts (h : σ.Reachable) {m : Model} {typeName : String}
    {constructorName : Option String} {inputs : Inputs} {s' : Store} (hm : m ∈ σ.models)
    (hdata : ∀ d ∈ inputs.data, σ.Has d)
    (hmade : σ.store.construct m typeName constructorName inputs = .ok (r, s'))
    (hall : s'.Constructed (.object r))
    (hsteps : Relation.ReflTransGen Step { σ with store := s' } σ') :
    (∀ x, s'.Reaches (.object r) x → ¬ Relation.TransGen s'.Mentions x x) ∧
    (∀ r' b, s'.Reaches (.object r) (.object r') → s'.HasBuilt r' b →
      b.type.Alternative b.constructor ∧
        List.Forall₂ s'.Proper (Construct.declared b.type b.constructor) b.fields) ∧
    s'.Told (.object r) ∧ s'.Repeats σ'.store (.object r) := by
  have hreached : Reachable { σ with store := s' } := h.call (.construct hm hdata hmade)
  have hsound := hreached.sound
  have hsealed : s'.Sealed := hreached.sealed
  obtain ⟨b, -, -, hnew⟩ := Store.of_construct_eq_ok hmade fun d hd => (hdata d hd).holds
  have hsettled := hsealed.settled (hsealed.hasType_of_hasBuilt hnew.built) hall
  have htold := hsound.told hsealed hnew.built hall
  obtain ⟨-, hevolves⟩ := evolves_of_steps hsound hsteps
  refine ⟨fun x hx => hsealed.not_reaches_self (hsettled.of_reaches hx), fun r' b' hr' hb' => ?_,
    htold, repeats_of_settled hsettled htold hevolves⟩
  refine ⟨hsealed.alternative hb', ?_⟩
  refine ((hall.of_reaches hr').contents hb' (hsealed.contents hb')).imp fun f c hfits => ?_
  exact (hfits.mono (.refl s') fun e ⟨he, hmade⟩ => hsound.conformsFully hsealed he hmade).proper

/-- Of a list that is nothing but a hole a value is made, from which nothing is read in place of the
number. -/
theorem exists_construct_hole : ∃ (σ : Session) (s' : Store) (r : Ref) (b : Built), σ.Reachable ∧
    Sample.listsModel ∈ σ.models ∧ σ.Has (.object ⟨0⟩) ∧
    σ.store.construct Sample.listsModel "t" none (.positional [.object ⟨0⟩]) = .ok (r, s') ∧
    s'.Constructed (.object r) ∧ s'.HasBuilt r b ∧ b.type = Sample.lists ∧
    s'.readElements? Sample.listsField (contentAt b.fields 0) = some [.missing] := by
  let s : Store := ⟨#[.list false [none]]⟩
  let s' : Store := ⟨#[.list false [none], .list true [none], .list true [some (.object ⟨1⟩)],
    .value Sample.lists none ⟨2⟩]⟩
  have hmade : s.construct Sample.listsModel "t" none (.positional [.object ⟨0⟩]) =
      .ok (⟨3⟩, s') := rfl
  have hall : s'.Constructed (.object ⟨3⟩) := .of_all (by decide) _
  exact ⟨_, s', ⟨3⟩, ⟨Sample.lists, none, [.object ⟨1⟩]⟩, Sample.reachable_hole, List.mem_cons_self,
    by decide, hmade, hall, ⟨⟨2⟩, rfl, rfl⟩, rfl, rfl⟩

/-- A node with a next node, which afterwards becomes an item of a list that is written to. -/
theorem Reachable.construct_lasts_node : ∃ (σ σ' : Session) (s' : Store), σ.Reachable ∧
    σ.store.construct Sample.model "node" none
      (.positional [.number (.ofNat 2), .object ⟨1⟩]) = .ok (⟨3⟩, s') ∧
    σ'.store.get? ⟨4⟩ = some (.list false [some (.object ⟨3⟩), some .null]) ∧
    s'.Told (.object ⟨3⟩) ∧ s'.Repeats σ'.store (.object ⟨3⟩) := by
  let one : Datum := .number (.ofNat 1)
  let two : Datum := .number (.ofNat 2)
  let innerContents : Node := .list true [some one, some .absent]
  let inner : Node := .value Sample.node none ⟨0⟩
  let outerContents : Node := .list true [some two, some (.object ⟨1⟩)]
  let outer : Node := .value Sample.node none ⟨2⟩
  let items : List (Option Datum) := [some (.object ⟨3⟩)]
  let s₁ : Store := ⟨#[innerContents, inner]⟩
  let s₂ : Store := ⟨#[innerContents, inner, outerContents, outer]⟩
  let s₃ : Store := ⟨#[innerContents, inner, outerContents, outer, .list false items]⟩
  let s₄ : Store :=
    ⟨#[innerContents, inner, outerContents, outer, .list false (items ++ [some .null])]⟩
  have hinner : Store.empty.construct Sample.model "node" none
      (.positional [one, .missing]) = .ok (⟨1⟩, s₁) := rfl
  have hreached : Reachable ⟨s₁, 1, [Sample.model]⟩ :=
    Sample.reachable.call (.construct List.mem_cons_self (by decide) hinner)
  have houter : s₁.construct Sample.model "node" none (.positional [two, .object ⟨1⟩]) =
    .ok (⟨3⟩, s₂) := rfl
  have hall : s₂.Constructed (.object ⟨3⟩) := .of_all (by decide) _
  have hlist : Step ⟨s₂, 1, [Sample.model]⟩ ⟨s₃, 1, [Sample.model]⟩ := .call (.list (by decide))
  have hpush : s₃.push (.object ⟨4⟩) .null = some s₄ := rfl
  have hsteps : Relation.ReflTransGen Step ⟨s₂, 1, [Sample.model]⟩ ⟨s₄, 1, [Sample.model]⟩ :=
    .head hlist (.single (.call (.push (by decide) hpush)))
  obtain ⟨-, -, htold, hrepeats⟩ :=
    hreached.construct_lasts List.mem_cons_self (by decide) houter hall hsteps
  exact ⟨⟨s₁, 1, [Sample.model]⟩, ⟨s₄, 1, [Sample.model]⟩, s₂, hreached, houter, rfl, htold,
    hrepeats⟩

end Session

end Schemata
