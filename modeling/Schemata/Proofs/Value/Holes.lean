import Schemata.Proofs.Value.Conformance

/-!
# Conformance throughout lists

A list may have holes, which conformance passes over as the check does. `Store.ConformsThroughout`
asks for an element at every index of a list, and as nothing is read in a hole, it holds just where
no list that is looked at has one (`Store.conformsThroughout_iff`).
-/

namespace Schemata

/-- The elements of a field's content, where a list is read index by index. -/
def Store.readElements? (s : Store) (f : Field) (d : Datum) : Option (List Datum) :=
  match f.multiplicity with
  | .repeated => (s.list? d).map readItems
  | _ => s.elements? f d

/-- Conformance to a type that asks for an element at every index of a list. -/
inductive Store.ConformsThroughout (s : Store) (trusted : Ref → Bool) : TypeRef → Datum → Prop
  | primitive {p : Primitive} {d : Datum} :
    p.accepts d = true → s.ConformsThroughout trusted (.primitive p) d
  | trusted {r : Ref} {v : ValueView} {t : TypeDef} {declared : List Field} :
    s.view? (.object r) = some v → v.IsOf t declared → trusted r = true →
    s.ConformsThroughout trusted (.declared t.key) (.object r)
  | entered {r : Ref} {v : ValueView} {t : TypeDef} {declared : List Field} :
    s.view? (.object r) = some v → v.IsOf t declared → v.fields.length = declared.length →
    (∀ f ∈ declared, (s.readElements? f (contentAt v.fields f.index)).isSome) →
    (∀ f ∈ declared, ∀ ds, s.readElements? f (contentAt v.fields f.index) = some ds →
      ∀ d ∈ ds, s.ConformsThroughout trusted f.type d) →
    s.ConformsThroughout trusted (.declared t.key) (.object r)

/-- The lists in the fields of `x`, and of the values that one comes to from there, have no
holes. -/
def Store.Gapless (s : Store) (trusted : Ref → Bool) (x : Datum) : Prop :=
  ∀ r v t declared, Relation.ReflTransGen (s.Nests trusted) x (.object r) → trusted r = false →
    s.view? (.object r) = some v → v.IsOf t declared →
    ∀ f ∈ declared, f.multiplicity = .repeated →
      ∀ items, s.list? (contentAt v.fields f.index) = some items → none ∉ items

namespace Store

variable {s : Store} {trusted : Ref → Bool} {type : TypeRef} {f : Field} {d : Datum}
  {ds : List Datum} {items : List (Option Datum)}

theorem readItems_eq_present (h : none ∉ items) : readItems items = present items := by
  induction items with
  | nil => rfl
  | cons item items ih =>
    obtain ⟨hitem, hitems⟩ := not_or.mp (mt List.mem_cons.mpr h)
    cases item with
    | none => exact absurd rfl hitem
    | some d => exact congrArg (d :: ·) (ih hitems)

theorem mem_readItems_of_none (h : none ∈ items) : .missing ∈ readItems items :=
  List.mem_map_of_mem (f := (Option.getD · Datum.missing)) h

theorem mem_readItems_of_mem_present (h : d ∈ present items) : d ∈ readItems items :=
  List.mem_map_of_mem (f := (Option.getD · Datum.missing)) (mem_present.mp h)

/-- A content has elements whether or not its list has holes. -/
theorem isSome_readElements? : (s.readElements? f d).isSome = (s.elements? f d).isSome := by
  unfold readElements? elements?
  cases f.multiplicity <;> simp

theorem readElements?_eq (h : f.multiplicity = .repeated →
    ∀ items, s.list? d = some items → none ∉ items) : s.readElements? f d = s.elements? f d := by
  unfold readElements? elements?
  cases hm : f.multiplicity with
  | repeated =>
    cases hitems : s.list? d with
    | none => rfl
    | some items => exact congrArg some (readItems_eq_present (h hm items hitems))
  | single | optional => simp

/-- What is an element is one when the list is read index by index. -/
theorem exists_readElements? (h : s.elements? f d = some ds) :
    ∃ ds', s.readElements? f d = some ds' ∧ ∀ e ∈ ds, e ∈ ds' := by
  unfold readElements?
  cases hm : f.multiplicity with
  | repeated =>
    simp only [elements?, hm] at h
    obtain ⟨items, hitems, rfl⟩ := Option.map_eq_some_iff.mp h
    exact ⟨readItems items, by rw [hitems]; rfl, fun e => mem_readItems_of_mem_present⟩
  | single | optional => exact ⟨ds, h, fun e he => he⟩

theorem not_conforms_missing : ¬s.Conforms trusted type .missing := by
  rintro ⟨⟩
  next hp => cases ‹Primitive› <;> cases hp

theorem not_conformsThroughout_missing : ¬s.ConformsThroughout trusted type .missing := by
  rintro ⟨⟩
  next hp => cases ‹Primitive› <;> cases hp

theorem ConformsThroughout.conforms (h : s.ConformsThroughout trusted type d) :
    s.Conforms trusted type d := by
  induction h with
  | primitive hp => exact .primitive hp
  | trusted hv ht hr => exact .trusted hv ht hr
  | entered hv ht hlength hsome _ ih =>
    refine .entered hv ht hlength (fun f hf => isSome_readElements? ▸ hsome f hf)
      fun f hf ds hds d hd => ?_
    obtain ⟨ds', hds', hsubset⟩ := exists_readElements? hds
    exact ih f hf ds' hds' d (hsubset d hd)

theorem ConformsThroughout.gapless (h : s.ConformsThroughout trusted type d) :
    s.Gapless trusted d := by
  induction h with
  | primitive hp =>
    intro r v t declared hway
    rcases hway.cases_head with rfl | ⟨y, hy, -⟩
    · exact absurd rfl (ne_object_of_accepts hp r)
    · cases hy
      exact absurd rfl (ne_object_of_accepts hp _)
  | trusted _ _ hr =>
    intro r v t declared hway hr'
    rcases hway.cases_head with heq | ⟨y, ⟨hr'', -⟩, -⟩
    · obtain rfl := Datum.object.inj heq
      simp [hr] at hr'
    · simp [hr] at hr''
  | @entered _ v t declared hv ht _ _ hall ih =>
    intro r v' t' declared' hway hr hv' ht' f hf hm items hitems hnone
    rcases hway.cases_head with heq | ⟨y, hy, hway⟩
    · obtain rfl := Datum.object.inj heq
      obtain rfl := Option.some.inj (hv.symm.trans hv')
      obtain ⟨rfl, rfl⟩ := ht.unique ht'
      -- nothing is read in a hole, and that is no element of any type
      refine not_conformsThroughout_missing (hall f hf (readItems items) ?_ _
        (mem_readItems_of_none hnone))
      simp only [readElements?, hm, hitems, Option.map_some]
    · cases hy with
      | mk _ hv'' ht'' hf' hds hy =>
        obtain rfl := Option.some.inj (hv.symm.trans hv'')
        obtain ⟨rfl, rfl⟩ := ht.unique ht''
        obtain ⟨ds', hds', hsubset⟩ := exists_readElements? hds
        exact ih _ hf' ds' hds' y (hsubset y hy) r v' t' declared' hway hr hv' ht' f hf hm items
          hitems hnone

/-- What conforms does so throughout just if the lists that are looked at have no holes. -/
theorem conformsThroughout_iff : s.ConformsThroughout trusted type d ↔
    s.Conforms trusted type d ∧ s.Gapless trusted d := by
  refine ⟨fun h => ⟨h.conforms, h.gapless⟩, ?_⟩
  rintro ⟨h, hgapless⟩
  induction h with
  | primitive hp => exact .primitive hp
  | trusted hv ht hr => exact .trusted hv ht hr
  | @entered r v t declared hv ht hlength hsome _ ih =>
    cases hr : trusted r with
    | true => exact .trusted hv ht hr
    | false =>
      have hsame : ∀ f ∈ declared, s.readElements? f (contentAt v.fields f.index) =
          s.elements? f (contentAt v.fields f.index) := fun f hf =>
        readElements?_eq (hgapless r v t declared .refl hr hv ht f hf)
      refine .entered hv ht hlength (fun f hf => hsame f hf ▸ hsome f hf) fun f hf ds hds d hd => ?_
      rw [hsame f hf] at hds
      refine ih f hf ds hds d hd fun r' v' t' declared' hway => ?_
      exact hgapless r' v' t' declared' (.head (.mk hr hv ht hf hds hd) hway)

end Store

end Schemata
