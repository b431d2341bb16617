import Mathlib.Tactic.ByContra
import Mathlib.Tactic.SplitIfs
import Schemata.Proofs.Value.Stores
import Schemata.Value.Check

/-!
# Conformance

What it means that a datum conforms to a type, said without a path, a bound or a set of values that
one is inside of: `Store.Conforms` is the least relation that holds of scalars of a primitive type
and of values of a declared type whose contents conform to their fields. Some values may be trusted,
that is, accepted without a look at their contents; the library trusts the values made by
construction.

A value that conforms is never inside of itself (`Store.Conforms.not_nests_self`), and it goes on to
conform in a store that is the same below it (`Store.Conforms.sameBelow`).
-/

namespace Schemata

/-- The elements of a field's content, where it has the form that the field asks for: a single
content is an element; an optional one is an element unless it is empty; a repeated one is a list,
whose items are the elements, holes being passed over. -/
def Store.elements? (s : Store) (f : Field) (d : Datum) : Option (List Datum) :=
  match f.multiplicity with
  | .single => some [d]
  | .optional => some (if s.isEmpty d then [] else [d])
  | .repeated => (s.list? d).map present

/-- A value of the type `t` with the given declared fields: it has this very type and its kind, and
if it is a sum, its constructor is one of the type's and its tag is that of the constructor. -/
inductive ValueView.IsOf (v : ValueView) (t : TypeDef) : List Field → Prop
  | product {fields : List Field} :
    v.type = .typeDef t → v.kind = .product → t.shape = .product fields → v.IsOf t fields
  | sum {cs : List Constructor} {attributes : List Field} {c : Constructor} :
    v.type = .typeDef t → v.kind = .sum → t.shape = .sum cs attributes →
    v.constructor = .constructor c → c ∈ cs → v.tag.isNat c.tag = true → v.IsOf t c.fields

/-- Conformance to a type, where the contents of trusted values do not matter. Any other value has
one content for each declared field, all elements of which conform to the field's type. -/
inductive Store.Conforms (s : Store) (trusted : Ref → Bool) : TypeRef → Datum → Prop
  | primitive {p : Primitive} {d : Datum} :
    p.accepts d = true → s.Conforms trusted (.primitive p) d
  | trusted {r : Ref} {v : ValueView} {t : TypeDef} {declared : List Field} :
    s.view? (.object r) = some v → v.IsOf t declared → trusted r = true →
    s.Conforms trusted (.declared t.key) (.object r)
  | entered {r : Ref} {v : ValueView} {t : TypeDef} {declared : List Field} :
    s.view? (.object r) = some v → v.IsOf t declared → v.fields.length = declared.length →
    (∀ f ∈ declared, (s.elements? f (contentAt v.fields f.index)).isSome) →
    (∀ f ∈ declared, ∀ ds, s.elements? f (contentAt v.fields f.index) = some ds →
      ∀ d ∈ ds, s.Conforms trusted f.type d) →
    s.Conforms trusted (.declared t.key) (.object r)

/-- Conformance with all contents, no value being trusted. -/
abbrev Store.ConformsFully (s : Store) : TypeRef → Datum → Prop := s.Conforms fun _ => false

/-- `x` is a value that is not trusted, and `y` an element of one of its fields. -/
inductive Store.Nests (s : Store) (trusted : Ref → Bool) : Datum → Datum → Prop
  | mk {r : Ref} {v : ValueView} {t : TypeDef} {declared : List Field} {f : Field}
      {ds : List Datum} {y : Datum} :
    trusted r = false → s.view? (.object r) = some v → v.IsOf t declared → f ∈ declared →
    s.elements? f (contentAt v.fields f.index) = some ds → y ∈ ds →
    s.Nests trusted (.object r) y

namespace ValueView.IsOf

variable {v : ValueView} {t t' : TypeDef} {declared declared' : List Field}

theorem type_eq (h : v.IsOf t declared) : v.type = .typeDef t := by
  cases h <;> assumption

theorem kind_eq (h : v.IsOf t declared) : t.kind = v.kind := by
  cases h with
  | product _ hkind hshape => rw [hkind, TypeDef.kind, hshape, TypeShape.kind]
  | sum _ hkind hshape => rw [hkind, TypeDef.kind, hshape, TypeShape.kind]

/-- A value is of one type and has one list of declared fields. -/
theorem unique (h : v.IsOf t declared) (h' : v.IsOf t' declared') :
    t = t' ∧ declared = declared' := by
  obtain rfl : t = t' := Datum.typeDef.inj (h.type_eq.symm.trans h'.type_eq)
  refine ⟨rfl, ?_⟩
  cases h with
  | product _ hkind hshape =>
    cases h' with
    | product _ _ hshape' => exact TypeShape.product.inj (hshape.symm.trans hshape')
    | sum _ hkind' _ _ _ _ => simp [hkind] at hkind'
  | sum _ hkind _ hc _ _ =>
    cases h' with
    | product _ hkind' _ => simp [hkind] at hkind'
    | sum _ _ _ hc' _ _ => rw [Datum.constructor.inj (hc.symm.trans hc')]

end ValueView.IsOf

namespace Store

variable {s : Store} {trusted : Ref → Bool}

/-- Only what a reference leads to counts as a value. -/
theorem eq_object_of_view? {d : Datum} {v : ValueView} (h : s.view? d = some v) :
    ∃ r, d = .object r ∧ r.index < s.size := by
  cases d with
  | object r =>
    refine ⟨r, rfl, ?_⟩
    by_contra hr
    have hnone : s.get? r = none := Array.getElem?_eq_none (Nat.le_of_not_lt hr)
    simp [view?, node?, hnone] at h
  | _ => simp [view?, node?] at h

theorem Conforms.view?_of_declared {key : TypeKey} {d : Datum}
    (h : s.Conforms trusted (.declared key) d) :
    ∃ v t declared, s.view? d = some v ∧ v.IsOf t declared ∧ t.key = key := by
  cases h with
  | trusted hv ht _ => exact ⟨_, _, _, hv, ht, rfl⟩
  | entered hv ht _ _ _ => exact ⟨_, _, _, hv, ht, rfl⟩

/-- A value that conforms and is not trusted has been entered. -/
theorem Conforms.entered_of_not_trusted {key : TypeKey} {r : Ref}
    (h : s.Conforms trusted (.declared key) (.object r)) (hr : trusted r = false) :
    ∃ v t declared, s.view? (.object r) = some v ∧ v.IsOf t declared ∧
      v.fields.length = declared.length ∧
      (∀ f ∈ declared, (s.elements? f (contentAt v.fields f.index)).isSome) ∧
      ∀ f ∈ declared, ∀ ds, s.elements? f (contentAt v.fields f.index) = some ds →
        ∀ d ∈ ds, s.Conforms trusted f.type d := by
  cases h with
  | trusted _ _ hr' => simp [hr] at hr'
  | entered hv ht hlength hsome hall => exact ⟨_, _, _, hv, ht, hlength, hsome, hall⟩

/-- A scalar of a primitive type is no reference. -/
theorem ne_object_of_accepts {p : Primitive} {d : Datum} (h : p.accepts d = true) (r : Ref) :
    d ≠ .object r := by
  rintro rfl
  cases p <;> simp [Primitive.accepts] at h

/-- What conforms is inside of nothing that it nests: going from a value to elements of its fields
comes to an end. -/
theorem Conforms.acc {type : TypeRef} {d : Datum} (h : s.Conforms trusted type d) :
    Acc (fun y x => s.Nests trusted x y) d := by
  induction h with
  | primitive hp =>
    refine .intro _ fun y hy => ?_
    cases hy
    exact absurd rfl (ne_object_of_accepts hp _)
  | trusted _ _ hr =>
    refine .intro _ fun y hy => ?_
    cases hy with
    | mk hr' => simp [hr] at hr'
  | entered hv ht _ _ _ ih =>
    refine .intro _ fun y hy => ?_
    cases hy with
    | mk _ hv' ht' hf hds hy =>
      obtain rfl := Option.some.inj (hv.symm.trans hv')
      obtain ⟨rfl, rfl⟩ := ht.unique ht'
      exact ih _ hf _ hds _ hy

theorem not_self_of_acc {α : Type} {r : α → α → Prop} {a : α} (h : Acc r a) : ¬ r a a := by
  induction h with
  | intro a _ ih => exact fun ha => ih a ha ha

/-- What conforms does not contain itself. -/
theorem Conforms.not_nests_self {type : TypeRef} {d : Datum} (h : s.Conforms trusted type d) :
    ¬ Relation.TransGen (s.Nests trusted) d d :=
  fun hcycle => not_self_of_acc h.acc.transGen (Relation.transGen_swap.mpr hcycle)

/-- The elements of a value that conforms conform. -/
theorem Conforms.of_nests {type : TypeRef} {x y : Datum} (h : s.Conforms trusted type x)
    (hy : s.Nests trusted x y) : ∃ type', s.Conforms trusted type' y := by
  cases hy with
  | mk hr hv ht hf hds hy =>
    cases h with
    | primitive hp => exact absurd rfl (ne_object_of_accepts hp _)
    | trusted _ _ hr' => simp [hr] at hr'
    | entered hv' ht' _ _ hall =>
      obtain rfl := Option.some.inj (hv.symm.trans hv')
      obtain ⟨rfl, rfl⟩ := ht.unique ht'
      exact ⟨_, hall _ hf _ hds _ hy⟩

/-! ## What trust is worth -/

/-- A value that conforms to a type conforms to its own type. -/
theorem Conforms.of_type_eq {type : TypeRef} {r : Ref} {v : ValueView} {t : TypeDef}
    (h : s.Conforms trusted type (.object r)) (hv : s.view? (.object r) = some v)
    (ht : v.type = .typeDef t) : s.Conforms trusted (.declared t.key) (.object r) := by
  cases type with
  | primitive p =>
    cases h with
    | primitive hp => exact absurd rfl (ne_object_of_accepts hp r)
  | declared key =>
    obtain ⟨v', t', declared', hv', ht', rfl⟩ := h.view?_of_declared
    obtain rfl := Option.some.inj (hv.symm.trans hv')
    obtain rfl := Datum.typeDef.inj (ht.symm.trans ht'.type_eq)
    exact h

/-- A value made by construction that conforms to a type conforms to the type it was made of. -/
theorem Conforms.of_built {type : TypeRef} {r fields : Ref} {t : TypeDef} {c : Option Constructor}
    (h : s.Conforms trusted type (.object r)) (hr : s.get? r = some (.value t c fields)) :
    s.Conforms trusted (.declared t.key) (.object r) := by
  cases type with
  | primitive p =>
    cases h with
    | primitive hp => exact absurd rfl (ne_object_of_accepts hp r)
  | declared key =>
    obtain ⟨v, -, -, hv, -, -⟩ := id h.view?_of_declared
    refine h.of_type_eq hv ?_
    simp only [view?, node?, hr] at hv
    obtain ⟨items, -, rfl⟩ := Option.map_eq_some_iff.mp hv
    exact Built.view_type _

/-- What conforms goes on to conform where more is trusted. -/
theorem Conforms.mono {trusted' : Ref → Bool} {type : TypeRef} {d : Datum}
    (h : s.Conforms trusted type d) (ht : ∀ r, trusted r = true → trusted' r = true) :
    s.Conforms trusted' type d := by
  induction h with
  | primitive hp => exact .primitive hp
  | trusted hv hof hr => exact .trusted hv hof (ht _ hr)
  | entered hv hof hlength hsome _ ih => exact .entered hv hof hlength hsome ih

/-- What conforms with all contents conforms whatever is trusted. -/
theorem Conforms.trusting {type : TypeRef} {d : Datum} (h : s.ConformsFully type d) :
    s.Conforms trusted type d :=
  h.mono fun _ hr => absurd hr Bool.false_ne_true

/-- What nests without trust in its parts nests with it. -/
theorem Nests.distrusting {x y : Datum} (h : s.Nests trusted x y) :
    s.Nests (fun _ => false) x y := by
  cases h with
  | mk _ hv ht hf hds hy => exact .mk rfl hv ht hf hds hy

/-- Trust is all that conformance lacks: a datum conforms with all contents if it conforms and each
trusted value that one comes to does so with all contents. -/
theorem conformsFully_iff (trusted : Ref → Bool) {type : TypeRef} {d : Datum} :
    s.ConformsFully type d ↔ s.Conforms trusted type d ∧
      ∀ r, Relation.ReflTransGen (s.Nests trusted) d (.object r) → trusted r = true →
        ∃ type', s.ConformsFully type' (.object r) := by
  constructor
  · refine fun h => ⟨h.trusting, fun r hway _ => ?_⟩
    have hreached : ∀ y, Relation.ReflTransGen (s.Nests trusted) d y →
        ∃ type', s.ConformsFully type' y := by
      intro y hy
      induction hy with
      | refl => exact ⟨type, h⟩
      | tail _ hyz ih =>
        obtain ⟨type', hy⟩ := ih
        exact hy.of_nests hyz.distrusting
    exact hreached _ hway
  · rintro ⟨h, hfull⟩
    induction h with
    | primitive hp => exact .primitive hp
    | trusted hv ht hr =>
      obtain ⟨type', hr⟩ := hfull _ .refl hr
      exact hr.of_type_eq hv ht.type_eq
    | @entered r v t declared hv ht hlength hsome hall ih =>
      by_cases hr : trusted r = true
      · obtain ⟨type', hr⟩ := hfull r .refl hr
        exact hr.of_type_eq hv ht.type_eq
      · refine .entered hv ht hlength hsome fun f hf ds hds d hd => ih f hf ds hds d hd ?_
        have hnests : s.Nests trusted (.object r) d :=
          .mk (Bool.eq_false_iff.mpr hr) hv ht hf hds hd
        exact fun r' hway => hfull r' (.head hnests hway)

/-! ## Lists and values -/

/-- A list does not count as a value. -/
theorem view?_eq_none_of_list? {d : Datum} {items : List (Option Datum)} (h : s.list? d = some items) :
    s.view? d = none := by
  unfold list? at h
  split at h
  next hnode => simp only [view?, hnode]
  next => cases h

theorem not_conforms_of_list? {d : Datum} {items : List (Option Datum)} (h : s.list? d = some items)
    (type : TypeRef) : ¬ s.Conforms trusted type d := by
  intro hd
  cases type with
  | primitive p =>
    cases hd with
    | primitive hp =>
      cases d with
      | object r => exact ne_object_of_accepts hp r rfl
      | _ => cases h
  | declared key =>
    obtain ⟨v, t, declared, hv, -⟩ := hd.view?_of_declared
    rw [view?_eq_none_of_list? h] at hv
    cases hv

theorem isEmpty_of_list? {d : Datum} {items : List (Option Datum)} (h : s.list? d = some items) :
    s.isEmpty d = false := by
  unfold list? at h
  split at h
  next hnode =>
    cases d with
    | object r => simp [isEmpty, isAbsent, kindName?, property?, hnode]
    | _ => cases hnode
  next => cases h

/-- A value is never taken for the absence of one. -/
theorem isEmpty_of_view? {d : Datum} {v : ValueView} (h : s.view? d = some v) :
    s.isEmpty d = false := by
  obtain ⟨r, rfl, -⟩ := eq_object_of_view? h
  unfold view? at h
  split at h
  next type constructor fields hnode =>
    cases constructor <;> simp only [isEmpty, isAbsent, kindName?, hnode] <;> decide
  next properties hnode =>
    obtain ⟨kind, hkind, h⟩ := Option.bind_eq_some_iff.mp h
    obtain ⟨k, hk, -⟩ := Option.bind_eq_some_iff.mp h
    cases kind with
    | text name =>
      simp only [isEmpty, isAbsent, kindName?, property?, hnode, hkind]
      unfold TypeKind.ofDatum? at hk
      rw [decide_eq_false_iff_not]
      rintro ⟨⟩
      cases hk
    | _ => cases hk
  next => cases h

/-! ## Change of stores -/

variable {s' : Store}

theorem contentAt_mem_or (contents : List Datum) (index : Nat) :
    contentAt contents index ∈ contents ∨ contentAt contents index = .missing := by
  unfold contentAt
  cases hc : contents[index]? with
  | none => exact .inr rfl
  | some c => exact .inl (List.mem_of_getElem? hc)

theorem holds_contentAt {contents : List Datum} (h : ∀ d ∈ contents, s.Holds d) (index : Nat) :
    s.Holds (contentAt contents index) := by
  rcases contentAt_mem_or contents index with hmem | hmissing
  · exact h _ hmem
  · rw [hmissing]
    exact fun _ heq => by cases heq

/-- No way leads on from what is no reference. -/
theorem not_reaches_of_ne_object {d : Datum} (h : ∀ r, d ≠ .object r) (r : Ref) :
    ¬ s.Reaches d (.object r) := by
  intro hr
  rcases hr.cases_head with rfl | ⟨y, ⟨n, hn, -⟩, -⟩
  · exact h r rfl
  · cases d with
    | object r => exact h r rfl
    | _ => cases hn

/-- One gets from a value to its contents, unless there is none. -/
theorem reaches_content {d : Datum} {v : ValueView} (hv : s.view? d = some v) (index : Nat) :
    s.Reaches d (contentAt v.fields index) ∨ contentAt v.fields index = .missing := by
  rcases contentAt_mem_or v.fields index with hc | hc
  · exact reaches_of_view? hv hc
  · exact .inr hc

theorem SameBelow.content {d : Datum} {v : ValueView} (h : s.SameBelow s' d)
    (hv : s.view? d = some v) (index : Nat) : s.SameBelow s' (contentAt v.fields index) := by
  rcases reaches_content hv index with hc | hc
  · exact h.of_reaches hc
  · rw [hc]
    exact fun r hr => absurd hr (not_reaches_of_ne_object (fun r hr => by cases hr) r)

theorem SameBelow.elements?_eq {d : Datum} (h : s.SameBelow s' d) (f : Field) :
    s'.elements? f d = s.elements? f d := by
  simp only [elements?, h.isEmpty_eq, h.list?_eq]

theorem reaches_of_elements? {f : Field} {d e : Datum} {ds : List Datum}
    (h : s.elements? f d = some ds) (he : e ∈ ds) : s.Reaches d e := by
  unfold elements? at h
  cases hm : f.multiplicity <;> simp only [hm, Option.some.injEq] at h
  case single =>
    rw [← h, List.mem_singleton] at he
    rw [he]
  case optional =>
    rw [← h] at he
    split_ifs at he
    · cases he
    · rw [List.mem_singleton.mp he]
  case repeated =>
    obtain ⟨items, hitems, rfl⟩ := Option.map_eq_some_iff.mp h
    exact .single (mentions_of_list? hitems (mem_present.mp he))

/-- Elements of the fields of values are reached. -/
theorem reaches_of_nests {x : Datum} {r : Ref}
    (h : Relation.ReflTransGen (s.Nests trusted) x (.object r)) : s.Reaches x (.object r) := by
  induction h using Relation.ReflTransGen.head_induction_on with
  | refl => exact .refl
  | head hxy _ ih =>
    cases hxy with
    | @mk _ v _ _ f _ _ _ hv _ _ hds hy =>
      have hcontent := (reaches_of_elements? hds hy).trans ih
      rcases reaches_content hv f.index with hreaches | hmissing
      · exact hreaches.trans hcontent
      · rw [hmissing] at hcontent
        exact absurd hcontent (not_reaches_of_ne_object (fun _ => by simp) r)

/-- What conforms goes on to conform where nothing below it is changed. -/
theorem Conforms.sameBelow {type : TypeRef} {d : Datum} (h : s.Conforms trusted type d)
    (hs : s.SameBelow s' d) : s'.Conforms trusted type d := by
  induction h with
  | primitive hp => exact .primitive hp
  | trusted hv ht hr => exact .trusted (hs.view?_eq.trans hv) ht hr
  | entered hv ht hlength hsome hall ih =>
    refine .entered (hs.view?_eq.trans hv) ht hlength (fun f hf => ?_) fun f hf ds hds d hd => ?_
    · rw [(hs.content hv f.index).elements?_eq f]
      exact hsome f hf
    · rw [(hs.content hv f.index).elements?_eq f] at hds
      exact ih f hf ds hds d hd
        ((hs.content hv f.index).of_reaches (reaches_of_elements? hds hd))

end Store

end Schemata
