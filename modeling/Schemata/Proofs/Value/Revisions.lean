import Schemata.Proofs.Session
import Schemata.Proofs.Value.Violations

/-!
# Contents that are not read

Two stores are compared of which one has other items in its lists, at as many indices as before,
except at some places that are kept (`Store.Revises`). Items apart, nothing can be told from its
nodes (`Store.LooksLike`). So a check gets to the same spots in both, as far as the places are kept
that they stand in (`Spot.leads_iff`), and finds something wrong there in both or in none
(`Spot.Violates.exists_of_looksLike`).

A check that fails does so at the first violation, whatever comes later in the order of fields and
items (`Store.check_eq_error`).
-/

namespace Schemata

namespace Store

variable {s s' : Store} {kept : Ref → ℕ → Prop} {d e : Datum} {r l : Ref} {v : ValueView}
  {items : List (Option Datum)}

/-! ## Stores that differ in items -/

/-- A datum refers to the same node in both stores, up to what the items of a list are. -/
inductive SameForm (s s' : Store) (d : Datum) : Prop
  | list {frozen : Bool} {items items' : List (Option Datum)} :
    s.node? d = some (.list frozen items) → s'.node? d = some (.list frozen items') →
    items'.length = items.length → s.SameForm s' d
  | same : s'.node? d = s.node? d → (∀ frozen items, s.node? d ≠ some (.list frozen items)) →
    s.SameForm s' d

/-- The item of a list, or the hole, at an index. -/
def item? (s : Store) (l : Ref) (i : ℕ) : Option (Option Datum) :=
  (s.list? (.object l)).bind (·[i]?)

/-- Wherever one gets to from `d` in `s`, there is the same node in `s'`, with as many items and
holes. Those that are kept are the same. What else there is in `s'` may be anything. -/
def Revises (s s' : Store) (kept : Ref → ℕ → Prop) (d : Datum) : Prop :=
  ∀ r, s.Reaches d (.object r) →
    s.SameForm s' (.object r) ∧ ∀ i, kept r i → s'.item? r i = s.item? r i

namespace SameForm

theorem symm (h : s.SameForm s' d) : s'.SameForm s d := by
  cases h with
  | list hn hn' hlength => exact .list hn' hn hlength.symm
  | same hn hlist => exact .same hn.symm fun frozen items => hn ▸ hlist frozen items

theorem of_ne_object (h : ∀ r, d ≠ .object r) : s.SameForm s' d := by
  cases d with
  | object r => exact absurd rfl (h r)
  | _ => exact .same rfl (by simp [node?])

/-- What is no list is the same in both stores. -/
theorem node?_eq {n : Node} (h : s.SameForm s' d) (hd : s.node? d = some n)
    (hn : ∀ frozen items, n ≠ .list frozen items) : s'.node? d = some n := by
  cases h with
  | list hlist => exact absurd (Option.some.inj (hd.symm.trans hlist)) (hn _ _)
  | same hsame => exact hsame.trans hd

theorem property?_eq (h : s.SameForm s' d) (key : String) :
    s'.property? d key = s.property? d key := by
  unfold property?
  cases h with
  | list hn hn' => simp only [hn, hn']
  | same hn => rw [hn]

theorem name_eq (h : s.SameForm s' d) : s'.name d = s.name d := by
  unfold name
  rw [h.property?_eq]

theorem kindName?_eq (h : s.SameForm s' d) : s'.kindName? d = s.kindName? d := by
  unfold kindName?
  rw [h.property?_eq]
  cases h with
  | list hn hn' => simp only [hn, hn']
  | same hn => rw [hn]

theorem isAbsent_eq (h : s.SameForm s' d) : s'.isAbsent d = s.isAbsent d := by
  unfold isAbsent
  rw [h.kindName?_eq]

theorem isEmpty_eq (h : s.SameForm s' d) : s'.isEmpty d = s.isEmpty d := by
  unfold isEmpty
  rw [h.isAbsent_eq]

theorem isBuilt_eq (h : s.SameForm s' (.object r)) : Check.isBuilt s' r = Check.isBuilt s r := by
  have hnode (s : Store) : s.get? r = s.node? (.object r) := rfl
  unfold Check.isBuilt
  rw [hnode, hnode]
  cases h with
  | list hn hn' => simp only [hn, hn']
  | same hn => rw [hn]

theorem exists_list? (h : s.SameForm s' d) (hd : s.list? d = some items) :
    ∃ items', s'.list? d = some items' ∧ items'.length = items.length := by
  unfold list? at *
  cases h with
  | list hn hn' hlength =>
    rw [hn] at hd
    rw [hn']
    obtain rfl := Option.some.inj hd
    exact ⟨_, rfl, hlength⟩
  | same hn =>
    rw [hn]
    exact ⟨_, hd, rfl⟩

theorem list?_eq_none (h : s.SameForm s' d) (hd : s.list? d = none) : s'.list? d = none := by
  cases hd' : s'.list? d with
  | none => rfl
  | some items' =>
    obtain ⟨items, hitems, -⟩ := h.symm.exists_list? hd'
    cases hd.symm.trans hitems

end SameForm

/-- A datum has the same form in both stores, and what it holds as a plain object has, too, or the
list of its contents. -/
structure LooksLike (s s' : Store) (d : Datum) : Prop where
  form : s.SameForm s' d
  property : ∀ key e, s.property? d key = some e → s.SameForm s' e
  contents : ∀ t c fields, s.node? d = some (.value t c fields) → s.SameForm s' (.object fields)

/-- The type, the constructor and the tag of a plain object that counts as a value. -/
theorem properties_of_recordView? {properties : Record Datum} (h : s.recordView? properties = some v) :
    v.type = (properties.get? "type").getD .missing ∧
      v.constructor = (properties.get? "ctor").getD .missing ∧
      v.tag = (properties.get? "tag").getD .missing := by
  have htype := (of_recordView? h).1
  obtain ⟨_, -, h⟩ := Option.bind_eq_some_iff.mp h
  obtain ⟨kind, -, h⟩ := Option.bind_eq_some_iff.mp h
  obtain ⟨type, -, h⟩ := Option.bind_eq_some_iff.mp h
  obtain ⟨list, -, h⟩ := Option.bind_eq_some_iff.mp h
  obtain ⟨fields, -, h⟩ := Option.bind_eq_some_iff.mp h
  dsimp only at h
  split_ifs at h
  obtain rfl := Option.some.inj h
  exact ⟨by rw [htype]; rfl, rfl, rfl⟩

/-- The fields apart, a plain object is the same value. -/
theorem recordView?_revised {properties : Record Datum} {list : Datum}
    {items' : List (Option Datum)} (hlist : properties.get? "fields" = some list)
    (hitems : s.list? list = some items) (hitems' : s'.list? list = some items') :
    s'.recordView? properties =
      (s.recordView? properties).map fun v => { v with fields := readItems items' } := by
  unfold recordView?
  cases properties.get? "kind" with
  | none => rfl
  | some kind =>
    cases hkind : TypeKind.ofDatum? kind with
    | none => simp [hkind]
    | some kind =>
      cases (properties.get? "type").filter Datum.isObject with
      | none => simp
      | some type =>
        simp only [hkind, hlist, hitems, hitems', Option.bind_eq_bind, Option.bind_some]
        split_ifs <;> rfl

/-- A property that may be missing has the same form. -/
theorem LooksLike.getD_property (h : s.LooksLike s' d) {properties : Record Datum}
    (hn : s.node? d = some (.record properties)) (key : String) :
    s.SameForm s' ((properties.get? key).getD .missing) := by
  cases he : properties.get? key with
  | none => exact .of_ne_object (by simp)
  | some e =>
    refine h.property key e ?_
    simp only [property?, hn, he]

namespace LooksLike

theorem symm (h : s.LooksLike s' d) : s'.LooksLike s d where
  form := h.form.symm
  property key e he := (h.property key e ((h.form.property?_eq key).symm.trans he)).symm
  contents t c fields hn := (h.contents t c fields (h.form.symm.node?_eq hn (by simp))).symm

/-- The fields apart, a datum counts as the same value in both stores. -/
theorem exists_view? (h : s.LooksLike s' d) (hv : s.view? d = some v) :
    ∃ fields, fields.length = v.fields.length ∧ s'.view? d = some { v with fields := fields } := by
  unfold view? at *
  split at hv
  next type constructor fields hn =>
    rw [h.form.node?_eq hn (by simp)]
    obtain ⟨items, hitems, rfl⟩ := Option.map_eq_some_iff.mp hv
    obtain ⟨items', hitems', hlength⟩ := (h.contents _ _ _ hn).exists_list? hitems
    refine ⟨readItems items', ?_, ?_⟩
    · simpa [Built.view_fields, readItems] using hlength
    · simp only [hitems', Option.map_some]
      cases constructor <;> rfl
  next properties hn =>
    rw [h.form.node?_eq hn (by simp)]
    obtain ⟨-, list, items, hlist, hitems, hfields⟩ := of_recordView? hv
    have hproperty : s.property? d "fields" = some list := by simp only [property?, hn, hlist]
    obtain ⟨items', hitems', hlength⟩ := (h.property _ _ hproperty).exists_list? hitems
    refine ⟨readItems items', by simpa [hfields, readItems] using hlength, ?_⟩
    simp only [recordView?_revised hlist hitems hitems', hv, Option.map_some]
  next => cases hv

theorem view?_eq_none (h : s.LooksLike s' d) (hd : s.view? d = none) : s'.view? d = none := by
  cases hd' : s'.view? d with
  | none => rfl
  | some v =>
    obtain ⟨fields, -, hv⟩ := h.symm.exists_view? hd'
    cases hd.symm.trans hv

/-- What a value says of its type and its constructor has the same form. -/
theorem sameForm_of_view? (h : s.LooksLike s' d) (hv : s.view? d = some v) :
    s.SameForm s' v.type ∧ s.SameForm s' v.constructor := by
  unfold view? at hv
  split at hv
  next type constructor fields hn =>
    obtain ⟨_, -, rfl⟩ := Option.map_eq_some_iff.mp hv
    cases constructor with
    | _ => exact ⟨.of_ne_object (by simp [Built.view]), .of_ne_object (by simp [Built.view])⟩
  next properties hn =>
    obtain ⟨htype, hconstructor, -⟩ := properties_of_recordView? hv
    rw [htype, hconstructor]
    exact ⟨h.getD_property hn "type", h.getD_property hn "ctor"⟩
  next => cases hv

theorem label_eq (h : s.LooksLike s' d) (hv : s.view? d = some v) (fields : List Datum) :
    s'.label { v with fields := fields } = s.label v := by
  obtain ⟨htype, hconstructor⟩ := h.sameForm_of_view? hv
  unfold label
  dsimp only
  rw [htype.name_eq, hconstructor.name_eq]

/-- A datum is described alike, if the names that are said of a value have the same texts. -/
theorem describe_eq (h : s.LooksLike s' d)
    (hnames : ∀ v, s.view? d = some v → s.kindName? v.type = some v.kind.name →
      s'.display (s.label v) = s.display (s.label v) ∧
        s'.display (s.name v.type) = s.display (s.name v.type)) :
    s'.describe d = s.describe d := by
  have habsent := h.form.isAbsent_eq
  unfold describe
  cases hv : s.view? d with
  | none =>
    have hv' := h.view?_eq_none hv
    have hlist : (s'.list? d).isSome = (s.list? d).isSome := by
      cases hitems : s.list? d with
      | none => rw [h.form.list?_eq_none hitems]
      | some items =>
        obtain ⟨items', hitems', -⟩ := h.form.exists_list? hitems
        rw [hitems']
        rfl
    cases d with
    | _ => simp only [habsent, hv, hv', hlist]
  | some v =>
    obtain ⟨fields, -, hv'⟩ := h.exists_view? hv
    obtain ⟨htype, -⟩ := h.sameForm_of_view? hv
    have hlabel := h.label_eq hv fields
    have hkind := htype.kindName?_eq
    have hname := htype.name_eq
    by_cases hwell : s.kindName? v.type = some v.kind.name
    · obtain ⟨hlabel', hname'⟩ := hnames v hv hwell
      cases d with
      | _ => simp only [habsent, hv, hv', hlabel, hlabel', hkind, hname, hname']
    · cases d with
      | _ => simp only [habsent, hv, hv', hkind, if_neg hwell]

end LooksLike

/-! ## What is below a datum -/

/-- Everything that one gets to from `e` one gets to from `d`. -/
def Within (s : Store) (e d : Datum) : Prop := ∀ r, s.Reaches e (.object r) → s.Reaches d (.object r)

namespace Within

theorem of_reaches (h : s.Reaches d e) : s.Within e d := fun _ hr => h.trans hr

theorem of_ne_object (h : ∀ r, e ≠ .object r) : s.Within e d :=
  fun r hr => absurd hr (not_reaches_of_ne_object h r)

theorem trans {e' : Datum} (h : s.Within e' e) (h' : s.Within e d) : s.Within e' d :=
  fun r hr => h' r (h r hr)

end Within

theorem reaches_property {key : String} (he : s.property? d key = some e) : s.Reaches d e := by
  unfold property? at he
  split at he
  next properties hn => exact .single ⟨_, hn, Record.mem_of_get? he⟩
  next => cases he

theorem within_property (s : Store) (d : Datum) (key : String) :
    s.Within ((s.property? d key).getD .missing) d := by
  cases he : s.property? d key with
  | none => exact .of_ne_object (by simp)
  | some e => exact .of_reaches (reaches_property he)

theorem within_name (s : Store) (d : Datum) : s.Within (s.name d) d := by
  unfold name
  split
  · exact .of_ne_object (by simp)
  · exact .of_ne_object (by simp)
  · exact s.within_property d "name"

theorem within_of_view? (hv : s.view? d = some v) :
    s.Within v.type d ∧ s.Within v.constructor d ∧ s.Within v.tag d := by
  unfold view? at hv
  split at hv
  next type constructor fields hn =>
    obtain ⟨_, -, rfl⟩ := Option.map_eq_some_iff.mp hv
    cases constructor with
    | _ =>
      refine ⟨.of_ne_object ?_, .of_ne_object ?_, .of_ne_object ?_⟩ <;> simp [Built.view]
  next properties hn =>
    obtain ⟨htype, hconstructor, htag⟩ := properties_of_recordView? hv
    have hproperty (key : String) : properties.get? key = s.property? d key := by
      simp only [property?, hn]
    rw [htype, hconstructor, htag, hproperty, hproperty, hproperty]
    exact ⟨s.within_property d "type", s.within_property d "ctor", s.within_property d "tag"⟩
  next => cases hv

/-- The label of a value is that of its constructor or its type. -/
theorem within_label (hv : s.view? d = some v) : s.Within (s.label v) d := by
  obtain ⟨htype, hconstructor, -⟩ := within_of_view? hv
  unfold label
  cases v.kind with
  | sum => exact (s.within_name v.constructor).trans hconstructor
  | product => exact (s.within_name v.type).trans htype

namespace Revises

theorem within (h : s.Revises s' kept d) (he : s.Within e d) : s.Revises s' kept e :=
  fun r hr => h r (he r hr)

theorem sameForm (h : s.Revises s' kept d) (he : s.Reaches d e) : s.SameForm s' e := by
  cases e with
  | object r => exact (h r he).1
  | _ => exact .of_ne_object (by simp)

theorem looksLike (h : s.Revises s' kept d) : s.LooksLike s' d where
  form := h.sameForm .refl
  property _ _ he := h.sameForm (reaches_property he)
  contents _ _ _ hn := h.sameForm (.single ⟨_, hn, by simp [Node.data]⟩)

end Revises

/-! ## Texts of data -/

/-- The text of a datum, of a list in particular, is made of an item or a hole. -/
inductive Displays (s : Store) : Datum → Ref → ℕ → Prop
  | item {l : Ref} {items : List (Option Datum)} {i : ℕ} : s.list? (.object l) = some items →
    i < items.length → s.Displays (.object l) l i
  | inside {d e : Datum} {items : List (Option Datum)} {l : Ref} {i : ℕ} :
    s.list? d = some items → some e ∈ items → s.Displays e l i → s.Displays d l i

theorem Revises.list?_eq (h : s.Revises s' kept (.object l)) (hl : s.list? (.object l) = some items)
    (hkept : ∀ i < items.length, kept l i) : s'.list? (.object l) = some items := by
  obtain ⟨hform, hitem⟩ := h l .refl
  obtain ⟨items', hl', hlength⟩ := hform.exists_list? hl
  have hitems : items' = items := by
    refine List.ext_getElem? fun i => ?_
    by_cases hi : i < items.length
    · simpa only [item?, hl, hl', Option.bind_some] using hitem i (hkept i hi)
    · rw [List.getElem?_eq_none (by omega), List.getElem?_eq_none (by omega)]
  rw [hl', hitems]

theorem displayWithin_of_mem {room : ℕ} {inside : List Ref} (hl : s.list? (.object l) = some items)
    (hinside : l ∈ inside) : s.displayWithin room inside (.object l) = some "" := by
  unfold displayWithin
  simp only [hl, if_pos hinside]

theorem displayWithin_succ {room : ℕ} {inside : List Ref} (hl : s.list? (.object l) = some items)
    (hinside : l ∉ inside) : s.displayWithin (room + 1) inside (.object l) =
      displayItems (s.displayWithin room (l :: inside)) items := by
  unfold displayWithin
  simp only [hl, if_neg hinside]

theorem displayWithin_object {room : ℕ} {inside : List Ref} (hl : s.list? (.object l) = none) :
    s.displayWithin room inside (.object l) =
      if (s.property? (.object l) textProperty).isSome then none else some "[object Object]" := by
  unfold displayWithin
  simp only [hl]

theorem displayItems_congr {display display' : Datum → Option String}
    (h : ∀ d, some d ∈ items → display d = display' d) :
    displayItems display items = displayItems display' items := by
  unfold displayItems
  refine congrArg _ (Outcome.mapM_congr fun item hitem => ?_)
  unfold displayItem
  split
  · rfl
  · rfl
  · rfl
  · exact h _ hitem

theorem displayWithin_eq {room more : ℕ} {inside : List Ref} (h : s.Revises s' kept d)
    (hkept : ∀ l i, s.Displays d l i → kept l i) (hroom : Check.Ample s room inside)
    (hmore : Check.Ample s' more inside) :
    s'.displayWithin more inside d = s.displayWithin room inside d := by
  induction room using Nat.strongRecOn generalizing more inside d with
  | ind room ih =>
    cases d with
    | object l =>
      cases hl : s.list? (.object l) with
      | none =>
        have hform := (h l .refl).1
        rw [displayWithin_object hl, displayWithin_object (hform.list?_eq_none hl),
          hform.property?_eq]
      | some items =>
        have hl' : s'.list? (.object l) = some items :=
          h.list?_eq hl fun i hi => hkept l i (.item hl hi)
        by_cases hinside : l ∈ inside
        · rw [displayWithin_of_mem hl hinside, displayWithin_of_mem hl' hinside]
        cases room with
        | zero => exact absurd (hroom.mem (lt_size_of_list? hl)) hinside
        | succ room =>
          cases more with
          | zero => exact absurd (hmore.mem (lt_size_of_list? hl')) hinside
          | succ more =>
            rw [displayWithin_succ hl hinside, displayWithin_succ hl' hinside]
            refine displayItems_congr fun e he => ?_
            exact ih room (by omega) (h.within (.of_reaches (.single (mentions_of_list? hl he))))
              (fun l' i hdisplays => hkept l' i (.inside hl he hdisplays))
              (hroom.enter (lt_size_of_list? hl) hinside)
              (hmore.enter (lt_size_of_list? hl') hinside)
    | _ => unfold displayWithin; rfl

/-- The text of a datum stays the same if the items that it is made of do. -/
theorem Revises.display_eq (h : s.Revises s' kept d) (hkept : ∀ l i, s.Displays d l i → kept l i) :
    s'.display d = s.display d :=
  displayWithin_eq h hkept (.start s) (.start s')

end Store

theorem ValueView.IsOf.with_fields {v : ValueView} {t : TypeDef} {declared : List Field}
    (h : v.IsOf t declared) (fields : List Datum) :
    ({ v with fields := fields } : ValueView).IsOf t declared := by
  cases h with
  | product htype hkind hshape => exact .product htype hkind hshape
  | sum htype hkind hshape hc hmem htag => exact .sum htype hkind hshape hc hmem htag

/-! ## Spots in both stores -/

namespace Spot

/-- What the way leads to stands in the list, as the item with the index or as a hole. -/
inductive Stands (s : Store) : Spot → List ℕ → Ref → ℕ → Prop
  | part {p q : Spot} {entered : List Ref} {k i : ℕ} {step : PathStep} {l : Ref} :
    p.Part s entered k step l i q → Stands s p [k] l i
  | hole {p : Spot} {items : List (Option Datum)} {i : ℕ} {l : Ref} :
    p.field.multiplicity = .repeated → p.datum = .object l → s.list? (.object l) = some items →
    items[i]? = some none → Stands s p [i] l i
  | inside {p q : Spot} {entered : List Ref} {k i i' : ℕ} {step : PathStep} {l l' : Ref}
      {way : List ℕ} :
    p.Part s entered k step l' i' q → q.Stands s way l i → p.Stands s (k :: way) l i

/-- The item of the list is read on the way or before. -/
def Reads (s : Store) (p : Spot) (way : List ℕ) (l : Ref) (i : ℕ) : Prop :=
  ∃ way', Precedes way' way ∧ p.Stands s way' l i

/-- The datum is a part of what is said of the violation: the tag, or one of the names of a value of
another type. -/
inductive Says (s : Store) (p : Spot) : Mismatch → Datum → Prop
  | tag {v : ValueView} {text : Option String} {name : String} {own : ℕ} :
    s.view? p.datum = some v → p.Says s (.wrongTag text name own) v.tag
  | label {v : ValueView} {what : String} {found : Option String} : s.view? p.datum = some v →
    s.kindName? v.type = some v.kind.name → p.Says s (.expected what found) (s.label v)
  | name {v : ValueView} {what : String} {found : Option String} : s.view? p.datum = some v →
    s.kindName? v.type = some v.kind.name → p.Says s (.expected what found) (s.name v.type)

variable {s s' : Store} {kept : Ref → ℕ → Prop} {p q q' : Spot} {inside inside' entered : List Ref}
  {r l : Ref} {v : ValueView} {t : TypeDef} {declared : List Field} {cause : Mismatch} {k i : ℕ}
  {step : PathStep} {way : List ℕ} {steps steps' : List PathStep}

theorem Asks.of_looksLike (hp : p.Asks s) (h : s.LooksLike s' p.datum) : p.Asks s' :=
  ⟨hp.ne_repeated, fun hm => h.form.isEmpty_eq.trans (hp.present hm)⟩

theorem Claims.exists_of_looksLike (hp : p.Claims s v t) (h : s.LooksLike s' p.datum) :
    ∃ fields, fields.length = v.fields.length ∧ p.Claims s' { v with fields := fields } t := by
  obtain ⟨fields, hlength, hv⟩ := h.exists_view? hp.view
  exact ⟨fields, hlength, hp.asks.of_looksLike h, hp.asked, hv, hp.type, hp.kind⟩

theorem Opens.exists_of_looksLike (hp : p.Opens s r v declared) (h : s.LooksLike s' p.datum) :
    ∃ fields, fields.length = v.fields.length ∧
      p.Opens s' r { v with fields := fields } declared := by
  obtain ⟨t, ht, hof⟩ := hp.claims
  obtain ⟨fields, hlength, ht'⟩ := ht.exists_of_looksLike h
  have hform := h.form
  rw [hp.datum] at hform
  exact ⟨fields, hlength, ⟨t, ht', hof.with_fields fields⟩, hp.datum,
    hform.isBuilt_eq.trans hp.made⟩

/-- What is wrong in one store is wrong in the other one. The same is said of it, if the texts of
what is said are the same. -/
theorem Violates.exists_of_looksLike (hp : p.Violates s inside cause) (h : s.LooksLike s' p.datum) :
    ∃ cause', p.Violates s' inside cause' ∧
      ((∀ d, p.Says s cause d → s'.display d = s.display d) → cause' = cause) := by
  have hdescribe {what : String} {found : Option String}
      (hwords : ∀ d, p.Says s (.expected what found) d → s'.display d = s.display d) :
      s'.describe p.datum = s.describe p.datum :=
    h.describe_eq fun v hv hkind => ⟨hwords _ (.label hv hkind), hwords _ (.name hv hkind)⟩
  cases hp with
  | list hm hlist =>
    refine ⟨_, .list hm (h.form.list?_eq_none hlist), fun hwords => ?_⟩
    rw [hdescribe hwords]
  | primitive hp htype hd =>
    refine ⟨_, .primitive (hp.of_looksLike h) htype hd, fun hwords => ?_⟩
    rw [hdescribe hwords]
  | type hp htype hnone =>
    refine ⟨_, .type (hp.of_looksLike h) htype fun v t ht => ?_, fun hwords => ?_⟩
    · obtain ⟨fields, -, ht'⟩ := ht.exists_of_looksLike h.symm
      exact hnone _ _ ht'
    · rw [hdescribe hwords]
  | constructor ht hshape hc =>
    obtain ⟨fields, -, ht'⟩ := ht.exists_of_looksLike h
    exact ⟨_, .constructor ht' hshape hc, fun _ => rfl⟩
  | @tag v _ _ _ c ht hshape hc hmem htag =>
    obtain ⟨fields, -, ht'⟩ := ht.exists_of_looksLike h
    refine ⟨_, .tag ht' hshape hc hmem htag, fun hwords => ?_⟩
    rw [← hwords _ (.tag ht.view)]
  | inside ho hlabel hr =>
    obtain ⟨fields, -, ho'⟩ := ho.exists_of_looksLike h
    obtain ⟨t, ht, -⟩ := ho.claims
    exact ⟨_, .inside ho' ((h.label_eq ht.view fields).trans hlabel) hr, fun _ => rfl⟩
  | count ho hlabel hr hlength =>
    obtain ⟨fields, hfields, ho'⟩ := ho.exists_of_looksLike h
    obtain ⟨t, ht, -⟩ := ho.claims
    refine ⟨_, .count ho' ((h.label_eq ht.view fields).trans hlabel) hr (hfields ▸ hlength),
      fun _ => ?_⟩
    rw [hfields]

theorem Part.datum_eq (hp : p.Part s entered k step l i q) :
    q.datum = (s.item? l i).join.getD .missing := by
  cases hp with
  | field ho hl hk =>
    obtain ⟨l', items, hl', hitems, hfields⟩ := ho.exists_list
    obtain rfl := Datum.object.inj (Option.some.inj (hl.symm.trans hl'))
    rw [Store.item?, hitems, Option.bind_some, hfields]
    exact contentAt_readItems items _
  | item _ _ hitems he =>
    rw [Store.item?, hitems, Option.bind_some, he]
    rfl

theorem Part.reaches (hp : p.Part s entered k step l i q) : s.Reaches p.datum (.object l) := by
  cases hp with
  | field ho hl _ =>
    rw [ho.datum]
    exact Store.reaches_property hl
  | item _ hd _ _ => rw [hd]

/-- What is a part in one store stands at the same place in the other one, if only as a hole. -/
theorem Part.stands_of_looksLike (hp : p.Part s entered k step l i q) (h : s.LooksLike s' p.datum) :
    p.Stands s' [k] l i := by
  cases hp with
  | field ho hl hk =>
    obtain ⟨fields, -, ho'⟩ := ho.exists_of_looksLike h
    have hform := h.form
    rw [ho.datum] at hform
    exact .part (.field ho' ((hform.property?_eq _).trans hl) hk)
  | item hm hd hitems he =>
    have hform := h.form
    rw [hd] at hform
    obtain ⟨items', hitems', hlength⟩ := hform.exists_list? hitems
    have hi : k < items'.length := hlength ▸ (List.getElem?_eq_some_iff.mp he).1
    have he' : items'[k]? = some items'[k] := List.getElem?_eq_getElem hi
    cases hitem : items'[k] with
    | none => exact .hole hm hd hitems' (hitem ▸ he')
    | some e' => exact .part (.item hm hd hitems' (hitem ▸ he'))

/-- A part in one store is one in the other one, if the item that it is of the list is the same. -/
theorem Part.of_looksLike (hp : p.Part s entered k step l i q) (h : s.LooksLike s' p.datum)
    (hitem : s'.item? l i = s.item? l i) : p.Part s' entered k step l i q := by
  have hdatum := hp.datum_eq
  cases hp with
  | @field _ _ v _ _ f ho hl hk =>
    obtain ⟨fields, -, ho'⟩ := ho.exists_of_looksLike h
    have hform := h.form
    rw [ho.datum] at hform
    have hp' := Part.field ho' ((hform.property?_eq _).trans hl) hk
    have hcontent : contentAt fields f.index = contentAt v.fields f.index := by
      have hdatum' := hp'.datum_eq
      rwa [hitem, ← hdatum] at hdatum'
    rwa [← hcontent]
  | item hm hd hitems he =>
    rw [Store.item?, Store.item?, hitems, Option.bind_some, he] at hitem
    obtain ⟨items', hitems', he'⟩ := Option.bind_eq_some_iff.mp hitem
    exact .item hm hd hitems' he'

theorem part_iff (h : s.Revises s' kept p.datum) (hkept : ∀ l i, p.Stands s [k] l i → kept l i) :
    p.Part s' entered k step l i q ↔ p.Part s entered k step l i q := by
  constructor
  · intro hq
    have hstands := hq.stands_of_looksLike h.looksLike.symm
    have hreaches : s.Reaches p.datum (.object l) := by
      cases hstands with
      | part hpart => exact hpart.reaches
      | hole _ hd => rw [hd]
      | inside _ hstands => cases hstands
    exact hq.of_looksLike h.looksLike.symm ((h l hreaches).2 i (hkept l i hstands)).symm
  · exact fun hq => hq.of_looksLike h.looksLike ((h l hq.reaches).2 i (hkept l i (.part hq)))

theorem Part.within (hp : p.Part s entered k step l i q) : s.Within q.datum p.datum := by
  have hdatum := hp.datum_eq
  cases hitem : (s.item? l i).join with
  | none =>
    rw [hitem] at hdatum
    exact hdatum ▸ .of_ne_object (by simp)
  | some e =>
    rw [hitem] at hdatum
    obtain ⟨items, hitems, he⟩ := Option.bind_eq_some_iff.mp (Option.join_eq_some_iff.mp hitem)
    refine .of_reaches (hp.reaches.tail ?_)
    exact hdatum ▸ Store.mentions_of_list? hitems (List.mem_of_getElem? he)

theorem Leads.within (hway : p.Leads s way steps inside q) : s.Within q.datum p.datum := by
  induction hway with
  | here p => exact .of_reaches .refl
  | step hpart _ ih => exact ih.trans hpart.within

theorem Says.within {d : Datum} (hd : p.Says s cause d) : s.Within d p.datum := by
  cases hd with
  | tag hv => exact (Store.within_of_view? hv).2.2
  | label hv => exact Store.within_label hv
  | name hv => exact (s.within_name _).trans (Store.within_of_view? hv).1

/-- A way leads to the same spot in both stores, if what stands on it is kept. -/
theorem leads_iff (h : s.Revises s' kept p.datum)
    (hkept : ∀ way', way' <+: way → ∀ l i, p.Stands s way' l i → kept l i) :
    p.Leads s' way steps inside q ↔ p.Leads s way steps inside q := by
  induction way generalizing p steps inside with
  | nil =>
    constructor <;>
    · rintro ⟨⟩
      exact .here _
  | cons k way ih =>
    have hpart {entered : List Ref} {step : PathStep} {l : Ref} {i : ℕ} {q : Spot} :
        p.Part s' entered k step l i q ↔ p.Part s entered k step l i q :=
      part_iff h (hkept [k] (List.prefix_append [k] way))
    have hinner {entered : List Ref} {step : PathStep} {l : Ref} {i : ℕ} {q : Spot}
        (hq : p.Part s entered k step l i q) :
        ∀ way', way' <+: way → ∀ l i, q.Stands s way' l i → kept l i :=
      fun way' hbegins l i hstands =>
        hkept (k :: way') (List.prefix_cons_inj k |>.mpr hbegins) l i (.inside hq hstands)
    constructor
    · intro hway
      cases hway with
      | step hq hway =>
        have hq' := hpart.mp hq
        exact .step hq' ((ih (h.within hq'.within) (hinner hq')).mp hway)
    · intro hway
      cases hway with
      | step hq hway =>
        exact .step (hpart.mpr hq) ((ih (h.within hq.within) (hinner hq)).mpr hway)

/-- What is wrong on the way or before, in the store with other items, is so in both. -/
theorem exists_faults_of_precedes {report : Path → MismatchError} {way' : List ℕ}
    (h : s.Revises s' kept p.datum) (hkept : ∀ l i, p.Reads s way l i → kept l i)
    (hfault : p.faults s' [] way' steps report) (hprecedes : Precedes way' way) :
    ∃ report', p.faults s [] way' steps report' := by
  obtain ⟨inside, q, cause, hway, hcause, -⟩ := hfault
  have hway' : p.Leads s way' steps inside q := by
    refine (leads_iff h fun way₁ hbegins l i hstands => hkept l i ⟨way₁, ?_, hstands⟩).mp hway
    obtain ⟨way₂, rfl⟩ := hbegins
    exact hprecedes.of_append
  have hlooks := (h.within hway'.within).looksLike
  obtain ⟨cause', hcause', -⟩ := hcause.exists_of_looksLike hlooks.symm
  exact ⟨_, inside, q, cause', hway', hcause', rfl⟩

theorem Part.unique (hq : p.Part s entered k step l i q) {entered' : List Ref} {step' : PathStep}
    {l' : Ref} {i' : ℕ} (hq' : p.Part s entered' k step' l' i' q') :
    entered' = entered ∧ step' = step ∧ q' = q := by
  cases hq with
  | field ho _ hk =>
    cases hq' with
    | field ho' _ hk' =>
      obtain ⟨rfl, rfl, rfl⟩ := ho.unique ho'
      obtain rfl := Option.some.inj (hk.symm.trans hk')
      exact ⟨rfl, rfl, rfl⟩
    | item hm => exact absurd hm ho.asks.ne_repeated
  | item hm hd hitems hk =>
    cases hq' with
    | field ho => exact absurd hm ho.asks.ne_repeated
    | item _ hd' hitems' hk' =>
      obtain rfl := Datum.object.inj (hd.symm.trans hd')
      obtain rfl := Option.some.inj (hitems.symm.trans hitems')
      obtain rfl := Option.some.inj (Option.some.inj (hk.symm.trans hk'))
      exact ⟨rfl, rfl, rfl⟩

theorem Leads.unique (hway : p.Leads s way steps inside q)
    (hway' : p.Leads s way steps' inside' q') : steps' = steps ∧ inside' = inside ∧ q' = q := by
  induction hway generalizing steps' inside' with
  | here p =>
    cases hway'
    exact ⟨rfl, rfl, rfl⟩
  | step hpart _ ih =>
    cases hway' with
    | step hpart' hway' =>
      obtain ⟨rfl, rfl, rfl⟩ := hpart.unique hpart'
      obtain ⟨rfl, rfl, rfl⟩ := ih hway'
      exact ⟨rfl, rfl, rfl⟩

end Spot

/-! ## The verdict -/

namespace Store

variable {s s' : Store} {kept : Ref → ℕ → Prop} {type : TypeRef} {x : Datum} {e : MismatchError}

theorem LooksLike.rootLabel_eq (h : s.LooksLike s' x) : s'.rootLabel type x = s.rootLabel type x := by
  unfold rootLabel
  cases hv : s.view? x with
  | none => rw [h.view?_eq_none hv]
  | some v =>
    obtain ⟨fields, -, hv'⟩ := h.exists_view? hv
    rw [hv']
    exact h.label_eq hv fields

theorem LooksLike.rootPlace_eq (h : s.LooksLike s' x) :
    s'.rootPlace type x = s.rootPlace type x := by
  rw [rootPlace, rootPlace, h.rootLabel_eq]

theorem check_findsFirst (s : Store) (type : TypeRef) (x : Datum) :
    ((Spot.ofType type x).faults s []).FindsFirst (s.rootPlace type x) (s.check type x) := by
  rw [check, Check.element_eq_elementTrusting]
  exact (Spot.ofType type x).findsFirst _ (.start s)

/-- A check that fails does so at the first violation: it is at a spot that violates what is asked
there, and whatever comes before it, and is not around it, conforms. The error stays the same,
whatever other contents and items there are in places that have not been read, neither by the check
nor for what is said of the violation. -/
theorem check_eq_error (h : s.check type x = .error e) :
    ∃ way steps inside p, (Spot.ofType type x).Leads s way steps inside p ∧
      p.Violates s inside e.cause ∧ e.place = (s.rootPlace type x).along steps ∧
      (∀ way' steps' inside' q, (Spot.ofType type x).Leads s way' steps' inside' q →
        Precedes way' way → ¬ way' <+: way → q.Conforms s) ∧
      ∀ s' kept, s.Revises s' kept x → (∀ l i, (Spot.ofType type x).Reads s way l i → kept l i) →
        (∀ d, p.Says s e.cause d → ∀ l i, s.Displays d l i → kept l i) →
        s'.check type x = .error e := by
  have hfinds := s.check_findsFirst type x
  rw [h] at hfinds
  obtain ⟨way, steps, _, ⟨inside, p, cause, hway, hcause, rfl⟩, rfl, hfirst⟩ := hfinds
  rw [List.append_nil] at hcause
  refine ⟨way, steps, inside, p, hway, hcause, rfl, fun way' steps' inside' q hq hprecedes hbegins =>
    Spot.conforms_of_precedes hq hprecedes hbegins hfirst, fun s' kept hs' hkept hsaid => ?_⟩
  -- the violation is there in the other store, too, and it is reported alike
  have hway' : (Spot.ofType type x).Leads s' way steps inside p := by
    refine (Spot.leads_iff hs' fun way₁ hbegins l i hstands =>
      hkept l i ⟨way₁, ?_, hstands⟩).mpr hway
    obtain ⟨way₂, rfl⟩ := hbegins
    exact (Precedes.refl way₁).append way₂
  have hp : s.Revises s' kept p.datum := hs'.within hway.within
  obtain ⟨cause', hcause', hsame⟩ := hcause.exists_of_looksLike hp.looksLike
  obtain rfl : cause' = cause := hsame fun d hd => (hp.within hd.within).display_eq (hsaid d hd)
  -- so the first one in the other store does not come later, and hence is the same
  have hfinds' := s'.check_findsFirst type x
  rw [hs'.looksLike.rootPlace_eq] at hfinds'
  cases hcheck : s'.check type x with
  | ok =>
    rw [hcheck] at hfinds'
    exact absurd ⟨inside, p, cause', hway', by rwa [List.append_nil], rfl⟩ (hfinds' way steps _)
  | error e' =>
    rw [hcheck] at hfinds'
    obtain ⟨way', steps', _, ⟨inside', p', cause, hleads, hviolates, rfl⟩, rfl, hfirst'⟩ := hfinds'
    have hprecedes : Precedes way' way :=
      hfirst' way steps _ ⟨inside, p, cause', hway', by rwa [List.append_nil], rfl⟩
    obtain ⟨report, hfault⟩ := Spot.exists_faults_of_precedes hs' hkept
      ⟨inside', p', cause, hleads, hviolates, rfl⟩ hprecedes
    obtain rfl := hprecedes.antisymm (hfirst _ _ _ hfault)
    obtain ⟨rfl, rfl, rfl⟩ := hway'.unique hleads
    rw [List.append_nil] at hviolates
    rw [hviolates.unique hcause']

end Store

end Schemata
