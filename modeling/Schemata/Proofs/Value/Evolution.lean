import Schemata.Proofs.Value.Construction

/-!
# What stays as it is

Values made by construction and frozen lists are sealed: they stay what they are, whatever is done.
Of all other nodes only the items of lists change (`Store.Evolves`). So a value keeps its contents
if their list is frozen (`Store.Evolves.hasBuilt`). A datum from which one gets only to sealed nodes
is settled, and everything below it is the same in all later stores (`Store.Settled.sameBelow`).

What is below a value need not be sealed. But whether a datum has a type, its contents apart
(`Store.HasType`), does not depend on the items of lists, and never changes
(`Store.Evolves.hasType`).
-/

namespace Schemata

/-- Whether a node never changes. -/
def Node.isSealed : Node → Bool
  | .list frozen _ => frozen
  | .record _ => false
  | .value .. => true

namespace Store

/-- `s'` has the nodes of `s`, with other items in lists that are not frozen. -/
def Evolves (s s' : Store) : Prop :=
  ∀ r n, s.get? r = some n → s'.get? r = some n ∨
    ∃ items items', n = .list false items ∧ s'.get? r = some (.list false items')

/-- Everything that one gets to from the datum is sealed. -/
def Settled (s : Store) (d : Datum) : Prop :=
  ∀ r, s.Reaches d (.object r) → ∃ n, s.get? r = some n ∧ n.isSealed = true

/-- The datum is a scalar of the type or a value of it, whatever its contents. -/
abbrev HasType (s : Store) : TypeRef → Datum → Prop := s.Conforms fun _ => true

/-- The content of a field in its final form: an element, the absent marker where the field is
optional, a frozen list of elements, holes apart, where it is repeated. `P` holds of the
elements. -/
def Fits (s : Store) (P : TypeRef → Datum → Prop) (f : Field) (d : Datum) : Prop :=
  match f.multiplicity with
  | .single => P f.type d
  | .optional => d = .absent ∨ P f.type d
  | .repeated => ∃ r items, d = .object r ∧ s.get? r = some (.list true items) ∧
    ∀ e, some e ∈ items → P f.type e

variable {s s' s'' : Store} {d x y : Datum} {r : Ref} {n : Node} {type : TypeRef} {f : Field}

/-! ## Evolution -/

/-- The view of a plain object depends on the store only by the items of its fields. -/
theorem recordView?_withFields {properties : Record Datum} {v : ValueView} {list : Datum}
    {items : List (Option Datum)} (h : s.recordView? properties = some v)
    (hlist : properties.get? "fields" = some list) (hitems : s'.list? list = some items) :
    s'.recordView? properties = some { v with fields := readItems items } := by
  obtain ⟨kindText, hkindText, h⟩ := Option.bind_eq_some_iff.mp h
  obtain ⟨kind, hkind, h⟩ := Option.bind_eq_some_iff.mp h
  obtain ⟨type, htype, h⟩ := Option.bind_eq_some_iff.mp h
  obtain ⟨_, -, h⟩ := Option.bind_eq_some_iff.mp h
  obtain ⟨fields, -, h⟩ := Option.bind_eq_some_iff.mp h
  unfold recordView?
  simp only [hkindText, hkind, htype, hlist, hitems, Option.bind_eq_bind, Option.bind_some]
  dsimp only at h
  split at h
  next hconstructor =>
    obtain rfl := Option.some.inj h
    rw [if_pos hconstructor]
  next => cases h

namespace Evolves

theorem refl (s : Store) : s.Evolves s := fun _ _ hn => .inl hn

theorem trans (h : s.Evolves s') (h' : s'.Evolves s'') : s.Evolves s'' := by
  intro r n hn
  rcases h r n hn with hmid | ⟨items, items', rfl, hmid⟩
  · exact h' r n hmid
  · rcases h' r _ hmid with hlast | ⟨_, items'', -, hlast⟩
    · exact .inr ⟨items, items', rfl, hlast⟩
    · exact .inr ⟨items, items'', rfl, hlast⟩

theorem get?_of_isSealed (h : s.Evolves s') (hn : s.get? r = some n) (hsealed : n.isSealed = true) :
    s'.get? r = some n := by
  rcases h r n hn with hn | ⟨items, _, rfl, -⟩
  · exact hn
  · cases hsealed

theorem size_le (h : s.Evolves s') : s.size ≤ s'.size := by
  by_contra hlt
  have hlast : s'.size < s.size := Nat.lt_of_not_le hlt
  have hget : s.get? ⟨s'.size⟩ = some s.nodes[s'.size] := Array.getElem?_eq_getElem hlast
  have hbound : ∀ n, s'.get? ⟨s'.size⟩ ≠ some n := fun n hn =>
    Nat.lt_irrefl _ (lt_size_of_get? hn)
  rcases h _ _ hget with hn | ⟨_, _, -, hn⟩
  · exact hbound _ hn
  · exact hbound _ hn

theorem list? (h : s.Evolves s') {items : List (Option Datum)} (hd : s.list? d = some items) :
    ∃ items', s'.list? d = some items' := by
  unfold Store.list? at hd ⊢
  cases d with
  | object r =>
    simp only [node?] at hd ⊢
    split at hd
    next frozen _ hn =>
      rcases h r _ hn with hn | ⟨_, _, -, hn⟩ <;> rw [hn] <;> exact ⟨_, rfl⟩
    next => cases hd
  | _ => cases hd

theorem hasBuilt (h : s.Evolves s') {b : Built} (hb : s.HasBuilt r b) : s'.HasBuilt r b := by
  obtain ⟨fields, hr, hfields⟩ := hb
  exact ⟨fields, h.get?_of_isSealed hr rfl, h.get?_of_isSealed hfields rfl⟩

/-- A value stays one, and of its properties only the contents change. -/
theorem view? (h : s.Evolves s') {v : ValueView} (hd : s.view? d = some v) :
    ∃ fields, s'.view? d = some { v with fields := fields } := by
  obtain ⟨r, rfl, -⟩ := eq_object_of_view? hd
  unfold Store.view? at hd ⊢
  simp only [node?] at hd ⊢
  split at hd
  next type constructor fields hn =>
    rw [h.get?_of_isSealed hn rfl]
    obtain ⟨items, hitems, rfl⟩ := Option.map_eq_some_iff.mp hd
    obtain ⟨items', hitems'⟩ := h.list? hitems
    refine ⟨readItems items', ?_⟩
    simp only [hitems', Option.map_some]
    cases constructor <;> rfl
  next properties hn =>
    have hn' : s'.get? r = some (.record properties) := by
      rcases h r _ hn with hn | ⟨_, _, ⟨⟩, -⟩
      exact hn
    rw [hn']
    obtain ⟨-, list, _, hlist, hitems, -⟩ := of_recordView? hd
    obtain ⟨items', hitems'⟩ := h.list? hitems
    exact ⟨_, recordView?_withFields hd hlist hitems'⟩
  next => cases hd

end Evolves

theorem Extends.evolves (h : s.Extends s') : s.Evolves s' := fun _ _ hn => .inl (h.get? hn)

theorem Writes.evolves (h : s.Writes s' r d) : s.Evolves s' := by
  obtain ⟨items, items', hr, rfl, -⟩ := h
  intro r' n hn
  by_cases heq : r' = r
  · subst heq
    obtain rfl := Option.some.inj (hr.symm.trans hn)
    exact .inr ⟨items, items', rfl, get?_set_self (lt_size_of_get? hr)⟩
  · rw [get?_set_of_ne heq]
    exact .inl hn

/-! ## Types -/

theorem hasType_of_conforms {trusted : Ref → Bool} (h : s.Conforms trusted type d) :
    s.HasType type d := by
  cases h with
  | primitive hp => exact .primitive hp
  | trusted hv ht _ => exact .trusted hv ht rfl
  | entered hv ht _ _ _ => exact .trusted hv ht rfl

/-- A datum keeps its type. -/
theorem Evolves.hasType (h : s.Evolves s') (hd : s.HasType type d) : s'.HasType type d := by
  cases type with
  | primitive p =>
    cases hd with
    | primitive hp => exact .primitive hp
  | declared key =>
    obtain ⟨v, t, declared, hv, ht, rfl⟩ := hd.view?_of_declared
    obtain ⟨r, rfl, -⟩ := eq_object_of_view? hv
    obtain ⟨fields, hv'⟩ := h.view? hv
    suffices htype : ValueView.IsOf { v with fields := fields } t declared from
      .trusted hv' htype rfl
    cases ht with
    | product htype hkind hshape => exact .product htype hkind hshape
    | sum htype hkind hshape hc hmem htag => exact .sum htype hkind hshape hc hmem htag

theorem Fits.mono {P Q : TypeRef → Datum → Prop} (h : s.Fits P f d) (hs : s.Evolves s')
    (hPQ : ∀ d, P f.type d → Q f.type d) : s'.Fits Q f d := by
  unfold Fits at *
  cases hm : f.multiplicity <;> simp only [hm] at h ⊢
  case single => exact hPQ d h
  case optional => exact h.imp_right (hPQ d)
  case repeated =>
    obtain ⟨r, items, rfl, hr, hall⟩ := h
    exact ⟨r, items, rfl, hs.get?_of_isSealed hr rfl, fun e he => hPQ e (hall e he)⟩

/-! ## Settled data -/

theorem SameBelow.reaches (h : s.SameBelow s' d) (hx : s'.Reaches d x) : s.Reaches d x := by
  induction hx with
  | refl => exact .refl
  | tail _ hyz ih =>
    obtain ⟨n, hn, hz⟩ := hyz
    exact ih.tail ⟨n, (h.of_reaches ih).node?_eq ▸ hn, hz⟩

namespace Settled

/-- What is settled is the same in all later stores. -/
theorem sameBelow (h : s.Settled d) (hs : s.Evolves s') : s.SameBelow s' d := by
  intro r hr
  obtain ⟨n, hn, hsealed⟩ := h r hr
  rw [hn, hs.get?_of_isSealed hn hsealed]

theorem of_reaches (h : s.Settled d) (hx : s.Reaches d x) : s.Settled x :=
  fun r hr => h r (hx.trans hr)

theorem of_ne_object (h : ∀ r, d ≠ .object r) : s.Settled d :=
  fun r hr => absurd hr (not_reaches_of_ne_object h r)

/-- A sealed node is settled if all that it holds is. -/
theorem of_get? (hr : s.get? r = some n) (hsealed : n.isSealed = true)
    (hdata : ∀ d ∈ n.data, s.Settled d) : s.Settled (.object r) := by
  intro r' hr'
  rcases hr'.cases_head with heq | ⟨y, ⟨m, hm, hy⟩, hway⟩
  · obtain rfl := Datum.object.inj heq
    exact ⟨n, hr, hsealed⟩
  · obtain rfl := Option.some.inj (hr.symm.trans hm)
    exact hdata y hy r' hway

/-- A value made by construction is settled if its contents are. -/
theorem of_hasBuilt {b : Built} (hb : s.HasBuilt r b) (hall : ∀ d ∈ b.fields, s.Settled d) :
    s.Settled (.object r) := by
  obtain ⟨fields, hr, hfields⟩ := hb
  have hlist : s.Settled (.object fields) := of_get? hfields rfl fun d hd =>
    hall d (present_map_some b.fields ▸ hd)
  refine of_get? hr rfl fun d hd => ?_
  simp only [Node.data, List.mem_cons, List.not_mem_nil, or_false] at hd
  rcases hd with rfl | rfl | rfl
  · exact of_ne_object fun r hr => by cases hr
  · exact of_ne_object fun r hr => by cases hc : b.constructor <;> simp [hc] at hr
  · exact hlist

end Settled

end Store

end Schemata
