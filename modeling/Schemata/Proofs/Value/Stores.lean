import Mathlib.Logic.Relation
import Schemata.Proofs.Value.Records
import Schemata.Value.Access

/-!
# How stores grow and change

`Store.add` keeps every node and `Store.set` every other one. `Store.Extends` says that a store has
all nodes of another one, `Store.SameBelow` that two stores have the same nodes wherever one gets
from a datum by going from nodes to what they hold (`Store.Mentions`). What a datum looks like, its
items, its properties as a value and the elements that it holds, then is the same in both.

Making a value by construction puts its contents into a frozen list, without holes. `Store.HasBuilt`
says that a reference leads to such a value, what it is made of, and that its list is frozen.
-/

namespace Schemata

/-- The items of a list without the holes. -/
def present (items : List (Option Datum)) : List Datum := items.filterMap id

@[simp] theorem mem_present {items : List (Option Datum)} {d : Datum} :
    d ∈ present items ↔ some d ∈ items := by
  simp [present]

@[simp] theorem present_map_some (ds : List Datum) : present (ds.map some) = ds := by
  simp [present]

@[simp] theorem readItems_map_some (ds : List Datum) : readItems (ds.map some) = ds := by
  rw [readItems, List.map_map]
  exact List.map_id ds

theorem contentAt_readItems (items : List (Option Datum)) (index : Nat) :
    contentAt (readItems items) index = items[index]?.join.getD .missing := by
  rw [contentAt, readItems, List.getElem?_map]
  cases items[index]? <;> rfl

/-- An item that is read is one of the list, or there is a hole. -/
theorem mem_or_of_mem_readItems {items : List (Option Datum)} {d : Datum} (h : d ∈ readItems items) :
    some d ∈ items ∨ d = .missing := by
  obtain ⟨item, hitem, rfl⟩ := List.mem_map.mp h
  cases item with
  | none => exact .inr rfl
  | some d => exact .inl hitem

/-- The data that a node holds. -/
def Node.data : Node → List Datum
  | .list _ items => present items
  | .record properties => properties.entries.map Prod.snd
  | .value type constructor fields =>
    [.typeDef type, (constructor.map Datum.constructor).getD .missing, .object fields]

theorem Built.view_type (b : Built) : b.view.type = .typeDef b.type := by
  unfold Built.view
  split <;> rfl

theorem Built.view_fields (b : Built) : b.view.fields = b.fields := by
  unfold Built.view
  split <;> rfl

namespace Store

variable {s s' s'' : Store} {r : Ref} {n : Node} {d x y : Datum}

/-! ## Nodes -/

@[simp] theorem size_add (s : Store) (n : Node) : (s.add n).2.size = s.size + 1 := by
  simp [add, size]

@[simp] theorem size_set (s : Store) (r : Ref) (n : Node) : (s.set r n).size = s.size := by
  simp [set, size]

theorem lt_size_of_get? (h : s.get? r = some n) : r.index < s.size :=
  (Array.getElem?_eq_some_iff.mp h).1

theorem lt_size_of_list? {items : List (Option Datum)} (h : s.list? (.object r) = some items) :
    r.index < s.size := by
  unfold list? at h
  split at h
  next hr => exact lt_size_of_get? hr
  next => cases h

theorem get?_add_of_lt (h : r.index < s.size) : (s.add n).2.get? r = s.get? r :=
  Array.getElem?_push_lt h |>.trans (Array.getElem?_eq_getElem h).symm

@[simp] theorem get?_add_self (s : Store) (n : Node) : (s.add n).2.get? (s.add n).1 = some n :=
  Array.getElem?_push_size

theorem get?_set_self (h : r.index < s.size) : (s.set r n).get? r = some n :=
  Array.getElem?_setIfInBounds_self_of_lt h

theorem get?_set_of_ne {r' : Ref} (h : r' ≠ r) : (s.set r n).get? r' = s.get? r' :=
  Array.getElem?_setIfInBounds_ne fun heq => h (congrArg Ref.mk heq).symm

/-- A node of a store with one more is one of the store's or the new one. -/
theorem of_get?_add {m : Node} (h : (s.add n).2.get? r = some m) :
    s.get? r = some m ∨ r = (s.add n).1 ∧ m = n := by
  have hlt := lt_size_of_get? h
  rw [size_add] at hlt
  by_cases hr : r.index < s.size
  · rw [get?_add_of_lt hr] at h
    exact .inl h
  · have heq : r = (s.add n).1 := congrArg Ref.mk (show r.index = s.size by omega)
    rw [heq, get?_add_self] at h
    exact .inr ⟨heq, (Option.some.inj h).symm⟩

/-- A node of a store that was written to is the one written or was there before. -/
theorem of_get?_set {r' : Ref} {m : Node} (h : (s.set r n).get? r' = some m) :
    s.get? r' = some m ∨ r' = r ∧ m = n := by
  by_cases hr : r' = r
  · subst hr
    have hlt := lt_size_of_get? h
    rw [size_set] at hlt
    rw [get?_set_self hlt] at h
    exact .inr ⟨rfl, (Option.some.inj h).symm⟩
  · rw [get?_set_of_ne hr] at h
    exact .inl h

theorem list?_of_get? {frozen : Bool} {items : List (Option Datum)}
    (h : s.get? r = some (.list frozen items)) : s.list? (.object r) = some items := by
  simp only [list?, node?, h]

/-! ## Values made by construction -/

/-- At `r` is the value `b` made by construction, with its contents in a frozen list. -/
def HasBuilt (s : Store) (r : Ref) (b : Built) : Prop :=
  ∃ fields, s.get? r = some (.value b.type b.constructor fields) ∧
    s.get? fields = some (.list true (b.fields.map some))

namespace HasBuilt

variable {b b' : Built}

/-- A value made by construction counts as one. -/
theorem view? (h : s.HasBuilt r b) : s.view? (.object r) = some b.view := by
  obtain ⟨fields, hr, hfields⟩ := h
  simp only [Store.view?, node?, hr, list?_of_get? hfields, Option.map_some, readItems_map_some]

theorem lt_size (h : s.HasBuilt r b) : r.index < s.size := by
  obtain ⟨fields, hr, -⟩ := h
  exact lt_size_of_get? hr

/-- A value made by construction is no list. -/
theorem ne_list (h : s.HasBuilt r b) {frozen : Bool} {items : List (Option Datum)} :
    s.get? r ≠ some (.list frozen items) := by
  obtain ⟨fields, hr, -⟩ := h
  rw [hr]
  simp

theorem unique (h : s.HasBuilt r b) (h' : s.HasBuilt r b') : b = b' := by
  obtain ⟨fields, hr, hfields⟩ := h
  obtain ⟨fields', hr', hfields'⟩ := h'
  obtain ⟨htype, hconstructor, rfl⟩ := Node.value.inj (Option.some.inj (hr.symm.trans hr'))
  have hcontents : b.fields = b'.fields := by
    have hitems := (Node.list.inj (Option.some.inj (hfields.symm.trans hfields'))).2
    rw [← present_map_some b.fields, hitems, present_map_some]
  obtain ⟨type, constructor, contents⟩ := b
  obtain rfl : type = b'.type := htype
  obtain rfl : constructor = b'.constructor := hconstructor
  obtain rfl : contents = b'.fields := hcontents
  rfl

end HasBuilt

/-! ## Growing stores -/

theorem list?_of_node?_eq (h : s'.node? d = s.node? d) : s'.list? d = s.list? d := by
  simp only [list?, h]

theorem isEmpty_of_node?_eq (h : s'.node? d = s.node? d) : s'.isEmpty d = s.isEmpty d := by
  unfold isEmpty isAbsent kindName? property?
  rw [h]

/-- What a datum refers to is there. -/
def Holds (s : Store) (d : Datum) : Prop := ∀ r, d = .object r → r.index < s.size

/-- `s'` has all nodes of `s`. -/
structure Extends (s s' : Store) : Prop where
  size_le : s.size ≤ s'.size
  get?_eq : ∀ r : Ref, r.index < s.size → s'.get? r = s.get? r

namespace Extends

theorem refl (s : Store) : s.Extends s := ⟨Nat.le_refl _, fun _ _ => rfl⟩

theorem trans (h : s.Extends s') (h' : s'.Extends s'') : s.Extends s'' where
  size_le := Nat.le_trans h.size_le h'.size_le
  get?_eq r hr := (h'.get?_eq r (Nat.lt_of_lt_of_le hr h.size_le)).trans (h.get?_eq r hr)

theorem add (s : Store) (n : Node) : s.Extends (s.add n).2 where
  size_le := by
    rw [size_add]
    omega
  get?_eq _ hr := get?_add_of_lt hr

theorem get? (h : s.Extends s') (hn : s.get? r = some n) : s'.get? r = some n :=
  (h.get?_eq r (lt_size_of_get? hn)).trans hn

theorem holds (h : s.Extends s') (hd : s.Holds d) : s'.Holds d :=
  fun r hr => Nat.lt_of_lt_of_le (hd r hr) h.size_le

theorem node?_eq (h : s.Extends s') (hd : s.Holds d) : s'.node? d = s.node? d := by
  cases d with
  | object r => exact h.get?_eq r (hd r rfl)
  | _ => rfl

end Extends

/-- A list is still there in a store that has grown. -/
theorem Extends.list? (h : s.Extends s') {items : List (Option Datum)} (hd : s.list? d = some items) :
    s'.list? d = some items := by
  have hholds : s.Holds d := by
    rintro r rfl
    exact lt_size_of_list? hd
  exact (list?_of_node?_eq (h.node?_eq hholds)).trans hd

theorem Extends.hasBuilt (h : s.Extends s') {b : Built} (hb : s.HasBuilt r b) :
    s'.HasBuilt r b := by
  obtain ⟨fields, hr, hfields⟩ := hb
  exact ⟨fields, h.get? hr, h.get? hfields⟩

/-! ## Writing stores -/

/-- `s'` is `s` with other items and holes in the list at `r`, which is not frozen; of the items
only `d` may be new. -/
def Writes (s s' : Store) (r : Ref) (d : Datum) : Prop :=
  ∃ items items', s.get? r = some (.list false items) ∧ s' = s.set r (.list false items') ∧
    ∀ x, some x ∈ items' → some x ∈ items ∨ x = d

/-- Resizing a list adds no item. -/
theorem mem_of_mem_resized {items : List (Option Datum)} {length : Nat}
    (h : some x ∈ resized items length) : some x ∈ items := by
  rcases List.mem_append.mp h with h | h
  · exact List.mem_of_mem_take h
  · cases List.eq_of_mem_replicate h

theorem writes_of_push {list : Datum} (h : s.push list d = some s') : ∃ r, s.Writes s' r d := by
  unfold push at h
  split at h
  next r =>
    split at h
    next items hr =>
      obtain rfl := Option.some.inj h
      refine ⟨r, items, _, hr, rfl, fun x hx => ?_⟩
      rcases List.mem_append.mp hx with hx | hx
      · exact .inl hx
      · exact .inr (Option.some.inj (List.mem_singleton.mp hx))
    next => cases h
  next => cases h

theorem writes_of_setField {value : Datum} {index : Nat} (h : s.setField value index d = some s') :
    ∃ r, s.Writes s' r d := by
  obtain ⟨list, -, h⟩ := Option.bind_eq_some_iff.mp h
  unfold setItem at h
  split at h
  next r =>
    split at h
    next items hr =>
      obtain rfl := Option.some.inj h
      refine ⟨r, items, _, hr, rfl, fun x hx => ?_⟩
      rcases List.mem_or_eq_of_mem_set hx with hx | hx
      · exact .inl (mem_of_mem_resized hx)
      · exact .inr (Option.some.inj hx)
    next => cases h
  next => cases h

theorem writes_of_setFieldCount {value : Datum} {count : Nat}
    (h : s.setFieldCount value count = some s') : ∃ r, s.Writes s' r .missing := by
  obtain ⟨list, -, h⟩ := Option.bind_eq_some_iff.mp h
  unfold setLength at h
  split at h
  next r =>
    split at h
    next items hr =>
      obtain rfl := Option.some.inj h
      exact ⟨r, items, _, hr, rfl, fun x hx => .inl (mem_of_mem_resized hx)⟩
    next => cases h
  next => cases h

theorem Writes.size_eq (h : s.Writes s' r d) : s'.size = s.size := by
  obtain ⟨items, items', -, rfl, -⟩ := h
  exact size_set s r _

/-- Writing to a list makes no value, and neither does it make a frozen list. -/
theorem Writes.of_sealed {r' : Ref} {n : Node} (h : s.Writes s' r d) (hn : s'.get? r' = some n)
    (hsealed : ∀ items, n ≠ .list false items) : s.get? r' = some n := by
  obtain ⟨items, items', -, rfl, -⟩ := h
  rcases of_get?_set hn with hn | ⟨-, rfl⟩
  · exact hn
  · exact absurd rfl (hsealed items')

/-! ## What can be reached -/

/-- `x` refers to a node that holds `y`. -/
def Mentions (s : Store) (x y : Datum) : Prop := ∃ n, s.node? x = some n ∧ y ∈ n.data

/-- One gets from `x` to `y` by going from nodes to what they hold. -/
abbrev Reaches (s : Store) : Datum → Datum → Prop := Relation.ReflTransGen s.Mentions

/-- Both stores have the same nodes wherever one gets to from a datum. -/
def SameBelow (s s' : Store) (d : Datum) : Prop :=
  ∀ r, s.Reaches d (.object r) → s'.get? r = s.get? r

/-- A plain object that counts as a value has a type, and a list for its fields. -/
theorem of_recordView? {properties : Record Datum} {v : ValueView}
    (h : s.recordView? properties = some v) :
    properties.get? "type" = some v.type ∧
      ∃ list items, properties.get? "fields" = some list ∧ s.list? list = some items ∧
        v.fields = readItems items := by
  obtain ⟨_, -, h⟩ := Option.bind_eq_some_iff.mp h
  obtain ⟨kind, -, h⟩ := Option.bind_eq_some_iff.mp h
  obtain ⟨type, htype, h⟩ := Option.bind_eq_some_iff.mp h
  obtain ⟨list, hlist, h⟩ := Option.bind_eq_some_iff.mp h
  obtain ⟨items, hitems, h⟩ := Option.bind_eq_some_iff.mp h
  dsimp only at h
  split at h
  · obtain rfl := Option.some.inj h
    exact ⟨(Option.filter_eq_some_iff.mp htype).1, list, items, hlist, hitems, rfl⟩
  · cases h

/-- A value counts as one by the list of its contents, be it made by construction or a plain
object. -/
theorem of_view? {v : ValueView} (h : s.view? x = some v) :
    ∃ list items, s.Mentions x list ∧ s.list? list = some items ∧ v.fields = readItems items := by
  unfold view? at h
  split at h
  next type constructor fields hnode =>
    obtain ⟨items, hitems, rfl⟩ := Option.map_eq_some_iff.mp h
    exact ⟨_, items, ⟨_, hnode, by simp [Node.data]⟩, hitems, Built.view_fields _⟩
  next hnode =>
    obtain ⟨-, list, items, hlist, hitems, hfields⟩ := of_recordView? h
    exact ⟨list, items, ⟨_, hnode, Record.mem_of_get? hlist⟩, hitems, hfields⟩
  next => cases h

theorem mentions_of_list? {items : List (Option Datum)} (h : s.list? x = some items)
    (hy : some y ∈ items) : s.Mentions x y := by
  unfold list? at h
  split at h
  next hnode =>
    obtain rfl := Option.some.inj h
    exact ⟨_, hnode, mem_present.mpr hy⟩
  next => cases h

theorem reaches_of_view? {v : ValueView} (h : s.view? x = some v) {c : Datum}
    (hc : c ∈ v.fields) : s.Reaches x c ∨ c = .missing := by
  obtain ⟨list, items, hlist, hitems, hfields⟩ := of_view? h
  rw [hfields] at hc
  refine (mem_or_of_mem_readItems hc).imp_left fun hc => ?_
  exact .head hlist (.single (mentions_of_list? hitems hc))

theorem mentions_type_of_view? {v : ValueView} (h : s.view? x = some v) :
    s.Mentions x v.type := by
  unfold view? at h
  split at h
  next hnode =>
    obtain ⟨_, -, rfl⟩ := Option.map_eq_some_iff.mp h
    rw [Built.view_type]
    exact ⟨_, hnode, List.mem_cons_self⟩
  next properties hnode =>
    exact ⟨_, hnode, Record.mem_of_get? (of_recordView? h).1⟩
  next => cases h

/-- One gets from a value made by construction to its contents, through their list. -/
theorem HasBuilt.reaches {b : Built} (h : s.HasBuilt r b) (hd : d ∈ b.fields) :
    s.Reaches (.object r) d := by
  obtain ⟨fields, hr, hfields⟩ := h
  have hlist : s.Mentions (.object r) (.object fields) := ⟨_, hr, by simp [Node.data]⟩
  have hitem : s.Mentions (.object fields) d := ⟨_, hfields, mem_present.mpr (by simpa using hd)⟩
  exact .head hlist (.single hitem)

/-- Two stores are the same below a node that both have if they are below all that it holds. -/
theorem SameBelow.of_node (hr : s.get? r = some n) (hr' : s'.get? r = some n)
    (h : ∀ d ∈ n.data, s.SameBelow s' d) : s.SameBelow s' (.object r) := by
  intro r' hway
  rcases hway.cases_head with heq | ⟨d, ⟨n', hn', hd⟩, hway⟩
  · obtain rfl := Datum.object.inj heq
    rw [hr, hr']
  · obtain rfl := Option.some.inj (hr.symm.trans hn')
    exact h d hd r' hway

namespace SameBelow

variable (h : s.SameBelow s' d)

include h

theorem of_reaches (hx : s.Reaches d x) : s.SameBelow s' x :=
  fun r hr => h r (hx.trans hr)

theorem node?_eq : s'.node? d = s.node? d := by
  cases d with
  | object r => exact h r .refl
  | _ => rfl

theorem list?_eq : s'.list? d = s.list? d := list?_of_node?_eq h.node?_eq

theorem isEmpty_eq : s'.isEmpty d = s.isEmpty d := isEmpty_of_node?_eq h.node?_eq

theorem isAbsent_eq : s'.isAbsent d = s.isAbsent d := by
  unfold isAbsent kindName? property?
  rw [h.node?_eq]

theorem view?_eq : s'.view? d = s.view? d := by
  unfold view?
  rw [h.node?_eq]
  cases hnode : s.node? d with
  | none => rfl
  | some n =>
    cases n with
    | record properties =>
      have hlist : ∀ list, properties.get? "fields" = some list → s'.list? list = s.list? list :=
        fun list hlist =>
          (h.of_reaches (.single ⟨_, hnode, Record.mem_of_get? hlist⟩)).list?_eq
      show s'.recordView? properties = s.recordView? properties
      unfold recordView?
      cases hfields : properties.get? "fields" with
      | none => rfl
      | some list => simp only [Option.bind_eq_bind, Option.bind_some, hlist list hfields]
    | value type constructor fields =>
      have hlist : s'.list? (.object fields) = s.list? (.object fields) :=
        (h.of_reaches (.single ⟨_, hnode, by simp [Node.data]⟩)).list?_eq
      simp only [hlist]
    | list => rfl

end SameBelow

/-- Where a store refers only to what it holds, one gets from what it holds only to what it
holds. -/
theorem holds_of_reaches (hs : ∀ x y, s.Mentions x y → s.Holds y) (hx : s.Holds x)
    (h : s.Reaches x y) : s.Holds y := by
  induction h with
  | refl => exact hx
  | tail _ hy _ => exact hs _ _ hy

/-- A store that has all nodes of another one is the same below everything in that one. -/
theorem Extends.sameBelow (h : s.Extends s') (hs : ∀ x y, s.Mentions x y → s.Holds y)
    (hd : s.Holds d) : s.SameBelow s' d :=
  fun r hr => h.get?_eq r (holds_of_reaches hs hd hr r rfl)

end Store

end Schemata
