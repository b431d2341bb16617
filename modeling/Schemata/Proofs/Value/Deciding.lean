import Mathlib.Data.List.Nodup
import Mathlib.Data.List.Perm.Subperm
import Schemata.Proofs.Outcome
import Schemata.Proofs.Value.Conformance

/-!
# The check decides conformance

`Check.elementTrusting` is the check with any choice of the values that are accepted without a look
at their contents, and `Check.element` the instance that runs (`element_eq_elementTrusting`). What
it accepts conforms (`conforms_of_elementTrusting`), by induction on the room that is left. What
conforms it accepts (`elementTrusting_eq_ok`), by induction on conformance: none of the values that
one is inside of can occur in it again. `Check.Ample` says that there is room for all values that
one is not inside of, and then the verdict depends neither on the room nor on values that one does
not get to (`elementTrusting_inside`).
-/

namespace Schemata

namespace Check

theorem isBuilt_eq_true {s : Store} {r : Ref} :
    isBuilt s r = true ↔ ∃ t c fields, s.get? r = some (.value t c fields) := by
  unfold isBuilt
  constructor
  · intro h
    split at h
    next hr => exact ⟨_, _, _, hr⟩
    next => cases h
  · rintro ⟨t, c, fields, hr⟩
    rw [hr]

theorem isBuilt_of_hasBuilt {s : Store} {r : Ref} {b : Built} (h : s.HasBuilt r b) :
    isBuilt s r = true :=
  isBuilt_eq_true.mpr ⟨_, _, h.choose, h.choose_spec.1⟩

/-- The check with a choice of the values whose contents it accepts without a look. -/
def elementTrusting (s : Store) (trusted : Ref → Bool) (room : Nat) (inside : List Ref)
    (type : TypeRef) (d : Datum) (place : Path) : Verdict :=
  match type with
  | .primitive p =>
    if p.accepts d then .ok () else fail (.expected p.name (s.describe d)) place
  | .declared key => do
    let v ← outline s key d place
    match d with
    | .object r =>
      if trusted r then .ok ()
      else if r ∈ inside then fail (.containsItself v.label) place
      else if v.contents.length ≠ v.declared.length then
        fail (.fieldCount v.label v.contents.length v.declared.length) place
      else
        match room with
        | 0 => fail (.containsItself v.label) place
        | room + 1 =>
          fields s (elementTrusting s trusted room (r :: inside)) v.contents place v.declared
    | _ => fail (.expected key.name (s.describe d)) place

theorem element_eq_elementTrusting (s : Store) (room : Nat) :
    element s room = elementTrusting s (isBuilt s) room := by
  induction room with
  | zero =>
    funext inside type d place
    unfold element elementTrusting
    rfl
  | succ room ih =>
    funext inside type d place
    unfold element elementTrusting
    dsimp only
    exact ih ▸ rfl

variable {s : Store} {trusted : Ref → Bool} {room : Nat} {inside : List Ref} {type : TypeRef}
  {key : TypeKey} {d : Datum} {r : Ref} {place : Path}

theorem elementTrusting_primitive {p : Primitive} :
    elementTrusting s trusted room inside (.primitive p) d place =
      if p.accepts d then .ok () else fail (.expected p.name (s.describe d)) place := by
  unfold elementTrusting
  rfl

theorem elementTrusting_error {e : MismatchError} (h : outline s key d place = .error e) :
    elementTrusting s trusted room inside (.declared key) d place = .error e := by
  unfold elementTrusting
  simp only [h]
  rfl

/-- The contents of a value are looked at if it is not trusted, not inside of itself, and has as
many as its type declares. -/
theorem elementTrusting_object {v : Shape} (h : outline s key (.object r) place = .ok v) :
    elementTrusting s trusted room inside (.declared key) (.object r) place =
      if trusted r then .ok ()
      else if r ∈ inside then fail (.containsItself v.label) place
      else if v.contents.length ≠ v.declared.length then
        fail (.fieldCount v.label v.contents.length v.declared.length) place
      else
        match room with
        | 0 => fail (.containsItself v.label) place
        | room + 1 =>
          fields s (elementTrusting s trusted room (r :: inside)) v.contents place v.declared := by
  unfold elementTrusting
  simp only [h]
  rfl

/-! ## Lists and fields -/

section Contents

variable {check check' : Datum → Path → Verdict} {ds : List (Option Datum)} {index : Nat}

theorem items_eq_ok (h : ∀ d ∈ present ds, ∀ place, check d place = .ok ()) :
    items check place index ds = .ok () := by
  induction ds generalizing index with
  | nil => rfl
  | cons item ds ih =>
    cases item with
    | none => exact ih h
    | some d =>
      obtain ⟨hd, hds⟩ := List.forall_mem_cons.mp h
      unfold items
      rw [hd, Outcome.ok_bind]
      exact ih hds

theorem of_items_eq_ok (h : items check place index ds = .ok ()) :
    ∀ d ∈ present ds, ∃ place, check d place = .ok () := by
  induction ds generalizing index with
  | nil => simp
  | cons item ds ih =>
    cases item with
    | none => exact ih h
    | some d =>
      obtain ⟨⟨⟩, hd, hds⟩ := Outcome.bind_eq_ok.mp h
      exact List.forall_mem_cons.mpr ⟨⟨_, hd⟩, ih hds⟩

theorem items_congr (h : ∀ d ∈ present ds, ∀ place, check d place = check' d place) :
    items check place index ds = items check' place index ds := by
  induction ds generalizing index with
  | nil => rfl
  | cons item ds ih =>
    cases item with
    | none => exact ih h
    | some d =>
      obtain ⟨hd, hds⟩ := List.forall_mem_cons.mp h
      unfold items
      rw [hd, ih hds]

end Contents

section Fields

variable {check check' : TypeRef → Datum → Path → Verdict} {f : Field} {ds : List Datum}

theorem field_eq_ok (hds : s.elements? f d = some ds)
    (h : ∀ e ∈ ds, ∀ place, check f.type e place = .ok ()) :
    field s check f d place = .ok () := by
  unfold Store.elements? at hds
  unfold field
  cases hm : f.multiplicity <;> simp only [hm] at hds ⊢
  case single =>
    cases hds
    exact h d List.mem_cons_self place
  case optional =>
    split_ifs at hds ⊢ with hempty
    · rfl
    · cases hds
      exact h d List.mem_cons_self place
  case repeated =>
    obtain ⟨items, hitems, rfl⟩ := Option.map_eq_some_iff.mp hds
    simp only [hitems]
    exact items_eq_ok h

theorem of_field_eq_ok (h : field s check f d place = .ok ()) :
    ∃ ds, s.elements? f d = some ds ∧ ∀ e ∈ ds, ∃ place, check f.type e place = .ok () := by
  unfold Store.elements?
  unfold field at h
  cases hm : f.multiplicity <;> simp only [hm] at h ⊢
  case single => exact ⟨_, rfl, List.forall_mem_singleton.mpr ⟨_, h⟩⟩
  case optional =>
    refine ⟨_, rfl, ?_⟩
    split_ifs at h ⊢ with hempty
    · simp
    · exact List.forall_mem_singleton.mpr ⟨_, h⟩
  case repeated =>
    cases hlist : s.list? d with
    | none => simp [hlist, fail] at h
    | some items =>
      simp only [hlist] at h
      exact ⟨present items, rfl, of_items_eq_ok h⟩

theorem field_congr
    (h : ∀ ds, s.elements? f d = some ds → ∀ e ∈ ds, ∀ place, check f.type e place =
      check' f.type e place) :
    field s check f d place = field s check' f d place := by
  unfold Store.elements? at h
  unfold field
  cases hm : f.multiplicity <;> simp only [hm] at h ⊢
  case single => exact h _ rfl d List.mem_cons_self place
  case optional =>
    split_ifs at h ⊢ with hempty
    · rfl
    · exact h _ rfl d List.mem_cons_self place
  case repeated =>
    cases hlist : s.list? d with
    | none => rfl
    | some items => exact items_congr (h _ (congrArg (Option.map present) hlist))

variable {fs : List Field} {contents : List Datum}

theorem fields_eq_ok
    (hsome : ∀ f ∈ fs, (s.elements? f (contentAt contents f.index)).isSome)
    (h : ∀ f ∈ fs, ∀ ds, s.elements? f (contentAt contents f.index) = some ds →
      ∀ e ∈ ds, ∀ place, check f.type e place = .ok ()) :
    fields s check contents place fs = .ok () := by
  induction fs with
  | nil => rfl
  | cons f fs ih =>
    obtain ⟨ds, hds⟩ := Option.isSome_iff_exists.mp (hsome f List.mem_cons_self)
    unfold fields
    rw [field_eq_ok hds (h f List.mem_cons_self ds hds), Outcome.ok_bind]
    exact ih (fun f hf => hsome f (List.mem_cons_of_mem _ hf))
      fun f hf => h f (List.mem_cons_of_mem _ hf)

theorem of_fields_eq_ok (h : fields s check contents place fs = .ok ()) :
    ∀ f ∈ fs, ∃ ds, s.elements? f (contentAt contents f.index) = some ds ∧
      ∀ e ∈ ds, ∃ place, check f.type e place = .ok () := by
  induction fs with
  | nil => simp
  | cons f fs ih =>
    obtain ⟨⟨⟩, hf, hfs⟩ := Outcome.bind_eq_ok.mp h
    exact List.forall_mem_cons.mpr ⟨of_field_eq_ok hf, ih hfs⟩

theorem fields_congr
    (h : ∀ f ∈ fs, ∀ ds, s.elements? f (contentAt contents f.index) = some ds →
      ∀ e ∈ ds, ∀ place, check f.type e place = check' f.type e place) :
    fields s check contents place fs = fields s check' contents place fs := by
  induction fs with
  | nil => rfl
  | cons f fs ih =>
    unfold fields
    rw [field_congr (h f List.mem_cons_self), ih fun f hf => h f (List.mem_cons_of_mem _ hf)]

end Fields

/-! ## The outline of a value -/

theorem of_outline_eq_ok {v : Shape} (h : outline s key d place = .ok v) :
    ∃ view t, s.view? d = some view ∧ view.IsOf t v.declared ∧ t.key = key ∧
      v.contents = view.fields := by
  unfold outline at h
  cases hview : s.view? d with
  | none => simp [hview] at h
  | some view =>
    cases htype : view.type with
    | typeDef t =>
      simp only [hview, htype] at h
      split_ifs at h with ht
      obtain ⟨hkey, hkind⟩ := ht
      cases hshape : t.shape with
      | product declared =>
        simp only [hshape, Except.ok.injEq] at h
        subst h
        have hproduct : view.kind = .product := by
          rw [← hkind, TypeDef.kind, hshape, TypeShape.kind]
        exact ⟨view, t, rfl, .product htype hproduct hshape, hkey, rfl⟩
      | sum cs attributes =>
        simp only [hshape] at h
        obtain ⟨c, hc, hv⟩ := Outcome.bind_eq_ok.mp h
        obtain rfl := Except.ok.inj hv
        have hsum : view.kind = .sum := by
          rw [← hkind, TypeDef.kind, hshape, TypeShape.kind]
        unfold constructor at hc
        split at hc
        · split_ifs at hc with hmem htag
          obtain rfl := Except.ok.inj hc
          rw [TypeDef.constructors, hshape] at hmem
          exact ⟨view, t, rfl, .sum htype hsum hshape ‹_› hmem htag, hkey, rfl⟩
        · cases hc
    | _ => simp [hview, htype] at h

/-- The outline of a value of a type. -/
theorem exists_outline {view : ValueView} {t : TypeDef} {declared : List Field}
    (hview : s.view? d = some view) (ht : view.IsOf t declared) (place : Path) :
    ∃ label, s.label view = .text label ∧
      outline s t.key d place = .ok ⟨view.kind, label, declared, view.fields⟩ := by
  have hkind := ht.kind_eq
  unfold outline
  cases ht with
  | product htype hproduct hshape =>
    rw [Store.label, hproduct, htype]
    refine ⟨t.name, rfl, ?_⟩
    simp only [hview, htype, true_and, if_pos hkind, hshape]
  | @sum _ _ c htype hsum hshape hc hmem htag =>
    rw [Store.label, hsum, hc]
    refine ⟨c.name, rfl, ?_⟩
    simp only [hview, htype, true_and, if_pos hkind, hshape, constructor, hc,
      TypeDef.constructors, if_pos hmem, if_pos htag]
    rfl

theorem exists_outline_eq_ok {view : ValueView} {t : TypeDef} {declared : List Field}
    (hview : s.view? d = some view) (ht : view.IsOf t declared) (place : Path) :
    ∃ v, outline s t.key d place = .ok v ∧ v.declared = declared ∧ v.contents = view.fields := by
  obtain ⟨label, -, hok⟩ := exists_outline hview ht place
  exact ⟨_, hok, rfl, rfl⟩

/-! ## The check decides conformance -/

/-- What is known of a value that the check accepts. -/
theorem of_elementTrusting_eq_ok
    (h : elementTrusting s trusted room inside (.declared key) d place = .ok ()) :
    ∃ r v t declared, d = .object r ∧ s.view? (.object r) = some v ∧ v.IsOf t declared ∧
      t.key = key ∧ (trusted r = true ∨
        r ∉ inside ∧ v.fields.length = declared.length ∧ ∃ less, room = less + 1 ∧
        ∀ f ∈ declared, ∃ ds, s.elements? f (contentAt v.fields f.index) = some ds ∧
          ∀ e ∈ ds, ∃ place, elementTrusting s trusted less (r :: inside) f.type e place =
            .ok ()) := by
  have houtline : ∃ shape, outline s key d place = .ok shape := by
    unfold elementTrusting at h
    obtain ⟨shape, hshape, -⟩ := Outcome.bind_eq_ok.mp h
    exact ⟨shape, hshape⟩
  obtain ⟨shape, hshape⟩ := houtline
  obtain ⟨v, t, hv, ht, hkey, hcontents⟩ := of_outline_eq_ok hshape
  obtain ⟨r, rfl, -⟩ := Store.eq_object_of_view? hv
  refine ⟨r, v, t, shape.declared, rfl, hv, ht, hkey, ?_⟩
  rw [elementTrusting_object hshape, hcontents] at h
  split_ifs at h with hr hinside hlength
  · exact .inl hr
  · cases h
  · cases h
  · refine .inr ⟨hinside, not_not.mp hlength, ?_⟩
    cases room with
    | zero => cases h
    | succ less => exact ⟨less, rfl, of_fields_eq_ok h⟩

/-- Whatever the check accepts conforms. -/
theorem conforms_of_elementTrusting
    (h : elementTrusting s trusted room inside type d place = .ok ()) :
    s.Conforms trusted type d := by
  induction room using Nat.strongRecOn generalizing inside type d place with
  | ind room ih =>
    cases type with
    | primitive p =>
      rw [elementTrusting_primitive] at h
      split_ifs at h with hp
      · exact .primitive hp
      · cases h
    | declared key =>
      obtain ⟨r, v, t, declared, rfl, hv, ht, rfl, hr | ⟨-, hlength, less, rfl, hall⟩⟩ :=
        of_elementTrusting_eq_ok h
      · exact .trusted hv ht hr
      · refine .entered hv ht hlength (fun f hf => ?_) fun f hf ds hds d hd => ?_
        · obtain ⟨ds, hds, -⟩ := hall f hf
          rw [hds]
          rfl
        · obtain ⟨ds', hds', helements⟩ := hall f hf
          obtain rfl := Option.some.inj (hds.symm.trans hds')
          obtain ⟨place, hplace⟩ := helements d hd
          exact ih less (by omega) hplace

/-- The values that one is inside of are distinct nodes of the store, and there is room for all
others. -/
structure Ample (s : Store) (room : Nat) (inside : List Ref) : Prop where
  nodup : inside.Nodup
  bound : ∀ r ∈ inside, r.index < s.size
  size_le : s.size ≤ room + inside.length

namespace Ample

theorem start (s : Store) : Ample s s.size [] :=
  ⟨.nil, by simp, by simp⟩

theorem enter (h : Ample s (room + 1) inside) (hr : r.index < s.size) (hinside : r ∉ inside) :
    Ample s room (r :: inside) where
  nodup := List.nodup_cons.mpr ⟨hinside, h.nodup⟩
  bound := List.forall_mem_cons.mpr ⟨hr, h.bound⟩
  size_le := by
    have := h.size_le
    rw [List.length_cons]
    omega

/-- Without room one is inside of everything there is. -/
theorem mem (h : Ample s 0 inside) (hr : r.index < s.size) : r ∈ inside := by
  by_contra hinside
  have hinjective : Function.Injective Ref.index := fun ⟨_⟩ ⟨_⟩ h => congrArg Ref.mk h
  have hnodup : ((r :: inside).map Ref.index).Nodup :=
    List.Nodup.map hinjective (List.nodup_cons.mpr ⟨hinside, h.nodup⟩)
  have hbound : ∀ a ∈ r :: inside, a.index < s.size := List.forall_mem_cons.mpr ⟨hr, h.bound⟩
  have hsubset : (r :: inside).map Ref.index ⊆ List.range s.size := by
    intro i hi
    obtain ⟨a, ha, rfl⟩ := List.mem_map.mp hi
    exact List.mem_range.mpr (hbound a ha)
  have hlength := (List.Nodup.subperm hnodup hsubset).length_le
  have := h.size_le
  simp only [List.length_map, List.length_cons, List.length_range] at hlength
  omega

end Ample

/-- What conforms is accepted, wherever one comes from: none of the values that it is inside of can
occur in it again. -/
theorem elementTrusting_eq_ok (h : s.Conforms trusted type d) (hroom : Ample s room inside)
    (hinside : ∀ a ∈ inside, Relation.TransGen (s.Nests trusted) (.object a) d) (place : Path) :
    elementTrusting s trusted room inside type d place = .ok () := by
  induction h generalizing room inside place with
  | primitive hp => rw [elementTrusting_primitive, if_pos hp]
  | trusted hv ht hr =>
    obtain ⟨shape, hshape, -⟩ := exists_outline_eq_ok hv ht place
    rw [elementTrusting_object hshape, if_pos hr]
  | @entered r v t declared hv ht hlength hsome hall ih =>
    obtain ⟨shape, hshape, rfl, hcontents⟩ := exists_outline_eq_ok hv ht place
    obtain ⟨_, ⟨⟩, hbound⟩ := Store.eq_object_of_view? hv
    rw [elementTrusting_object hshape]
    by_cases hr : trusted r = true
    · rw [if_pos hr]
    have hfresh : r ∉ inside := fun hmem =>
      (Store.Conforms.entered hv ht hlength hsome hall).not_nests_self (hinside r hmem)
    rw [if_neg hr, if_neg hfresh, hcontents, if_neg (not_not.mpr hlength)]
    cases room with
    | zero => exact absurd (hroom.mem hbound) hfresh
    | succ room =>
      refine fields_eq_ok hsome fun f hf ds hds e he place => ?_
      have hnests : s.Nests trusted (.object r) e :=
        .mk (Bool.eq_false_iff.mpr hr) hv ht hf hds he
      refine ih f hf ds hds e he (hroom.enter hbound hfresh) (fun a ha => ?_) place
      rcases List.mem_cons.mp ha with rfl | ha
      · exact .single hnests
      · exact (hinside a ha).tail hnests

/-- Checks agree on a datum if they do so where it is a value with an outline. -/
theorem elementTrusting_congr {trusted' : Ref → Bool} {more : Nat} {inside' : List Ref}
    (h : ∀ key r v t shape, d = .object r → outline s key d place = .ok shape →
      s.view? d = some v → v.IsOf t shape.declared → t.key = key → shape.contents = v.fields →
      elementTrusting s trusted room inside (.declared key) d place =
        elementTrusting s trusted' more inside' (.declared key) d place) :
    elementTrusting s trusted room inside type d place =
      elementTrusting s trusted' more inside' type d place := by
  cases type with
  | primitive p => rw [elementTrusting_primitive, elementTrusting_primitive]
  | declared key =>
    cases hshape : outline s key d place with
    | error e => rw [elementTrusting_error hshape, elementTrusting_error hshape]
    | ok shape =>
      obtain ⟨v, t, hv, ht, hkey, hcontents⟩ := of_outline_eq_ok hshape
      obtain ⟨r, hr, -⟩ := Store.eq_object_of_view? hv
      exact h key r v t shape hr hshape hv ht hkey hcontents

/-- The verdict does not depend on the room, if there is enough, nor on values that one is inside of
but does not get to. -/
theorem elementTrusting_inside {more : Nat} {inside' : List Ref} (h : Ample s room inside)
    (hmore : Ample s more inside')
    (hinside : ∀ a, Relation.ReflTransGen (s.Nests trusted) d (.object a) →
      (a ∈ inside ↔ a ∈ inside')) :
    elementTrusting s trusted room inside type d place =
      elementTrusting s trusted more inside' type d place := by
  induction room using Nat.strongRecOn generalizing more inside inside' type d place with
  | ind room ih =>
    refine elementTrusting_congr fun key r v t shape hd hshape hv ht _ hcontents => ?_
    subst hd
    obtain ⟨_, ⟨⟩, hbound⟩ := Store.eq_object_of_view? hv
    rw [elementTrusting_object hshape, elementTrusting_object hshape]
    by_cases hr : trusted r = true
    · rw [if_pos hr, if_pos hr]
    rw [if_neg hr, if_neg hr]
    by_cases hmem : r ∈ inside
    · rw [if_pos hmem, if_pos ((hinside r .refl).mp hmem)]
    have hmem' : r ∉ inside' := fun hmem' => hmem ((hinside r .refl).mpr hmem')
    rw [if_neg hmem, if_neg hmem']
    cases room with
    | zero => exact absurd (h.mem hbound) hmem
    | succ room =>
      cases more with
      | zero => exact absurd (hmore.mem hbound) hmem'
      | succ more =>
        have hfields : fields s (elementTrusting s trusted room (r :: inside)) shape.contents place
            shape.declared = fields s (elementTrusting s trusted more (r :: inside'))
              shape.contents place shape.declared := by
          refine fields_congr fun f hf ds hds e he place => ?_
          rw [hcontents] at hds
          have hnests : s.Nests trusted (.object r) e :=
            .mk (Bool.eq_false_iff.mpr hr) hv ht hf hds he
          refine ih room (by omega) (h.enter hbound hmem) (hmore.enter hbound hmem')
            fun a ha => ?_
          rw [List.mem_cons, List.mem_cons, hinside a (.head hnests ha)]
        simp only [hfields]

/-- The verdict does not depend on how much room there is, if there is enough. -/
theorem elementTrusting_room {more : Nat} (h : Ample s room inside) (hmore : Ample s more inside) :
    elementTrusting s trusted room inside type d place =
      elementTrusting s trusted more inside type d place :=
  elementTrusting_inside h hmore fun _ _ => Iff.rfl

/-- Where all trusted values conform with all contents, trust does not change the verdict. -/
theorem elementTrusting_eq_of_conformsFully
    (htrust : ∀ r v t declared, trusted r = true → s.view? (.object r) = some v →
      v.IsOf t declared → s.ConformsFully (.declared t.key) (.object r))
    (hroom : Ample s room inside)
    (hinside : ∀ a ∈ inside, Relation.TransGen (s.Nests fun _ => false) (.object a) d) :
    elementTrusting s trusted room inside type d place =
      elementTrusting s (fun _ => false) room inside type d place := by
  induction room using Nat.strongRecOn generalizing inside type d place with
  | ind room ih =>
    refine elementTrusting_congr fun key r v t shape hd hshape hv ht hkey hcontents => ?_
    subst hd hkey
    by_cases hr : trusted r = true
    · rw [elementTrusting_object hshape, if_pos hr,
        elementTrusting_eq_ok (htrust r v t _ hr hv ht) hroom hinside]
    rw [elementTrusting_object hshape, elementTrusting_object hshape, if_neg hr,
      if_neg Bool.false_ne_true]
    by_cases hfresh : r ∈ inside
    · rw [if_pos hfresh, if_pos hfresh]
    cases room with
    | zero => rfl
    | succ room =>
      obtain ⟨_, ⟨⟩, hbound⟩ := Store.eq_object_of_view? hv
      have hfields : fields s (elementTrusting s trusted room (r :: inside)) shape.contents place
          shape.declared = fields s (elementTrusting s (fun _ => false) room (r :: inside))
            shape.contents place shape.declared := by
        refine fields_congr fun f hf ds hds e he place => ?_
        rw [hcontents] at hds
        have hnests : s.Nests (fun _ => false) (.object r) e := .mk rfl hv ht hf hds he
        refine ih room (by omega) (hroom.enter hbound hfresh) fun a ha => ?_
        rcases List.mem_cons.mp ha with rfl | ha
        · exact .single hnests
        · exact (hinside a ha).tail hnests
      simp only [hfields]

end Check

/-! ## Checks of whole data -/

/-- The check that trusts no value: it looks at the contents of values made by construction too. -/
def Store.checkFully (s : Store) (type : TypeRef) (d : Datum) : Check.Verdict :=
  Check.elementTrusting s (fun _ => false) s.size [] type d (s.rootPlace type d)

namespace Store

variable {s : Store} {type : TypeRef} {d : Datum}

theorem check_eq_elementTrusting (room : Nat) (hroom : s.size ≤ room) :
    s.check type d =
      Check.elementTrusting s (Check.isBuilt s) room [] type d (s.rootPlace type d) := by
  unfold check
  rw [Check.element_eq_elementTrusting]
  exact Check.elementTrusting_room (.start s) ⟨.nil, by simp, by simpa using hroom⟩

theorem element_eq_ok_iff {place : Path} : Check.element s s.size [] type d place = .ok () ↔
    s.Conforms (Check.isBuilt s) type d := by
  rw [Check.element_eq_elementTrusting]
  exact ⟨Check.conforms_of_elementTrusting,
    fun h => Check.elementTrusting_eq_ok h (.start s) (by simp) place⟩

theorem check_eq_ok_iff : s.check type d = .ok () ↔ s.Conforms (Check.isBuilt s) type d :=
  element_eq_ok_iff

/-- A content passes the check of its field if it has elements and they conform. -/
theorem checkField_eq_ok_iff {f : Field} {place : Path} : s.checkField f d place = .ok () ↔
    ∃ ds, s.elements? f d = some ds ∧ ∀ e ∈ ds, s.Conforms (Check.isBuilt s) f.type e := by
  constructor
  · intro h
    obtain ⟨ds, hds, hall⟩ := Check.of_field_eq_ok h
    refine ⟨ds, hds, fun e he => ?_⟩
    obtain ⟨place, hplace⟩ := hall e he
    exact element_eq_ok_iff.mp hplace
  · rintro ⟨ds, hds, hall⟩
    exact Check.field_eq_ok hds fun e he _ => element_eq_ok_iff.mpr (hall e he)

/-- What conforms goes on to conform in a store with more nodes. -/
theorem Conforms.extends {s' : Store} (h : s.Conforms (Check.isBuilt s) type d)
    (hs : s.Extends s') (hmentions : ∀ x y, s.Mentions x y → s.Holds y) (hd : s.Holds d) :
    s'.Conforms (Check.isBuilt s') type d := by
  refine (h.sameBelow (hs.sameBelow hmentions hd)).mono fun r hr => ?_
  obtain ⟨t, c, fields, hr⟩ := Check.isBuilt_eq_true.mp hr
  exact Check.isBuilt_eq_true.mpr ⟨t, c, fields, hs.get? hr⟩

theorem checkFully_eq_ok_iff :
    s.checkFully type d = .ok () ↔ s.ConformsFully type d :=
  ⟨Check.conforms_of_elementTrusting,
    fun h => Check.elementTrusting_eq_ok h (.start s) (by simp) _⟩

end Store

end Schemata
