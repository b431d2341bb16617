import Schemata.Proofs.Value.Deciding
import Schemata.Value.Construct

/-!
# What construction makes

A construction that succeeds adds a value behind lists for its repeated fields and the frozen list
of its contents, and changes nothing else (`Store.Made`). The value is of the type and the
alternative that were asked for, and its fields have the elements of the inputs, each of which was
checked (`Construct.Fills`); the final form of a content has the same elements as the content
(`Construct.Settles.elements?_eq`).
-/

namespace Schemata

/-- `c` is one of the constructors of a sum type, or none as the type is a product. -/
inductive TypeDef.Alternative (t : TypeDef) : Option Constructor → Prop
  | product {fs : List Field} : t.shape = .product fs → t.Alternative none
  | sum {cs : List Constructor} {attributes : List Field} {c : Constructor} :
    t.shape = .sum cs attributes → c ∈ cs → t.Alternative (some c)

theorem TypeDef.shape_of_mem_constructors {t : TypeDef} {c : Constructor} (h : c ∈ t.constructors) :
    ∃ cs attributes, t.shape = .sum cs attributes ∧ c ∈ cs := by
  unfold constructors at h
  split at h
  next => cases h
  next cs attributes hshape => exact ⟨cs, attributes, hshape, h⟩

/-- All data given for the fields of a value. -/
def Inputs.data : Inputs → List Datum
  | .positional ds => ds
  | .named r => r.entries.map Prod.snd

namespace TypeDef.Alternative

variable {t : TypeDef} {c : Option Constructor}

theorem isOf (h : t.Alternative c) (fields : List Datum) :
    (Built.view ⟨t, c, fields⟩).IsOf t (Construct.declared t c) := by
  cases h with
  | @product fs hshape =>
    have hfields : t.fields = fs := by rw [TypeDef.fields, hshape]
    rw [Construct.declared, hfields]
    exact .product rfl rfl hshape
  | sum hshape hc =>
    exact .sum rfl rfl hshape rfl hc (by simp [Built.view, Datum.isNat, Number.ofNat, Number.toInt?])

theorem mem_constructors {c : Constructor} (h : t.Alternative (some c)) : c ∈ t.constructors := by
  cases h with
  | sum hshape hc => rwa [constructors, hshape]

theorem not_none_of_some {c : Constructor} (h : t.Alternative (some c)) : ¬ t.Alternative none := by
  rintro ⟨hshape⟩
  cases h with
  | sum hshape' _ => cases hshape.symm.trans hshape'

theorem of_constructor_eq_ok {name : Option String} (h : Construct.constructor t name = .ok c) :
    t.Alternative c := by
  unfold Construct.constructor at h
  split at h
  next hshape =>
    obtain rfl := Except.ok.inj h
    exact .product hshape
  next => cases h
  next => cases h
  next hshape =>
    split at h
    next hfind =>
      obtain rfl := Except.ok.inj h
      exact .sum hshape (List.mem_of_find?_eq_some hfind)
    next => cases h

end TypeDef.Alternative

namespace Construct

variable {s s' : Store} {label : String} {f : Field} {d d' : Datum} {inputs : Inputs}
  {declared : List Field} {ds : List Datum}

/-! ## Contents -/

/-- `d` is a content for a field: it is one of the data given, and was checked, or it marks a field
that may be left out. -/
def Fills (s : Store) (data : List Datum) (f : Field) (d : Datum) : Prop :=
  (d ∈ data ∧ ∃ place, s.checkField f d place = .ok ()) ∨ d = .absent ∧ f.multiplicity ≠ .single

theorem checked_eq_ok {verdict : Check.Verdict} : checked verdict = .ok () ↔ verdict = .ok () :=
  Outcome.mapError_eq_ok

theorem checked_eq_error {verdict : Check.Verdict} {e : MismatchError} :
    checked verdict = .error (.mismatch e) ↔ verdict = .error e := by
  unfold checked
  cases verdict <;> simp [Except.mapError]

theorem of_positional_eq_ok {contents : List Datum} (hlength : contents.length = declared.length)
    (h : positional s label contents declared = .ok ds) :
    List.Forall₂ (Fills s contents) declared ds := by
  have hfills : ∀ (data : List Datum) (contents : List Datum), contents ⊆ data →
      contents.length = declared.length → positional s label contents declared = .ok ds →
      List.Forall₂ (Fills s data) declared ds := by
    intro data
    clear h hlength
    induction declared generalizing ds with
    | nil =>
      intro contents _ _ h
      obtain rfl := Except.ok.inj h
      exact .nil
    | cons f fs ih =>
      intro contents hdata hlength h
      cases contents with
      | nil => cases hlength
      | cons d contents =>
        obtain ⟨⟨⟩, hd, h⟩ := Outcome.bind_eq_ok.mp h
        obtain ⟨rest, hrest, h⟩ := Outcome.bind_eq_ok.mp h
        obtain rfl := Outcome.pure_eq_ok.mp h
        obtain ⟨hmem, hdata⟩ := List.cons_subset.mp hdata
        exact .cons (.inl ⟨hmem, _, checked_eq_ok.mp hd⟩)
          (ih contents hdata (Nat.succ.inj hlength) hrest)
  exact hfills contents contents (List.Subset.refl _) hlength h

theorem of_namedContent_eq_ok {r : Record Datum} (h : namedContent s label r f = .ok d) :
    Fills s (r.entries.map Prod.snd) f d := by
  unfold namedContent at h
  split at h
  next hd =>
    obtain ⟨⟨⟩, hchecked, h⟩ := Outcome.bind_eq_ok.mp h
    obtain rfl := Outcome.pure_eq_ok.mp h
    exact .inl ⟨Record.mem_of_get? hd, _, checked_eq_ok.mp hchecked⟩
  next => cases h
  next hsingle =>
    obtain rfl := Except.ok.inj h
    exact .inr ⟨rfl, fun hm => hsingle hm⟩

/-- What the fields are filled with. -/
theorem of_contents_eq_ok (h : contents s label declared inputs = .ok ds) :
    List.Forall₂ (Fills s inputs.data) declared ds := by
  unfold contents at h
  split at h
  next =>
    split at h
    next => cases h
    next hlength => exact of_positional_eq_ok (not_not.mp hlength) h
  next =>
    split at h
    next => cases h
    next => exact (Outcome.mapM_eq_ok.mp h).imp fun _ _ => of_namedContent_eq_ok

/-! ## Final forms -/

/-- `d'` is the final form of the content `d` in the store `s'`. -/
def Settles (s s' : Store) (f : Field) (d d' : Datum) : Prop :=
  match f.multiplicity with
  | .single => d' = d
  | .optional => d' = if s.isEmpty d then .absent else d
  | .repeated => ∃ r, d' = .object r ∧ s'.get? r = some (.list true ((s.list? d).getD []))

/-- A content and its final form have the same elements; a repeated field that was left out has
none. -/
theorem Settles.elements?_eq (h : Settles s s' f d d') (hs : s.Extends s') (hd : s.Holds d) :
    s'.elements? f d' = some ((s.elements? f d).getD []) := by
  unfold Settles at h
  unfold Store.elements?
  cases hm : f.multiplicity <;> simp only [hm] at h ⊢
  case single => rw [h, Option.getD_some]
  case optional =>
    rw [Option.getD_some, h]
    by_cases hempty : s.isEmpty d = true
    · rw [if_pos hempty, if_pos hempty]
      rfl
    · rw [if_neg hempty, if_neg hempty,
        Store.isEmpty_of_node?_eq (hs.node?_eq hd), if_neg hempty]
  case repeated =>
    obtain ⟨r, rfl, hr⟩ := h
    rw [Store.list?_of_get? hr]
    cases s.list? d <;> rfl

theorem Settles.holds (h : Settles s s' f d d') (hs : s.Extends s') (hd : s.Holds d) :
    s'.Holds d' := by
  unfold Settles at h
  cases hm : f.multiplicity <;> simp only [hm] at h
  case single => exact h ▸ hs.holds hd
  case optional =>
    split at h
    · exact h ▸ fun r hr => by cases hr
    · exact h ▸ hs.holds hd
  case repeated =>
    obtain ⟨r, rfl, hr⟩ := h
    rintro _ ⟨⟩
    exact Store.lt_size_of_get? hr

variable {s₀ s₁ : Store}

theorem Settles.extends (h : Settles s s' f d d') (hs : s'.Extends s₁) : Settles s s₁ f d d' := by
  unfold Settles at *
  cases hm : f.multiplicity <;> simp only [hm] at h ⊢
  case single => exact h
  case optional => exact h
  case repeated =>
    obtain ⟨r, rfl, hr⟩ := h
    exact ⟨r, rfl, hs.get? hr⟩

/-- A content is in its final form whether one looks at it in a store or in an earlier one. -/
theorem Settles.of_extends (h : Settles s s' f d d') (hs : s₁.Extends s) (hd : s₁.Holds d) :
    Settles s₁ s' f d d' := by
  have hnode := hs.node?_eq hd
  unfold Settles at *
  rwa [Store.isEmpty_of_node?_eq hnode, Store.list?_of_node?_eq hnode] at h

/-- Storing a content adds at most a list with the items of the content. -/
theorem settle_spec (hs : s₀.Extends s) (hd : s₀.Holds d) :
    s.Extends (settle s f d).2 ∧ Settles s₀ (settle s f d).2 f d (settle s f d).1 ∧
      ∀ r n, (settle s f d).2.get? r = some n →
        s.get? r = some n ∨ n = .list true ((s₀.list? d).getD []) := by
  unfold Settles settle
  cases hm : f.multiplicity <;> simp only
  case single => exact ⟨.refl s, trivial, fun r n hn => .inl hn⟩
  case optional =>
    rw [Store.isEmpty_of_node?_eq (hs.node?_eq hd)]
    exact ⟨.refl s, rfl, fun r n hn => .inl hn⟩
  case repeated =>
    rw [Store.list?_of_node?_eq (hs.node?_eq hd)]
    refine ⟨.add s _, ⟨_, rfl, Store.get?_add_self s _⟩, fun r n hn => ?_⟩
    rcases Store.of_get?_add hn with hn | ⟨-, rfl⟩
    · exact .inl hn
    · exact .inr rfl

/-- Storing contents adds lists with the items of contents, and keeps what is known of the contents
field by field. -/
theorem settleAll_spec {R : Field → Datum → Prop} (hs : s₀.Extends s)
    (h : List.Forall₂ R declared ds) (hds : ∀ d ∈ ds, s₀.Holds d) :
    s.Extends (settleAll s declared ds).2 ∧
      List.Forall₂ (fun f d' => ∃ d, R f d ∧ d ∈ ds ∧
        Settles s₀ (settleAll s declared ds).2 f d d') declared (settleAll s declared ds).1 ∧
      ∀ r n, (settleAll s declared ds).2.get? r = some n →
        s.get? r = some n ∨ ∃ d ∈ ds, n = .list true ((s₀.list? d).getD []) := by
  induction h generalizing s with
  | nil => exact ⟨.refl s, .nil, fun r n hn => .inl hn⟩
  | @cons f d fs ds hR _ ih =>
    obtain ⟨hd, hds⟩ := List.forall_mem_cons.mp hds
    obtain ⟨hgrows, hsettles, hnodes⟩ := settle_spec (f := f) hs hd
    obtain ⟨hgrows', hall, hnodes'⟩ := ih (hs.trans hgrows) hds
    refine ⟨hgrows.trans hgrows', .cons ⟨d, hR, List.mem_cons_self, hsettles.extends hgrows'⟩
      (hall.imp fun g e' ⟨e, hRe, he, hse⟩ => ⟨e, hRe, List.mem_cons_of_mem _ he, hse⟩),
      fun r n hn => ?_⟩
    rcases hnodes' r n hn with hn | ⟨e, he, rfl⟩
    · rcases hnodes r n hn with hn | rfl
      · exact .inl hn
      · exact .inr ⟨d, List.mem_cons_self, rfl⟩
    · exact .inr ⟨e, List.mem_cons_of_mem _ he, rfl⟩

/-! ## The new value -/

/-- Enclosing contents adds the frozen list of the contents and the value. -/
theorem enclose_spec (t : TypeDef) (c : Option Constructor) (contents : List Datum) (s : Store) :
    s.Extends (enclose t c contents s).2 ∧
      (enclose t c contents s).2.HasBuilt (enclose t c contents s).1 ⟨t, c, contents⟩ ∧
      (enclose t c contents s).1.index = s.size + 1 ∧
      ∀ r n, (enclose t c contents s).2.get? r = some n → s.get? r = some n ∨
        r.index = s.size ∧ n = .list true (contents.map some) ∨
        r = (enclose t c contents s).1 ∧ ∃ fields, n = .value t c fields := by
  let listed := s.add (.list true (contents.map some))
  let enclosed := listed.2.add (.value t c listed.1)
  have hgrows : listed.2.Extends enclosed.2 := .add _ _
  have hlist : listed.2.get? listed.1 = some (.list true (contents.map some)) :=
    Store.get?_add_self _ _
  have hsize : listed.2.size = s.size + 1 := Store.size_add s _
  refine ⟨(Store.Extends.add s _).trans hgrows,
    ⟨listed.1, Store.get?_add_self _ _, hgrows.get? hlist⟩, hsize, fun r n hn => ?_⟩
  rcases Store.of_get?_add (s := listed.2) hn with hn | ⟨hr, hn⟩
  · rcases Store.of_get?_add hn with hn | ⟨hr, hn⟩
    · exact .inl hn
    · exact .inr (.inl ⟨congrArg Ref.index hr, hn⟩)
  · exact .inr (.inr ⟨hr, _, hn⟩)

end Construct

/-! ## Values -/

/-- `s'` is `s` with the new value `b` at `r` and the lists in it; its fields are filled with given
data. The list of its contents stands right in front of it, and all that the contents refer to in
front of this list. -/
structure Store.Made (s s' : Store) (data : List Datum) (r : Ref) (b : Built) : Prop where
  alternative : b.type.Alternative b.constructor
  built : s'.HasBuilt r b
  older : ∀ l, .object l ∈ b.fields → l.index + 1 < r.index
  grows : s.Extends s'
  nodes : ∀ r' n, s'.get? r' = some n → s.get? r' = some n ∨
    (r' = r ∧ ∃ fields, n = .value b.type b.constructor fields) ∨
    r'.index + 1 = r.index ∧ n = .list true (b.fields.map some) ∨ n = .list true [] ∨
    ∃ d ∈ data, ∃ items, s.list? d = some items ∧ n = .list true items
  contents : List.Forall₂ (fun f d' => ∃ d, Construct.Fills s data f d ∧
    Construct.Settles s s' f d d') (Construct.declared b.type b.constructor) b.fields

theorem Construct.Fills.mem_or {s : Store} {data : List Datum} {f : Field} {d : Datum}
    (h : Fills s data f d) : d ∈ data ∨ d = .absent := by
  rcases h with ⟨hd, -⟩ | ⟨hd, -⟩
  · exact .inl hd
  · exact .inr hd

theorem Construct.Fills.holds {s : Store} {data : List Datum} {f : Field} {d : Datum}
    (h : Fills s data f d) (hdata : ∀ d ∈ data, s.Holds d) : s.Holds d := by
  rcases h.mem_or with hd | rfl
  · exact hdata d hd
  · exact fun r hr => by cases hr

/-- A construction that succeeds reads the contents from the inputs, stores them and encloses what it
has stored. -/
theorem Store.exists_of_construct_eq_ok {s s' : Store} {m : Model} {typeName : String}
    {constructorName : Option String} {inputs : Inputs} {r : Ref}
    (h : s.construct m typeName constructorName inputs = .ok (r, s')) :
    ∃ t c contents, m.getType typeName = .ok t ∧ Construct.constructor t constructorName = .ok c ∧
      Construct.contents s (Construct.label t c) (Construct.declared t c) inputs = .ok contents ∧
      Construct.enclose t c (Construct.settleAll s (Construct.declared t c) contents).1
        (Construct.settleAll s (Construct.declared t c) contents).2 = (r, s') := by
  obtain ⟨t, ht, h⟩ := Outcome.bind_eq_ok.mp h
  obtain ⟨c, hc, h⟩ := Outcome.bind_eq_ok.mp h
  obtain ⟨contents, hcontents, h⟩ := Outcome.bind_eq_ok.mp h
  exact ⟨t, c, contents, Outcome.mapError_eq_ok.mp ht, hc, hcontents, Outcome.pure_eq_ok.mp h⟩

/-- A construction that succeeds makes a value of the type and the constructor named, and of nothing
but the inputs. -/
theorem Store.of_construct_eq_ok {s s' : Store} {m : Model} {typeName : String}
    {constructorName : Option String} {inputs : Inputs} {r : Ref}
    (h : s.construct m typeName constructorName inputs = .ok (r, s'))
    (hinputs : ∀ d ∈ inputs.data, s.Holds d) :
    ∃ b, m.getType typeName = .ok b.type ∧
      Construct.constructor b.type constructorName = .ok b.constructor ∧
      s.Made s' inputs.data r b := by
  obtain ⟨t, c, contents, ht, hc, hcontents, h⟩ := exists_of_construct_eq_ok h
  have hfills := Construct.of_contents_eq_ok hcontents
  have hholds : ∀ d ∈ contents, s.Holds d := by
    intro d hd
    obtain ⟨f, -, hf⟩ := Outcome.exists_of_mem_right hfills hd
    exact hf.holds hinputs
  obtain ⟨hgrows, hall, hnodes⟩ := Construct.settleAll_spec (.refl s) hfills hholds
  obtain ⟨hsealed, hbuilt, hfresh, hnew⟩ := Construct.enclose_spec t c
    (Construct.settleAll s (Construct.declared t c) contents).1
    (Construct.settleAll s (Construct.declared t c) contents).2
  rw [h] at hsealed hbuilt hfresh hnew
  dsimp only at hfresh hnew
  refine ⟨⟨t, c, _⟩, ht, hc, .of_constructor_eq_ok hc, hbuilt,
    fun l hl => ?_, hgrows.trans hsealed, fun r n hn => ?_, ?_⟩
  · obtain ⟨f, -, d, -, hd, hsettles⟩ := Outcome.exists_of_mem_right hall hl
    have hlt := hsettles.holds hgrows (hholds d hd) l rfl
    omega
  · rcases hnew r n hn with hn | hn | hn
    · rcases hnodes r n hn with hn | ⟨d, hd, rfl⟩
      · exact .inl hn
      · obtain ⟨f, -, hf⟩ := Outcome.exists_of_mem_right hfills hd
        rcases hf.mem_or with hd | rfl
        · cases hlist : s.list? d with
          | none => exact .inr (.inr (.inr (.inl rfl)))
          | some items => exact .inr (.inr (.inr (.inr ⟨d, hd, items, hlist, rfl⟩)))
        · exact .inr (.inr (.inr (.inl rfl)))
    · exact .inr (.inr (.inl ⟨by omega, hn.2⟩))
    · exact .inr (.inl hn)
  · exact hall.imp fun f d' ⟨d, hd, _, hsettles⟩ => ⟨d, hd, hsettles.extends hsealed⟩

/-- A construction with a type and a constructor that are there reads the inputs, stores the
contents and adds the value. -/
theorem Store.construct_eq_map {s : Store} {m : Model} {typeName : String} {name : Option String}
    {t : TypeDef} {c : Option Constructor} (ht : m.getType typeName = .ok t)
    (hc : Construct.constructor t name = .ok c) (inputs : Inputs) :
    s.construct m typeName name inputs =
      ((Construct.contents s (Construct.label t c) (Construct.declared t c) inputs).map
        (Construct.settleAll s (Construct.declared t c))).map
          fun p => Construct.enclose t c p.1 p.2 := by
  simp only [construct, ht, hc, Except.mapError, Outcome.ok_bind]
  cases Construct.contents s (Construct.label t c) (Construct.declared t c) inputs <;> rfl

/-- Contents in order that pass the checks of their fields are the contents of the value. -/
theorem Construct.positional_eq_ok {s : Store} {fs : List Field} (label : String)
    {g : Field → Datum} (h : ∀ f ∈ fs, ∀ place, s.checkField f (g f) place = .ok ()) :
    positional s label (fs.map g) fs = .ok (fs.map g) := by
  induction fs with
  | nil => rfl
  | cons f fs ih =>
    obtain ⟨hf, hfs⟩ := List.forall_mem_cons.mp h
    simp only [List.map_cons, positional, List.headD_cons, List.tail_cons, hf, ih hfs]
    rfl

/-- A construction that is given a content for each field in order, each of which passes the check
of its field, makes a value in which these contents have their final form. -/
theorem Store.exists_construct_eq_ok {s : Store} {m : Model} {typeName : String}
    {name : Option String} {t : TypeDef} {c : Option Constructor} {g : Field → Datum}
    (ht : m.getType typeName = .ok t) (hc : Construct.constructor t name = .ok c)
    (hchecked : ∀ f ∈ Construct.declared t c, ∀ place, s.checkField f (g f) place = .ok ())
    (hholds : ∀ f ∈ Construct.declared t c, s.Holds (g f)) :
    ∃ r s' fields,
      s.construct m typeName name (.positional ((Construct.declared t c).map g)) = .ok (r, s') ∧
      s.Extends s' ∧ s'.HasBuilt r ⟨t, c, fields⟩ ∧
      List.Forall₂ (fun f d' => Construct.Settles s s' f (g f) d') (Construct.declared t c)
        fields := by
  let settled := Construct.settleAll s (Construct.declared t c) ((Construct.declared t c).map g)
  have hmade : s.construct m typeName name (.positional ((Construct.declared t c).map g)) =
      .ok (Construct.enclose t c settled.1 settled.2) := by
    rw [construct_eq_map ht hc, Construct.contents, if_neg (by simp),
      Construct.positional_eq_ok _ hchecked]
    rfl
  obtain ⟨hgrows, hsettles, -⟩ := Construct.settleAll_spec (R := fun f d => d = g f) (.refl s)
    (List.forall₂_map_right_iff.mpr (List.forall₂_same.mpr fun f _ => rfl))
    (List.forall_mem_map.mpr hholds)
  obtain ⟨hsealed, hbuilt, -, -⟩ := Construct.enclose_spec t c settled.1 settled.2
  refine ⟨_, _, settled.1, hmade, hgrows.trans hsealed, hbuilt, ?_⟩
  exact hsettles.imp fun f d' ⟨d, hd, _, hsettles⟩ => hd ▸ hsettles.extends hsealed

end Schemata
