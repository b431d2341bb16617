import Schemata.Proofs.Session.Validity
import Schemata.Proofs.Value.Records
import Schemata.Proofs.Value.Spelling

/-!
# How accepted values are read

A plain object that the check accepts has contents of which a value can be made
(`Session.Reachable.exists_construct_of_check`). Construction brings the contents into their final
forms, and a reader hardly tells a content from its final form: printing writes the same for both
(`Construct.Finishes.print_content`), and so does the plain view, unless the content is nothing at
all (`Construct.Finishes.ofDatum?_eq`). Hence the plain object and the value have the same text,
with every limit of depth, and plain views that differ only in the properties of such contents
(`Session.Reachable.reads_as_constructed`).

For nothing at all the plain view of the object has nothing at all, where that of the value has null
(`Session.exists_plain_missing`).
-/

namespace Schemata

variable {s s' : Store} {f : Field} {d d' : Datum} {t : TypeDef} {c : Option Constructor}
  {xs ys : List Datum} {r : Ref}

/-! ## Contents and their final forms -/

/-- `d` has the form that the field asks for, and `d'` is its final form in the same store. -/
structure Construct.Finishes (s : Store) (f : Field) (d d' : Datum) : Prop where
  formed : (s.elements? f d).isSome
  present : f.multiplicity ≠ .optional → d ≠ .missing
  settles : Settles s s f d d'

theorem Construct.Settles.forward (h : Settles s s' f d d') (hs : s.Extends s') (hd : s.Holds d) :
    Settles s' s' f d d' := by
  have hnode := hs.node?_eq hd
  unfold Settles at *
  rwa [Store.isEmpty_of_node?_eq hnode, Store.list?_of_node?_eq hnode]

/-- Nothing at all is no content of a field that is not optional. -/
theorem Store.ne_missing_of_elements? {trusted : Ref → Bool} {ds : List Datum}
    (hds : s.elements? f d = some ds) (hall : ∀ e ∈ ds, s.Conforms trusted f.type e)
    (hm : f.multiplicity ≠ .optional) : d ≠ .missing := by
  rintro rfl
  unfold elements? at hds
  cases hmult : f.multiplicity <;> simp only [hmult] at hds
  case single =>
    obtain rfl := Option.some.inj hds
    exact not_conforms_missing (hall _ List.mem_cons_self)
  case optional => exact hm hmult
  case repeated => cases hds

theorem Print.content_of_isEmpty (hd : s.isEmpty d = true)
    (inner : Datum → Path → Except PrintError String) (place : Path) :
    content s inner d place = .ok absentMark := by
  rw [content, if_pos hd]

namespace Plain

/-- Null for nothing at all. -/
def orNull : Plain → Plain
  | missing => null
  | p => p

/-- A record with null for each property that is nothing at all. -/
def filled : Plain → Plain
  | record entries => record (entries.map fun e => (e.1, e.2.orNull))
  | p => p

theorem ofHolder?_ne_missing (inner : Datum → Option Plain) (d : Datum) :
    ofHolder? s inner d ≠ some missing := by
  unfold ofHolder?
  split
  next => simp
  next =>
    split
    next => simp
    next =>
      split
      next => simp
      next => simp [Option.bind_eq_some_iff, ofShape]

/-- Only nothing at all is viewed as nothing at all. -/
theorem ofDatum?_ne_missing {room : Nat} (hd : d ≠ .missing) :
    ofDatum? s room d ≠ some missing := by
  cases room with
  | zero =>
    unfold ofDatum?
    simp
  | succ room =>
    cases d with
    | missing => exact absurd rfl hd
    | null | bool | number | text =>
      unfold ofDatum?
      simp
    | _ => exact ofHolder?_ne_missing (ofDatum? s room) _

/-- What stands for no content is viewed as null, unless it is nothing at all. -/
theorem ofDatum?_of_isEmpty {room : Nat} (hd : s.isEmpty d = true) (hne : d ≠ .missing) :
    ofDatum? s (room + 1) d = some null := by
  cases d with
  | missing => exact absurd rfl hne
  | null => rfl
  | bool | number | text =>
    simp [Store.isEmpty, Store.isAbsent, Store.kindName?, Store.property?, Store.node?] at hd
  | _ =>
    show ofHolder? s (ofDatum? s room) _ = _
    rw [ofHolder?, if_pos]
    exact hd

end Plain

namespace Construct.Finishes

theorem eq_absent (h : Finishes s f d d') (hm : f.multiplicity = .optional)
    (hd : s.isEmpty d = true) : d' = .absent := by
  have hsettles := h.settles
  unfold Settles at hsettles
  simpa only [hm, hd, if_true] using hsettles

/-- A content and its final form are the same datum, or both stand for no content, or are lists of
the same items. -/
theorem eq_or (h : Finishes s f d d') : d' = d ∨
    f.multiplicity = .optional ∧ s.isEmpty d = true ∧ d' = .absent ∨
    ∃ items, s.list? d = some items ∧ s.list? d' = some items := by
  have hsettles := h.settles
  have hformed := h.formed
  unfold Settles at hsettles
  unfold Store.elements? at hformed
  cases hm : f.multiplicity <;> simp only [hm] at hsettles hformed
  case single => exact .inl hsettles
  case optional =>
    split at hsettles
    next hempty => exact .inr (.inl ⟨rfl, hempty, hsettles⟩)
    next => exact .inl hsettles
  case repeated =>
    obtain ⟨l, rfl, hl⟩ := hsettles
    obtain ⟨items, hitems⟩ := Option.isSome_iff_exists.mp (Option.isSome_map.symm.trans hformed)
    rw [hitems, Option.getD_some] at hl
    exact .inr (.inr ⟨items, hitems, Store.list?_of_get? hl⟩)

/-- A content is printed as its final form is. -/
theorem print_content (h : Finishes s f d d') (inner : Datum → Path → Except PrintError String)
    (place : Path) : Print.content s inner d' place = Print.content s inner d place := by
  rcases h.eq_or with rfl | ⟨-, hempty, rfl⟩ | ⟨items, hitems, hitems'⟩
  · rfl
  · rw [Print.content_of_isEmpty hempty]
    rfl
  · rw [Print.content, Print.content, hitems, hitems', Store.isEmpty_of_list? hitems,
      Store.isEmpty_of_list? hitems']

/-- A content is viewed as its final form is, unless it is nothing at all. -/
theorem ofDatum?_eq (h : Finishes s f d d') (hne : d ≠ .missing) (room : Nat) :
    Plain.ofDatum? s room d' = Plain.ofDatum? s room d := by
  cases room with
  | zero =>
    unfold Plain.ofDatum?
    rfl
  | succ room =>
    rcases h.eq_or with rfl | ⟨-, hempty, rfl⟩ | ⟨items, hitems, hitems'⟩
    · rfl
    · rw [Plain.ofDatum?_of_isEmpty hempty hne]
      rfl
    · rw [Plain.ofDatum?_of_list? hitems, Plain.ofDatum?_of_list? hitems']

/-- The final form of a content is viewed as the content is, with null for nothing at all. -/
theorem ofDatum?_filled (h : Finishes s f d d') (room : Nat) :
    Plain.ofDatum? s room d' = (Plain.ofDatum? s room d).map Plain.orNull := by
  by_cases hmissing : d = .missing
  · have hm : f.multiplicity = .optional := by
      by_contra hm
      exact h.present hm hmissing
    obtain rfl := h.eq_absent hm (hmissing ▸ rfl)
    rw [hmissing]
    cases room <;> rfl
  · rw [h.ofDatum?_eq hmissing]
    have hview : Plain.ofDatum? s room d ≠ some .missing := Plain.ofDatum?_ne_missing hmissing
    cases hp : Plain.ofDatum? s room d with
    | none => rfl
    | some p =>
      cases p with
      | missing => exact absurd hp hview
      | _ => rfl

end Construct.Finishes

/-! ## Texts and plain views -/

section Values

variable {v : Shape}

theorem Print.fields_eq_of_contents {fs : List Field} {inner : Datum → Path → Except PrintError String}
    {place : Path} (h : ∀ f ∈ fs, ∀ place,
      content s inner (contentAt ys f.index) place = content s inner (v.content f) place) :
    fields s inner { v with contents := ys } place fs = fields s inner v place fs := by
  induction fs with
  | nil => rfl
  | cons f fs ih =>
    obtain ⟨hf, hfs⟩ := List.forall_mem_cons.mp h
    rw [fields, fields, ih hfs, ← hf]
    rfl

/-- Values with the same label and fields have the same text if their contents are printed alike. -/
theorem Store.print_eq_of_contents (hd : s.shape? d = some v)
    (hd' : s.shape? d' = some { v with contents := ys })
    (h : ∀ f ∈ v.declared, ∀ inner place,
      Print.content s inner (contentAt ys f.index) place =
        Print.content s inner (v.content f) place) (limit : Number) :
    s.print limit d' = s.print limit d := by
  have hvalue (tooDeep : Path → PrintError) (levels : Nat) (place : Path) :
      Print.value s tooDeep levels d' place = Print.value s tooDeep levels d place := by
    unfold Print.value
    cases levels with
    | zero => rfl
    | succ levels =>
      rw [hd, hd']
      dsimp only
      rw [Print.fields_eq_of_contents fun f hf => h f hf _]
      rfl
  simp only [print, hd, hd', hvalue]

/-- The text of a value is made of those of its contents. -/
theorem Store.exists_texts_of_print {limit : Number} {text : String} (hd : s.shape? d = some v)
    (h : s.print limit d = .ok text) :
    ∃ texts, text = Print.assemble v texts ∧ List.Forall₂ (fun f text => ∃ inner place,
      Print.content s inner (v.content f) place = .ok text) v.declared texts := by
  obtain ⟨tooDeep, levels, place, hvalue⟩ := exists_value_of_print h
  obtain ⟨_, v', texts, -, hv', htexts, htext⟩ := Print.value_eq_ok.mp hvalue
  obtain rfl := Option.some.inj (hd.symm.trans hv')
  exact ⟨texts, htext.symm, (Print.forall₂_of_fields htexts).imp
    fun f text ⟨place, htext⟩ => ⟨_, place, htext⟩⟩

/-- The plain view of a value is made of those of its contents. -/
theorem Store.exists_views_of_plain? {p : Plain} (h : s.plain? v = some p) :
    ∃ views, p = Plain.ofShape v views ∧ List.Forall₂ (fun f q =>
      Plain.ofDatum? s (s.size + 1) (v.content f) = some q) v.declared views := by
  obtain ⟨views, hviews, h⟩ := Option.bind_eq_some_iff.mp h
  exact ⟨views, (Option.some.inj h).symm, Outcome.mapM_eq_some.mp hviews⟩

theorem Plain.filled_ofShape (v : Shape) (views : List Plain) :
    filled (ofShape v views) = ofShape v (views.map orNull) := by
  have hkept (es : List (String × Plain)) : (es.filter (·.1 ≠ "__proto__")).map
      (fun e => (e.1, e.2.orNull)) =
        (es.map fun e => (e.1, e.2.orNull)).filter (·.1 ≠ "__proto__") := by
    rw [List.filter_map]
    rfl
  have hzip : v.fieldNames.zip (views.map orNull) =
      (v.fieldNames.zip views).map fun e => (e.1, e.2.orNull) := List.zip_map_right
  unfold ofShape filled
  dsimp only
  rw [← Record.entries_ofList_map, List.map_append, hkept, hzip]
  cases v.kind <;> rfl

/-- Values with the same label and fields have the same plain view if their contents are viewed
alike. -/
theorem Store.plain?_eq_of_contents (h : ∀ f ∈ v.declared,
      Plain.ofDatum? s (s.size + 1) (contentAt ys f.index) =
        Plain.ofDatum? s (s.size + 1) (v.content f)) :
    s.plain? { v with contents := ys } = s.plain? v := by
  unfold plain?
  rw [← Outcome.mapM_congr h]
  rfl

/-- If the contents of one value are viewed as those of the other, with null for nothing at all, so
is the value. -/
theorem Store.plain?_filled (h : ∀ f ∈ v.declared,
      Plain.ofDatum? s (s.size + 1) (contentAt ys f.index) =
        (Plain.ofDatum? s (s.size + 1) (v.content f)).map Plain.orNull) :
    s.plain? { v with contents := ys } = (s.plain? v).map Plain.filled := by
  have hviews : (v.declared.mapM fun f => Plain.ofDatum? s (s.size + 1) (contentAt ys f.index)) =
      (v.declared.mapM fun f => Plain.ofDatum? s (s.size + 1) (v.content f)).map
        (List.map Plain.orNull) := Outcome.mapM_map h
  unfold plain?
  show ((v.declared.mapM fun f => Plain.ofDatum? s (s.size + 1) (contentAt ys f.index)).bind
    fun views => some (Plain.ofShape v views)) = _
  rw [hviews]
  cases v.declared.mapM fun f => Plain.ofDatum? s (s.size + 1) (v.content f) with
  | none => rfl
  | some views => exact congrArg some (Plain.filled_ofShape v views).symm

end Values

/-! ## Accepted plain objects -/

theorem ValueView.IsOf.declared_of_shape? {v : ValueView} {declared : List Field} {shape : Shape}
    (h : v.IsOf t declared) (hshape : v.shape? = some shape) : shape.declared = declared := by
  obtain ⟨kind, type, constructor, tag, fields⟩ := v
  cases h with
  | product htype hkind hfields =>
    obtain ⟨key, position, _⟩ := t
    obtain rfl := htype
    obtain rfl := hkind
    obtain rfl := hfields
    obtain rfl := Option.some.inj hshape
    rfl
  | sum _ hkind _ hc _ _ =>
    obtain rfl := hkind
    obtain rfl := hc
    obtain rfl := Option.some.inj hshape
    rfl

namespace Session

variable {σ : Session} {m : Model} {typeName : String} {name : Option String}

/-- Of contents for all fields, whose elements conform, a value can be made. It holds their final
forms, and nothing else is changed. -/
theorem Reachable.exists_construct_of_contents (h : σ.Reachable) (hm : m ∈ σ.models)
    (ht : m.getType typeName = .ok t) (hc : Construct.constructor t name = .ok c)
    (hlength : xs.length = (Construct.declared t c).length)
    (hholds : ∀ x ∈ xs, σ.store.Holds x)
    (hcontents : ∀ f ∈ Construct.declared t c, ∃ ds,
      σ.store.elements? f (contentAt xs f.index) = some ds ∧
        ∀ e ∈ ds, σ.store.Conforms (Check.isBuilt σ.store) f.type e) :
    ∃ w s' ys, σ.store.construct m typeName name (.positional xs) = .ok (w, s') ∧
      σ.store.Extends s' ∧ s'.HasBuilt w ⟨t, c, ys⟩ ∧
      ys.length = (Construct.declared t c).length ∧
      ∀ f ∈ Construct.declared t c,
        Construct.Finishes s' f (contentAt xs f.index) (contentAt ys f.index) := by
  have halternative := TypeDef.Alternative.of_constructor_eq_ok hc
  have hnumbered := (halternative.isOf []).numbered
    (h.sound.numbered (mem_types hm (Model.mem_of_getType_eq_ok ht)))
  have hheld (f : Field) : σ.store.Holds (contentAt xs f.index) :=
    Store.holds_contentAt hholds f.index
  obtain ⟨w, s', ys, hmade, hgrows, hw, hsettles⟩ := Store.exists_construct_eq_ok ht hc
    (fun f hf place => Store.checkField_eq_ok_iff.mpr (hcontents f hf)) fun f _ => hheld f
  rw [hnumbered.map_contentAt hlength] at hmade
  refine ⟨w, s', ys, hmade, hgrows, hw, hsettles.length_eq.symm, fun f hf => ?_⟩
  obtain ⟨ds, hds, hall⟩ := hcontents f hf
  have hsame := hgrows.sameBelow h.sound.holds_of_mentions (hheld f)
  refine ⟨?_, Store.ne_missing_of_elements? hds hall,
    (hnumbered.contentAt_of_forall₂ hsettles hf).forward hgrows (hheld f)⟩
  rw [hsame.elements?_eq, hds]
  rfl

/-- Of the contents of a plain object that the check accepts a value of the same type and
alternative can be made. It holds their final forms, and what is below the object stays as it is. -/
theorem Reachable.exists_construct_of_check (h : σ.Reachable) (hm : m ∈ σ.models)
    (ht : m.getType typeName = .ok t) (hc : Construct.constructor t name = .ok c)
    (hr : Check.isBuilt σ.store r = false)
    (hshape : σ.store.shape? (.object r) = some (Built.shape ⟨t, c, xs⟩))
    (hcheck : σ.store.check (.declared t.key) (.object r) = .ok ()) :
    ∃ w s' ys, σ.store.construct m typeName name (.positional xs) = .ok (w, s') ∧
      σ.store.SameBelow s' (.object r) ∧
      s'.shape? (.object w) = some (Built.shape ⟨t, c, ys⟩) ∧
      ∀ f ∈ Construct.declared t c,
        Construct.Finishes s' f (contentAt xs f.index) (contentAt ys f.index) := by
  have hmentions := h.sound.holds_of_mentions
  have halternative := TypeDef.Alternative.of_constructor_eq_ok hc
  obtain ⟨v, hv, hvshape⟩ := Option.bind_eq_some_iff.mp hshape
  obtain ⟨v', t', declared, hv', hof, hlength, hsome, hall⟩ :=
    (Store.check_eq_ok_iff.mp hcheck).entered_of_not_trusted hr
  obtain rfl := Option.some.inj (hv.symm.trans hv')
  obtain rfl : Construct.declared t c = declared := hof.declared_of_shape? hvshape
  obtain rfl : xs = v.fields := ValueView.contents_of_shape? hvshape
  obtain ⟨_, ⟨⟩, hbound⟩ := Store.eq_object_of_view? hv
  have hobject : σ.store.Holds (.object r) := fun _ heq => Datum.object.inj heq ▸ hbound
  obtain ⟨w, s', ys, hmade, hgrows, hw, -, hfinishes⟩ := h.exists_construct_of_contents hm ht hc
    hlength (fun x hx => by
      rcases Store.reaches_of_view? hv hx with hway | rfl
      · exact Store.holds_of_reaches hmentions hobject hway
      · exact fun _ hr => by cases hr)
    fun f hf => by
      obtain ⟨ds, hds⟩ := Option.isSome_iff_exists.mp (hsome f hf)
      exact ⟨ds, hds, hall f hf ds hds⟩
  refine ⟨w, s', ys, hmade, hgrows.sameBelow hmentions hobject, ?_, hfinishes⟩
  rw [Store.shape?, hw.view?]
  exact TypeDef.Alternative.shape?_view halternative

/-- A plain object that counts as a value of an alternative of a type, and that the check accepts,
reads like the value that construction makes of its contents. Both have the same text or the same
error, whatever the limit of depth. The plain view of the value is that of the object, with null for
each property that is nothing at all; so both are the same if no optional field is left at nothing
at all. An empty optional field is written as the mark of absence, and is null in the plain view of
the value. -/
theorem Reachable.reads_as_constructed (h : σ.Reachable) (hm : m ∈ σ.models)
    (ht : m.getType typeName = .ok t) (hc : Construct.constructor t name = .ok c)
    (hr : Check.isBuilt σ.store r = false)
    (hshape : σ.store.shape? (.object r) = some (Built.shape ⟨t, c, xs⟩))
    (hcheck : σ.store.check (.declared t.key) (.object r) = .ok ()) :
    ∃ w s' ys, σ.store.construct m typeName name (.positional xs) = .ok (w, s') ∧
      s'.shape? (.object r) = some (Built.shape ⟨t, c, xs⟩) ∧
      s'.shape? (.object w) = some (Built.shape ⟨t, c, ys⟩) ∧
      (∀ limit, s'.print limit (.object w) = s'.print limit (.object r)) ∧
      s'.plain? (Built.shape ⟨t, c, ys⟩) =
        (s'.plain? (Built.shape ⟨t, c, xs⟩)).map Plain.filled ∧
      ((∀ f ∈ Construct.declared t c, f.multiplicity = .optional →
          contentAt xs f.index ≠ .missing) →
        s'.plain? (Built.shape ⟨t, c, ys⟩) = s'.plain? (Built.shape ⟨t, c, xs⟩)) ∧
      (∀ limit text, s'.print limit (.object r) = .ok text →
        ∃ texts, text = Print.assemble (Built.shape ⟨t, c, xs⟩) texts ∧
          List.Forall₂ (fun f text => f.multiplicity = .optional →
            s'.isEmpty (contentAt xs f.index) = true → text = Print.absentMark)
            (Construct.declared t c) texts) ∧
      ∀ p, s'.plain? (Built.shape ⟨t, c, ys⟩) = some p →
        ∃ views, p = Plain.ofShape (Built.shape ⟨t, c, ys⟩) views ∧
          List.Forall₂ (fun f q => f.multiplicity = .optional →
            s'.isEmpty (contentAt xs f.index) = true → q = .null)
            (Construct.declared t c) views := by
  obtain ⟨w, s', ys, hmade, hsame, hw, hfinishes⟩ :=
    h.exists_construct_of_check hm ht hc hr hshape hcheck
  have hr' := hsame.shape?_eq.trans hshape
  refine ⟨w, s', ys, hmade, hr', hw, ?_, ?_, fun hne => ?_, fun limit text htext => ?_,
    fun p hp => ?_⟩
  · exact Store.print_eq_of_contents hr' hw fun f hf => (hfinishes f hf).print_content
  · exact Store.plain?_filled (v := Built.shape ⟨t, c, xs⟩) fun f hf =>
      (hfinishes f hf).ofDatum?_filled _
  · refine Store.plain?_eq_of_contents (v := Built.shape ⟨t, c, xs⟩) fun f hf => ?_
    by_cases hm : f.multiplicity = .optional
    · exact (hfinishes f hf).ofDatum?_eq (hne f hf hm) _
    · exact (hfinishes f hf).ofDatum?_eq ((hfinishes f hf).present hm) _
  · obtain ⟨texts, htext, htexts⟩ := Store.exists_texts_of_print hr' htext
    refine ⟨texts, htext, htexts.imp fun f text ⟨inner, place, htext⟩ _ hempty => ?_⟩
    exact Except.ok.inj (htext.symm.trans (Print.content_of_isEmpty hempty inner place))
  · obtain ⟨views, hp, hviews⟩ := Store.exists_views_of_plain? hp
    refine ⟨views, hp, (Outcome.forall₂_mem_and hviews).imp fun f q ⟨hf, hq⟩ hm hempty => ?_⟩
    have hnull : Plain.ofDatum? s' (s'.size + 1) (contentAt ys f.index) = some .null := by
      rw [(hfinishes f hf).eq_absent hm hempty]
      rfl
    exact Option.some.inj (hq.symm.trans hnull)

/-- A node whose next node is null has the text and the plain view of the node that is made of its
contents. -/
theorem Reachable.reads_as_constructed_node : ∃ (σ : Session) (w : Ref) (s' : Store)
    (v v' : Shape), σ.Reachable ∧
    σ.store.check (.declared Sample.node.key) (.object ⟨1⟩) = .ok () ∧
    σ.store.construct Sample.model "node" none (.positional [.number (.ofNat 1), .null]) =
      .ok (w, s') ∧
    s'.shape? (.object ⟨1⟩) = some v ∧ s'.shape? (.object w) = some v' ∧
    s'.print (.infinite false) (.object w) = s'.print (.infinite false) (.object ⟨1⟩) ∧
    s'.print (.infinite false) (.object w) = .ok "(1, _)" ∧
    s'.plain? v' = s'.plain? v ∧
    s'.plain? v = some (.record [("v", .number (.ofNat 1)), ("next", .null)]) := by
  let contents : List Datum := [.number (.ofNat 1), .null]
  let s : Store := ⟨#[.list false (contents.map some), .record (Sample.properties ⟨0⟩)]⟩
  have h₁ : Reachable ⟨⟨#[.list false (contents.map some)]⟩, 1, [Sample.model]⟩ :=
    Sample.reachable.call (.list (by decide))
  have h₂ : Reachable ⟨s, 1, [Sample.model]⟩ := h₁.call (.record (by decide))
  have hcheck : s.check (.declared Sample.node.key) (.object ⟨1⟩) = .ok () := rfl
  have htype : Sample.model.getType "node" = .ok Sample.node := rfl
  have hconstructor : Construct.constructor Sample.node none = .ok none := rfl
  have hshape : s.shape? (.object ⟨1⟩) = some (Built.shape ⟨Sample.node, none, contents⟩) := rfl
  let fields : Node := .list true [some (.number (.ofNat 1)), some .absent]
  let s' : Store := ⟨(s.nodes.push fields).push (.value Sample.node none ⟨2⟩)⟩
  have hmade : s.construct Sample.model "node" none (.positional contents) = .ok (⟨3⟩, s') := rfl
  obtain ⟨w, s'', ys, hmade', hr, hw, hprint, -, hplain, -, -⟩ :=
    h₂.reads_as_constructed (List.mem_singleton.mpr rfl) htype hconstructor rfl hshape hcheck
  obtain ⟨rfl, rfl⟩ := Prod.mk.inj (Except.ok.inj (hmade.symm.trans hmade'))
  exact ⟨⟨s, 1, [Sample.model]⟩, _, _, _, _, h₂, hcheck, hmade, hr, hw, hprint _, rfl,
    hplain (by decide), rfl⟩

/-- A node whose next node is nothing at all: the check accepts it, and its plain view has nothing
at all where that of the node made of its contents has null. -/
theorem exists_plain_missing : ∃ (σ : Session) (w : Ref) (s' : Store) (v v' : Shape) (p p' : Plain),
    σ.Reachable ∧ Sample.model ∈ σ.models ∧ Check.isBuilt σ.store ⟨1⟩ = false ∧
    σ.store.shape? (.object ⟨1⟩) = some v ∧ v.contents = [.number (.ofNat 1), .missing] ∧
    σ.store.check (.declared Sample.node.key) (.object ⟨1⟩) = .ok () ∧
    σ.store.construct Sample.model "node" none (.positional v.contents) = .ok (w, s') ∧
    s'.shape? (.object ⟨1⟩) = some v ∧ s'.shape? (.object w) = some v' ∧
    s'.plain? v = some p ∧ s'.plain? v' = some p' ∧
    p = .record [("v", .number (.ofNat 1)), ("next", .missing)] ∧
    p' = .record [("v", .number (.ofNat 1)), ("next", .null)] ∧ p ≠ p' := by
  let contents : List Datum := [.number (.ofNat 1), .missing]
  let s : Store := ⟨#[.list false (contents.map some), .record (Sample.properties ⟨0⟩)]⟩
  have h₁ : Reachable ⟨⟨#[.list false (contents.map some)]⟩, 1, [Sample.model]⟩ :=
    Sample.reachable.call (.list (by decide))
  have h₂ : Reachable ⟨s, 1, [Sample.model]⟩ := h₁.call (.record (by decide))
  let fields : Node := .list true [some (.number (.ofNat 1)), some .absent]
  let s' : Store := ⟨(s.nodes.push fields).push (.value Sample.node none ⟨2⟩)⟩
  have hmade : s.construct Sample.model "node" none (.positional contents) = .ok (⟨3⟩, s') := rfl
  let p : Plain := .record [("v", .number (.ofNat 1)), ("next", .missing)]
  let p' : Plain := .record [("v", .number (.ofNat 1)), ("next", .null)]
  have hne : p ≠ p' := by simp [p, p']
  exact ⟨⟨s, 1, [Sample.model]⟩, ⟨3⟩, s', Built.shape ⟨Sample.node, none, contents⟩,
    Built.shape ⟨Sample.node, none, [.number (.ofNat 1), .absent]⟩, p, p', h₂,
    List.mem_singleton.mpr rfl, rfl, rfl, rfl, rfl, hmade, rfl, rfl, rfl, rfl, rfl, rfl, hne⟩

end Session

end Schemata
