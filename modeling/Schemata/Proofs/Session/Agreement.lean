import Schemata.Proofs.Session.Validity

/-!
# Construction and check agree

A value can be made from contents by construction, or the contents can be put into a plain object
with the properties of a value and that be checked (`Store.HandBuilt`). Construction looks at each
content by itself, in order; the check looks up contents by the numbers of the fields, and is inside
of the plain object then. As fields are numbered by their places, both come to the same contents
(`Construct.positional_verdict`), and being inside of the object makes a difference only where a
content leads back to it (`Check.elementTrusting_inside`). So one succeeds exactly if the other
does, and both report the same violation in the same words (`Session.Reachable.construct_agrees`).
-/

namespace Schemata

variable {s : Store} {r : Ref} {b : Built} {t : TypeDef} {c : Option Constructor} {xs : List Datum}
  {place : Path}

/-! ## Plain objects with the properties of a value -/

/-- At `r` is a plain object with the properties that a value made by construction would have: the
kind of its type, the type, for a sum the constructor and its tag, and the contents as fields. -/
def Store.HandBuilt (s : Store) (r : Ref) (b : Built) : Prop :=
  ∃ properties, s.get? r = some (.record properties) ∧ s.recordView? properties = some b.view

namespace Store.HandBuilt

theorem view? (h : s.HandBuilt r b) : s.view? (.object r) = some b.view := by
  obtain ⟨properties, hr, hview⟩ := h
  simp only [Store.view?, node?, hr, hview]

theorem isBuilt (h : s.HandBuilt r b) : Check.isBuilt s r = false := by
  obtain ⟨properties, hr, -⟩ := h
  simp only [Check.isBuilt, hr]

theorem rootLabel (h : s.HandBuilt r b) (type : TypeRef) :
    s.rootLabel type (.object r) = .text (Construct.label b.type b.constructor) := by
  rw [Store.rootLabel, h.view?]
  obtain ⟨t, c, fields⟩ := b
  cases c <;> rfl

theorem rootPlace (h : s.HandBuilt r b) (type : TypeRef) :
    s.rootPlace type (.object r) = .ofRoot (Construct.label b.type b.constructor) := by
  rw [Store.rootPlace, h.rootLabel]
  rfl

/-- A violation is reported with the root of its place as the label. -/
theorem validate_eq (h : s.HandBuilt r b) {type : TypeRef} {e : MismatchError}
    (hcheck : s.check type (.object r) = .error e) :
    s.validate type (.object r) = (s.rejection? (.text e.place.root) e).elim .raised .invalid := by
  obtain ⟨_, steps, _, _, -, -, hplace, -⟩ := check_eq_error hcheck
  have hroot : s.rootLabel type (.object r) = .text e.place.root := by
    rw [hplace, h.rootLabel, h.rootPlace]
    rfl
  rw [validate, hcheck, hroot]
  dsimp only
  cases s.rejection? (.text e.place.root) e <;> rfl

/-- The check looks at the contents, being inside of the object. -/
theorem check_eq (h : s.HandBuilt r ⟨t, c, xs⟩) (hc : t.Alternative c)
    (hlength : xs.length = (Construct.declared t c).length) :
    ∃ room, Check.Ample s room [r] ∧ s.check (.declared t.key) (.object r) =
      Check.fields s (Check.elementTrusting s (Check.isBuilt s) room [r]) xs
        (.ofRoot (Construct.label t c)) (Construct.declared t c) := by
  obtain ⟨shape, hshape, hdeclared, hcontents⟩ :=
    Check.exists_outline_eq_ok h.view? (hc.isOf xs) (.ofRoot (Construct.label t c))
  rw [Built.view_fields] at hcontents
  obtain ⟨_, ⟨⟩, hbound⟩ := eq_object_of_view? h.view?
  have hroom : ∃ room, s.size = room + 1 := ⟨s.size - 1, by omega⟩
  obtain ⟨room, hroom⟩ := hroom
  refine ⟨room, (hroom ▸ Check.Ample.start s).enter hbound (by simp), ?_⟩
  rw [check_eq_elementTrusting s.size (Nat.le_refl _), h.rootPlace,
    Check.elementTrusting_object hshape, h.isBuilt, if_neg Bool.false_ne_true,
    if_neg (by simp), hcontents, hdeclared, if_neg (not_not.mpr hlength), hroom]

/-- The check accepts the object exactly if there is a content for each field and every content is
accepted by itself. -/
theorem check_eq_ok_iff (h : s.HandBuilt r ⟨t, c, xs⟩) (hc : t.Alternative c) (place : Path) :
    s.check (.declared t.key) (.object r) = .ok () ↔
      xs.length = (Construct.declared t c).length ∧
      Check.fields s (Check.element s s.size []) xs place (Construct.declared t c) = .ok () := by
  have hof : (Built.view ⟨t, c, xs⟩).IsOf t (Construct.declared t c) := hc.isOf xs
  have hfields : (Built.view ⟨t, c, xs⟩).fields = xs := Built.view_fields _
  rw [Store.check_eq_ok_iff]
  constructor
  · intro hconforms
    obtain ⟨v, t', declared, hv, ht, hlength, hsome, hall⟩ :=
      hconforms.entered_of_not_trusted h.isBuilt
    obtain rfl := Option.some.inj (h.view?.symm.trans hv)
    obtain ⟨-, rfl⟩ := hof.unique ht
    rw [hfields] at hlength hsome hall
    exact ⟨hlength, Check.fields_eq_ok hsome fun f hf ds hds e he _ =>
      Store.element_eq_ok_iff.mpr (hall f hf ds hds e he)⟩
  · rintro ⟨hlength, hok⟩
    have hall := Check.of_fields_eq_ok hok
    refine .entered h.view? hof (by rw [hfields, hlength]) (fun f hf => ?_)
      fun f hf ds hds e he => ?_
    · obtain ⟨ds, hds, -⟩ := hall f hf
      rw [hfields, hds]
      rfl
    · obtain ⟨ds', hds', helements⟩ := hall f hf
      rw [hfields, hds'] at hds
      obtain rfl := Option.some.inj hds
      obtain ⟨place, hplace⟩ := helements e he
      exact Store.element_eq_ok_iff.mp hplace

/-- Where no content leads back to the object, the check does to the contents what is done to each
of them by itself. -/
theorem check_eq_fields (h : s.HandBuilt r ⟨t, c, xs⟩) (hc : t.Alternative c)
    (hlength : xs.length = (Construct.declared t c).length)
    (hback : ∀ x ∈ xs, ¬s.Reaches x (.object r)) :
    s.check (.declared t.key) (.object r) =
      Check.fields s (Check.element s s.size []) xs (.ofRoot (Construct.label t c))
        (Construct.declared t c) := by
  obtain ⟨room, hroom, hcheck⟩ := h.check_eq hc hlength
  rw [hcheck, Check.element_eq_elementTrusting]
  refine Check.fields_congr fun f _ ds hds e he place =>
    Check.elementTrusting_inside hroom (.start s) fun a hway => ?_
  have hreach : s.Reaches (contentAt xs f.index) (.object a) :=
    (reaches_of_elements? hds he).trans (reaches_of_nests hway)
  have hne : a ≠ r := by
    rintro rfl
    rcases contentAt_mem_or xs f.index with hcontent | hmissing
    · exact hback _ hcontent hreach
    · rw [hmissing] at hreach
      exact not_reaches_of_ne_object (fun _ => by simp) a hreach
  simp [hne]

end Store.HandBuilt

/-! ## Contents in order -/

namespace Construct

/-- Contents that are checked one after the other are those that the check of fields looks up. -/
theorem positional_verdict (s : Store) (label : String) (xs : List Datum) {fs : List Field}
    {k : Nat} (hfs : fs.map Field.index = List.range' k fs.length) :
    (positional s label (xs.drop k) fs).map (fun _ => ()) =
      checked (Check.fields s (Check.element s s.size []) xs (.ofRoot label) fs) := by
  induction fs generalizing k with
  | nil => rfl
  | cons f fs ih =>
    rw [List.map_cons, List.length_cons, List.range'_succ, List.cons_eq_cons] at hfs
    obtain ⟨hindex, hfs⟩ := hfs
    have hhead : (xs.drop k).headD .missing = contentAt xs f.index := by
      rw [contentAt, hindex, List.headD_eq_head?_getD, List.head?_drop]
    have hrest := ih hfs
    rw [positional, Check.fields, List.tail_drop, hhead, Store.checkField]
    cases Check.field s (Check.element s s.size []) f (contentAt xs f.index)
        ((Path.ofRoot label).field f.name) with
    | error e => rfl
    | ok _ =>
      rw [Outcome.ok_bind, ← hrest]
      cases positional s label (xs.drop (k + 1)) fs <;> rfl

/-- Contents in order are as many as the fields, and are accepted as those of the fields are. -/
theorem contents_positional (s : Store) (label : String) {declared : List Field}
    (h : Field.Numbered declared) (hlength : xs.length = declared.length) :
    (contents s label declared (.positional xs)).map (fun _ => ()) =
      checked (Check.fields s (Check.element s s.size []) xs (.ofRoot label) declared) := by
  rw [contents, if_neg (not_not.mpr hlength)]
  have hrange : declared.map Field.index = List.range' 0 declared.length := by
    rw [h, List.range_eq_range']
  exact positional_verdict s label xs hrange

end Construct

/-- A construction with a type and a constructor that are there is decided by its contents. -/
theorem Store.construct_eq {m : Model} {typeName : String} {name : Option String}
    (ht : m.getType typeName = .ok t) (hc : Construct.constructor t name = .ok c)
    (inputs : Inputs) :
    (s.construct m typeName name inputs).map (fun _ => ()) =
      (Construct.contents s (Construct.label t c) (Construct.declared t c) inputs).map
        fun _ => () := by
  rw [construct_eq_map ht hc]
  cases Construct.contents s (Construct.label t c) (Construct.declared t c) inputs <;> rfl

theorem TypeDef.Alternative.numbered (hc : t.Alternative c) (ht : t.Numbered) :
    Field.Numbered (Construct.declared t c) :=
  (hc.isOf []).numbered ht

namespace Session

variable {σ : Session}

/-- Contents in order make a value of a type of a model exactly if the plain object with the
properties of this value is accepted by the check. If there is a content for each field and none
leads back to the object, both find the same violation at the same place, and what the check reports
of it is what the construction reports. -/
theorem Reachable.construct_agrees (h : σ.Reachable) {m : Model} (hm : m ∈ σ.models)
    {typeName : String} (ht : m.getType typeName = .ok t) {name : Option String}
    (hc : Construct.constructor t name = .ok c) (hr : σ.store.HandBuilt r ⟨t, c, xs⟩) :
    ((∃ made, σ.store.construct m typeName name (.positional xs) = .ok made) ↔
      σ.store.check (.declared t.key) (.object r) = .ok ()) ∧
    (xs.length = (Construct.declared t c).length →
      (∀ x ∈ xs, ¬σ.store.Reaches x (.object r)) →
      ∀ e, (σ.store.construct m typeName name (.positional xs) = .error (.mismatch e) ↔
          σ.store.check (.declared t.key) (.object r) = .error e) ∧
        (σ.store.construct m typeName name (.positional xs) = .error (.mismatch e) →
          σ.store.validate (.declared t.key) (.object r) =
            (σ.store.rejection? (.text e.place.root) e).elim .raised .invalid)) := by
  have halternative := TypeDef.Alternative.of_constructor_eq_ok hc
  have hnumbered := halternative.numbered
    (h.sound.numbered (mem_types hm (Model.mem_of_getType_eq_ok ht)))
  have hconstruct := Store.construct_eq (s := σ.store) ht hc (.positional xs)
  have hcheck := hr.check_eq_ok_iff halternative (.ofRoot (Construct.label t c))
  refine ⟨?_, fun hlength hback e => ?_⟩
  · rw [hcheck]
    by_cases hlength : xs.length = (Construct.declared t c).length
    · rw [Construct.contents_positional σ.store _ hnumbered hlength] at hconstruct
      rw [Outcome.exists_eq_ok_iff, hconstruct, Construct.checked_eq_ok]
      exact ⟨fun hok => ⟨hlength, hok⟩, fun hok => hok.2⟩
    · rw [Construct.contents, if_pos hlength] at hconstruct
      refine iff_of_false (fun hmade => ?_) fun hok => hlength hok.1
      rw [Outcome.exists_eq_ok_iff, hconstruct] at hmade
      cases hmade
  · have hsame : σ.store.construct m typeName name (.positional xs) = .error (.mismatch e) ↔
        σ.store.check (.declared t.key) (.object r) = .error e := by
      rw [Construct.contents_positional σ.store _ hnumbered hlength] at hconstruct
      rw [hr.check_eq_fields halternative hlength hback, ← Outcome.map_eq_error (f := fun _ => ()),
        hconstruct, Construct.checked_eq_error]
    exact ⟨hsame, fun hmade => hr.validate_eq (hsame.mp hmade)⟩

/-- A text where a number is declared: construction and check report it alike. -/
theorem Reachable.construct_agrees_node : ∃ σ : Session, ∃ e, σ.Reachable ∧
    σ.store.HandBuilt ⟨1⟩ ⟨Sample.node, none, [.text "x", .null]⟩ ∧
    σ.store.construct Sample.model "node" none (.positional [.text "x", .null]) =
      .error (.mismatch e) ∧
    σ.store.check (.declared Sample.node.key) (.object ⟨1⟩) = .error e ∧
    σ.store.validate (.declared Sample.node.key) (.object ⟨1⟩) =
      .invalid ⟨.text "node.v", "node.v: expected int, got string"⟩ := by
  let contents : List (Option Datum) := [some (.text "x"), some .null]
  let s : Store := ⟨#[.list false contents, .record (Sample.properties ⟨0⟩)]⟩
  have h₁ : Reachable ⟨⟨#[.list false contents]⟩, 1, [Sample.model]⟩ :=
    Sample.reachable.call (.list (by decide))
  have h₂ : Reachable ⟨s, 1, [Sample.model]⟩ := h₁.call (.record (by decide))
  have hr : s.HandBuilt ⟨1⟩ ⟨Sample.node, none, [.text "x", .null]⟩ := ⟨_, rfl, rfl⟩
  have hcheck : s.check (.declared Sample.node.key) (.object ⟨1⟩) =
      .error ⟨.expected "int" "string", ⟨"node", [.field "v"]⟩⟩ := rfl
  have hback : ∀ x ∈ [Datum.text "x", .null], ¬s.Reaches x (.object ⟨1⟩) := by
    intro x hx
    refine Store.not_reaches_of_ne_object (fun a heq => ?_) ⟨1⟩
    subst heq
    simp at hx
  have htype : Sample.model.getType "node" = .ok Sample.node := rfl
  have hconstructor : Construct.constructor Sample.node none = .ok none := rfl
  obtain ⟨-, hagree⟩ :=
    h₂.construct_agrees (List.mem_singleton.mpr rfl) htype hconstructor hr
  obtain ⟨hsame, hreport⟩ := hagree rfl hback ⟨.expected "int" "string", ⟨"node", [.field "v"]⟩⟩
  have hmade := hsame.mpr hcheck
  exact ⟨_, _, h₂, hr, hmade, hcheck, hreport hmade⟩

end Session

end Schemata
