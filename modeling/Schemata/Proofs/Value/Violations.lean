import Schemata.Proofs.Value.Deciding
import Schemata.Proofs.Value.Faults

/-!
# The first violation

A check begins at a datum of which a type is asked. From there it goes to the contents of values, of
which their fields ask something, and to the items of lists, of which the type is asked that is
asked of the list (`Spot.Part`, `Spot.Leads`); in a hole there is no item. At each spot a few things
can be wrong (`Spot.Violates`), which depends on the values that one is inside of but not on what
the contents are.

The check reports the first of all violations (`Spot.findsFirst`), so whatever comes before it, and
is not around it, conforms (`Spot.conforms_of_precedes`).
-/

namespace Schemata

/-- A datum, and a field that says what is asked of it. -/
@[ext]
structure Spot where
  field : Field
  datum : Datum

namespace Spot

/-! ## Spots and the ways to them -/

/-- A datum of which a type is asked. -/
def ofType (type : TypeRef) (d : Datum) : Spot := ⟨⟨"", 0, type, .single, false, default⟩, d⟩

/-- An item of the list that stands at a spot. -/
def item (p : Spot) (d : Datum) : Spot := ⟨{ p.field with multiplicity := .single }, d⟩

/-- An element is asked for: neither a list nor, if there is nothing, an optional content. -/
structure Asks (s : Store) (p : Spot) : Prop where
  ne_repeated : p.field.multiplicity ≠ .repeated
  present : p.field.multiplicity = .optional → s.isEmpty p.datum = false

/-- What stands there counts as a value, and it says that it is of the type that is asked for. -/
structure Claims (s : Store) (p : Spot) (v : ValueView) (t : TypeDef) : Prop where
  asks : p.Asks s
  asked : p.field.type = .declared t.key
  view : s.view? p.datum = some v
  type : v.type = .typeDef t
  kind : t.kind = v.kind

/-- What stands there is a value of the type that is asked for, and not one made by construction:
the contents of its declared fields are checked. -/
structure Opens (s : Store) (p : Spot) (r : Ref) (v : ValueView) (declared : List Field) : Prop where
  claims : ∃ t, p.Claims s v t ∧ v.IsOf t declared
  datum : p.datum = .object r
  made : Check.isBuilt s r = false

/-- What comes next inside of a spot, a content or an item: with the value that is entered, if any,
the number and the step that lead to it, and the list and the index at which it stands. -/
inductive Part (s : Store) (p : Spot) : List Ref → ℕ → PathStep → Ref → ℕ → Spot → Prop
  | field {r l : Ref} {v : ValueView} {declared : List Field} {k : ℕ} {f : Field} :
    p.Opens s r v declared → s.property? (.object r) "fields" = some (.object l) →
    declared[k]? = some f → p.Part s [r] k (.field f.name) l f.index ⟨f, contentAt v.fields f.index⟩
  | item {l : Ref} {items : List (Option Datum)} {i : ℕ} {e : Datum} :
    p.field.multiplicity = .repeated → p.datum = .object l → s.list? (.object l) = some items →
    items[i]? = some (some e) → p.Part s [] i (.item i) l i (p.item e)

/-- The way from one spot to another one inside of it: numbers, steps, and the values that are
entered, innermost first. -/
inductive Leads (s : Store) : Spot → List ℕ → List PathStep → List Ref → Spot → Prop
  | here (p : Spot) : Leads s p [] [] [] p
  | step {p q q' : Spot} {entered inside : List Ref} {k i : ℕ} {step : PathStep} {l : Ref}
      {way : List ℕ} {steps : List PathStep} :
    p.Part s entered k step l i q → q.Leads s way steps inside q' →
    p.Leads s (k :: way) (step :: steps) (inside ++ entered) q'

/-! ## Violations -/

/-- What stands there is not what is asked for, whatever its contents are. The values that one is
inside of must not be entered again. -/
inductive Violates (s : Store) (inside : List Ref) (p : Spot) : Mismatch → Prop
  | list : p.field.multiplicity = .repeated → s.list? p.datum = none →
    p.Violates s inside (.expected p.field.describe (s.describe p.datum))
  | primitive {type : Primitive} : p.Asks s → p.field.type = .primitive type →
    type.accepts p.datum = false →
    p.Violates s inside (.expected type.name (s.describe p.datum))
  | type {key : TypeKey} : p.Asks s → p.field.type = .declared key → (∀ v t, ¬ p.Claims s v t) →
    p.Violates s inside (.expected key.name (s.describe p.datum))
  | constructor {v : ValueView} {t : TypeDef} {cs : List Constructor} {attributes : List Field} :
    p.Claims s v t → t.shape = .sum cs attributes → (∀ c ∈ cs, v.constructor ≠ .constructor c) →
    p.Violates s inside (.foreignConstructor t.name)
  | tag {v : ValueView} {t : TypeDef} {cs : List Constructor} {attributes : List Field}
      {c : Constructor} :
    p.Claims s v t → t.shape = .sum cs attributes → v.constructor = .constructor c → c ∈ cs →
    v.tag.isNat c.tag = false →
    p.Violates s inside (.wrongTag (s.display v.tag) c.name c.tag)
  | inside {r : Ref} {v : ValueView} {declared : List Field} {label : String} :
    p.Opens s r v declared → s.label v = .text label → r ∈ inside →
    p.Violates s inside (.containsItself label)
  | count {r : Ref} {v : ValueView} {declared : List Field} {label : String} :
    p.Opens s r v declared → s.label v = .text label → r ∉ inside →
    v.fields.length ≠ declared.length →
    p.Violates s inside (.fieldCount label v.fields.length declared.length)

/-- What stands there conforms: it has elements, and these are of the type that is asked for. -/
def Conforms (s : Store) (p : Spot) : Prop :=
  ∃ ds, s.elements? p.field p.datum = some ds ∧
    ∀ e ∈ ds, s.Conforms (Check.isBuilt s) p.field.type e

variable {s : Store} {p p' q q' : Spot} {inside inside' entered : List Ref} {r l : Ref}
  {v v' : ValueView} {t : TypeDef} {declared declared' : List Field} {cause cause' : Mismatch}
  {room k i : ℕ} {step : PathStep} {way way' : List ℕ} {steps steps' : List PathStep} {place : Path}
  {report : Path → MismatchError}

theorem Claims.unique (h : p.Claims s v t) {t' : TypeDef} (h' : p.Claims s v' t') :
    v' = v ∧ t' = t := by
  obtain rfl := Option.some.inj (h.view.symm.trans h'.view)
  exact ⟨rfl, Datum.typeDef.inj (h'.type.symm.trans h.type)⟩

theorem Opens.asks (h : p.Opens s r v declared) : p.Asks s := by
  obtain ⟨t, ht, -⟩ := h.claims
  exact ht.asks

theorem Opens.unique (h : p.Opens s r v declared) {r' : Ref} (h' : p.Opens s r' v' declared') :
    r' = r ∧ v' = v ∧ declared' = declared := by
  obtain ⟨t, ht, hof⟩ := h.claims
  obtain ⟨t', ht', hof'⟩ := h'.claims
  obtain ⟨rfl, rfl⟩ := ht.unique ht'
  exact ⟨Datum.object.inj (h'.datum.symm.trans h.datum), rfl, (hof'.unique hof).2⟩

/-- The contents of a value that is opened stand in a list. -/
theorem Opens.exists_list (h : p.Opens s r v declared) :
    ∃ l items, s.property? (.object r) "fields" = some (.object l) ∧
      s.list? (.object l) = some items ∧ v.fields = readItems items := by
  obtain ⟨t, ht, -⟩ := h.claims
  have hview := ht.view
  rw [h.datum] at hview
  unfold Store.view? at hview
  split at hview
  next hnode =>
    have hbuilt : Check.isBuilt s r = true := Check.isBuilt_eq_true.mpr ⟨_, _, _, hnode⟩
    rw [h.made] at hbuilt
    cases hbuilt
  next properties hnode =>
    obtain ⟨-, list, items, hlist, hitems, hfields⟩ := Store.of_recordView? hview
    cases list with
    | object l =>
      refine ⟨l, items, ?_, hitems, hfields⟩
      simp only [Store.property?, hnode, hlist]
    | _ => cases hitems
  next => cases hview

theorem Leads.append (h : p.Leads s way steps inside q) (h' : q.Leads s way' steps' inside' q') :
    p.Leads s (way ++ way') (steps ++ steps') (inside' ++ inside) q' := by
  induction h with
  | here p => simpa using h'
  | step hpart _ ih =>
    rw [← List.append_assoc]
    exact .step hpart (ih h')

/-- Inside of more values there are no fewer violations. -/
theorem Violates.exists_of_subset (h : p.Violates s inside cause) (hsubset : inside ⊆ inside') :
    ∃ cause', p.Violates s inside' cause' := by
  cases h with
  | list hm hlist => exact ⟨_, .list hm hlist⟩
  | primitive hp htype hd => exact ⟨_, .primitive hp htype hd⟩
  | type hp htype hnone => exact ⟨_, .type hp htype hnone⟩
  | constructor hp hshape hc => exact ⟨_, .constructor hp hshape hc⟩
  | tag hp hshape hc hmem htag => exact ⟨_, .tag hp hshape hc hmem htag⟩
  | inside hp hlabel hr => exact ⟨_, .inside hp hlabel (hsubset hr)⟩
  | @count r _ _ _ hp hlabel _ hlength =>
    by_cases hr : r ∈ inside'
    · exact ⟨_, .inside hp hlabel hr⟩
    · exact ⟨_, .count hp hlabel hr hlength⟩

/-- Something is wrong with an element that is asked for, or there is no list where one is. -/
theorem Violates.asks_or (h : p.Violates s inside cause) :
    p.Asks s ∨ p.field.multiplicity = .repeated ∧ s.list? p.datum = none := by
  cases h with
  | list hm hlist => exact .inr ⟨hm, hlist⟩
  | primitive hp | type hp => exact .inl hp
  | constructor ht | tag ht => exact .inl ht.asks
  | inside ho | count ho => exact .inl ho.asks

/-- Nothing is wrong at a value that is opened, if it is not inside of itself and has as many
contents as there are declared fields. -/
theorem Opens.not_violates (h : p.Opens s r v declared) (hinside : r ∉ inside)
    (hlength : v.fields.length = declared.length) : ¬ p.Violates s inside cause := by
  intro hcause
  have hasks := h.asks
  obtain ⟨t, ht, hof⟩ := h.claims
  cases hcause with
  | list hm => exact hasks.ne_repeated hm
  | primitive _ htype => cases ht.asked.symm.trans htype
  | type _ htype hclaims => exact hclaims v t ht
  | constructor ht' hshape hforeign =>
    obtain ⟨rfl, rfl⟩ := ht.unique ht'
    cases hof with
    | product _ _ hshape' => cases hshape.symm.trans hshape'
    | sum _ _ hshape' hc hmem _ =>
      obtain ⟨rfl, -⟩ := TypeShape.sum.inj (hshape.symm.trans hshape')
      exact hforeign _ hmem hc
  | tag ht' hshape hc hmem htag =>
    obtain ⟨rfl, rfl⟩ := ht.unique ht'
    cases hof with
    | product _ _ hshape' => cases hshape.symm.trans hshape'
    | sum _ _ _ hc' _ htag' =>
      obtain rfl := Datum.constructor.inj (hc.symm.trans hc')
      exact absurd htag' (Bool.eq_false_iff.mp htag)
  | inside h' _ hr => exact hinside ((h.unique h').1 ▸ hr)
  | count h' _ _ hlength' =>
    obtain ⟨rfl, rfl, rfl⟩ := h.unique h'
    exact hlength' hlength

/-! ## The check at a spot -/

/-- The check of what stands at a spot. -/
def check (s : Store) (room : ℕ) (inside : List Ref) (p : Spot) (place : Path) : Check.Verdict :=
  Check.field s (Check.elementTrusting s (Check.isBuilt s) room inside) p.field p.datum place

theorem Asks.check_eq (h : p.Asks s) : p.check s room inside place =
    Check.elementTrusting s (Check.isBuilt s) room inside p.field.type p.datum place := by
  unfold check Check.field
  cases hm : p.field.multiplicity with
  | single => rfl
  | optional => exact if_neg (by rw [h.present hm]; exact Bool.false_ne_true)
  | repeated => exact absurd hm h.ne_repeated

/-- The outline of a value that is opened. -/
theorem Opens.exists_outline (h : p.Opens s r v declared) {label : String}
    (hlabel : s.label v = .text label) (place : Path) : ∃ key, p.field.type = .declared key ∧
      Check.outline s key (.object r) place = .ok ⟨v.kind, label, declared, v.fields⟩ := by
  obtain ⟨t, ht, hof⟩ := h.claims
  obtain ⟨label', hlabel', hshape⟩ := Check.exists_outline ht.view hof place
  obtain rfl := Datum.text.inj (hlabel.symm.trans hlabel')
  exact ⟨t.key, ht.asked, h.datum ▸ hshape⟩

theorem Claims.outline_eq (h : p.Claims s v t) {cs : List Constructor} {attributes : List Field}
    (hshape : t.shape = .sum cs attributes) : Check.outline s t.key p.datum place =
      (Check.constructor s t v place).bind fun c => .ok ⟨.sum, c.name, c.fields, v.fields⟩ := by
  unfold Check.outline
  simp only [h.view, h.type, true_and, if_pos h.kind, hshape]
  rfl

theorem outline_of_not_claims {key : TypeKey} (hp : p.Asks s) (htype : p.field.type = .declared key)
    (h : ∀ v t, ¬ p.Claims s v t) : Check.outline s key p.datum place =
      .error ⟨.expected key.name (s.describe p.datum), place⟩ := by
  unfold Check.outline
  cases hview : s.view? p.datum with
  | none => rfl
  | some v =>
    cases hv : v.type with
    | typeDef t =>
      simp only [hv]
      refine if_neg ?_
      rintro ⟨rfl, hkind⟩
      exact h v t ⟨hp, htype, hview, hv, hkind⟩
    | _ => simp only [hv]

theorem constructor_foreign (h : ∀ c ∈ t.constructors, v.constructor ≠ .constructor c) :
    Check.constructor s t v place = .error ⟨.foreignConstructor t.name, place⟩ := by
  unfold Check.constructor
  split
  next c hc => exact if_neg fun hmem => h c hmem hc
  next => rfl

/-- What violates its requirement is reported. -/
theorem Violates.check_eq (h : p.Violates s inside cause) :
    p.check s room inside place = .error ⟨cause, place⟩ := by
  cases h with
  | list hm hlist =>
    unfold check Check.field
    simp only [hm, hlist]
    rfl
  | primitive hp htype hd =>
    rw [hp.check_eq, htype, Check.elementTrusting_primitive, hd]
    rfl
  | type hp htype hnone =>
    rw [hp.check_eq, htype]
    exact Check.elementTrusting_error (outline_of_not_claims hp htype hnone)
  | constructor hp hshape hc =>
    rw [hp.asks.check_eq, hp.asked]
    refine Check.elementTrusting_error ?_
    rw [hp.outline_eq hshape, constructor_foreign (by rwa [TypeDef.constructors, hshape])]
    rfl
  | tag hp hshape hc hmem htag =>
    rw [hp.asks.check_eq, hp.asked]
    refine Check.elementTrusting_error ?_
    rw [hp.outline_eq hshape, Check.constructor, hc]
    simp only [TypeDef.constructors, hshape, if_pos hmem, htag]
    rfl
  | inside hp hlabel hr =>
    obtain ⟨key, htype, hshape⟩ := hp.exists_outline hlabel place
    rw [hp.asks.check_eq, htype, hp.datum, Check.elementTrusting_object hshape, hp.made, if_pos hr]
    rfl
  | count hp hlabel hr hlength =>
    obtain ⟨key, htype, hshape⟩ := hp.exists_outline hlabel place
    rw [hp.asks.check_eq, htype, hp.datum, Check.elementTrusting_object hshape, hp.made, if_neg hr,
      if_pos hlength]
    rfl

/-- One thing at most is wrong at a spot. -/
theorem Violates.unique (h : p.Violates s inside cause) (h' : p.Violates s inside cause') :
    cause = cause' := by
  have hcheck : p.check s 0 inside (.ofRoot "") = .error ⟨cause, .ofRoot ""⟩ := h.check_eq
  have hcheck' : p.check s 0 inside (.ofRoot "") = .error ⟨cause', .ofRoot ""⟩ := h'.check_eq
  exact congrArg MismatchError.cause (Except.error.inj (hcheck.symm.trans hcheck'))

/-- Where a declared type is asked for and nothing is wrong, there is a value of this type. -/
theorem exists_isOf_of_not_violates {key : TypeKey} (hp : p.Asks s)
    (htype : p.field.type = .declared key) (h : ∀ cause, ¬ p.Violates s inside cause) :
    ∃ v t declared, p.Claims s v t ∧ v.IsOf t declared := by
  have hclaims : ∃ v t, p.Claims s v t := by
    by_contra hnone
    push Not at hnone
    exact h _ (.type hp htype hnone)
  obtain ⟨v, t, ht⟩ := hclaims
  cases hshape : t.shape with
  | product declared =>
    have hkind : v.kind = .product := by rw [← ht.kind, TypeDef.kind, hshape, TypeShape.kind]
    exact ⟨v, t, declared, ht, .product ht.type hkind hshape⟩
  | sum cs attributes =>
    have hkind : v.kind = .sum := by rw [← ht.kind, TypeDef.kind, hshape, TypeShape.kind]
    have hown : ∃ c ∈ cs, v.constructor = .constructor c := by
      by_contra hforeign
      push Not at hforeign
      exact h _ (.constructor ht hshape hforeign)
    obtain ⟨c, hmem, hc⟩ := hown
    have htag : v.tag.isNat c.tag = true := by
      by_contra htag
      exact h _ (.tag ht hshape hc hmem (Bool.eq_false_iff.mpr htag))
    exact ⟨v, t, c.fields, ht, .sum ht.type hkind hshape hc hmem htag⟩

/-! ## The check finds the first violation -/

/-- Violations at a spot and at those inside of it, given the values that one is inside of. -/
def faults (s : Store) (inside : List Ref) (p : Spot) : Faults MismatchError :=
  fun way steps report => ∃ more q cause, p.Leads s way steps more q ∧
    q.Violates s (more ++ inside) cause ∧ report = fun place => ⟨cause, place⟩

theorem faults_iff : p.faults s inside way steps report ↔
    (way = [] ∧ steps = [] ∧ ∃ cause, p.Violates s inside cause ∧
      report = fun place => ⟨cause, place⟩) ∨
    ∃ entered k step l i q way' steps', p.Part s entered k step l i q ∧ way = k :: way' ∧
      steps = step :: steps' ∧ q.faults s (entered ++ inside) way' steps' report := by
  constructor
  · rintro ⟨more, q, cause, hway, hcause, hreport⟩
    cases hway with
    | here p => exact .inl ⟨rfl, rfl, cause, hcause, hreport⟩
    | step hpart hway =>
      rw [List.append_assoc] at hcause
      exact .inr ⟨_, _, _, _, _, _, _, _, hpart, rfl, rfl, _, q, cause, hway, hcause, hreport⟩
  · rintro (⟨rfl, rfl, cause, hcause, hreport⟩ |
      ⟨entered, k, step, l, i, q, way', steps', hpart, rfl, rfl, more, q', cause, hway, hcause,
        hreport⟩)
    · exact ⟨[], p, cause, .here p, hcause, hreport⟩
    · refine ⟨more ++ entered, q', cause, .step hpart hway, ?_, hreport⟩
      rwa [List.append_assoc]

theorem Violates.findsFirst (h : p.Violates s inside cause) :
    (p.faults s inside).FindsFirst place (.error ⟨cause, place⟩ : Check.Verdict) := by
  refine ⟨[], [], fun place => ⟨cause, place⟩, ⟨[], p, cause, .here p, h, rfl⟩, ?_,
    fun _ _ _ _ => .around⟩
  rw [Path.along_nil]

theorem not_faults (hviolates : ∀ cause, ¬ p.Violates s inside cause)
    (hpart : ∀ entered k step l i q, ¬ p.Part s entered k step l i q) :
    ¬ p.faults s inside way steps report := by
  rw [faults_iff]
  rintro (⟨-, -, cause, hcause, -⟩ | ⟨_, _, _, _, _, _, _, _, hq, -⟩)
  · exact hviolates cause hcause
  · exact hpart _ _ _ _ _ _ hq

theorem not_faults_of_not_opens (hp : p.Asks s) (hviolates : ∀ cause, ¬ p.Violates s inside cause)
    (hopens : ∀ r v declared, ¬ p.Opens s r v declared) :
    ¬ p.faults s inside way steps report := by
  refine not_faults hviolates fun _ _ _ _ _ _ hpart => ?_
  cases hpart with
  | field ho => exact hopens _ _ _ ho
  | item hm => exact hp.ne_repeated hm

/-- Violations at a value that is opened, and with which nothing is wrong itself, are those at its
contents. -/
theorem Opens.faults_iff (h : p.Opens s r v declared) (hinside : r ∉ inside)
    (hlength : v.fields.length = declared.length) : p.faults s inside way steps report ↔
      Faults.among (fun _ f => .field f.name)
        (fun f => faults s (r :: inside) ⟨f, contentAt v.fields f.index⟩) 0 declared
        way steps report := by
  obtain ⟨l, -, hl, -⟩ := h.exists_list
  rw [Spot.faults_iff]
  constructor
  · rintro (⟨-, -, cause, hcause, -⟩ |
      ⟨entered, k, step, l, i, q, way', steps', hpart, rfl, rfl, hq⟩)
    · exact absurd hcause (h.not_violates hinside hlength)
    · cases hpart with
      | field h' _ hk =>
        obtain ⟨rfl, rfl, rfl⟩ := h.unique h'
        exact ⟨k, _, way', steps', hk, by simp, rfl, hq⟩
      | item hm => exact absurd hm h.asks.ne_repeated
  · rintro ⟨k, f, way', steps', hk, rfl, rfl, hq⟩
    exact .inr ⟨_, _, _, _, _, _, _, _, .field h hl hk, by simp, rfl, hq⟩

/-- Those at a list that is asked for are those at its items. -/
theorem faults_iff_of_list? {items : List (Option Datum)} (hm : p.field.multiplicity = .repeated)
    (hitems : s.list? p.datum = some items) : p.faults s inside way steps report ↔
      Faults.among (fun i _ => .item i) (Faults.ofItem fun e => faults s inside (p.item e)) 0 items
        way steps report := by
  rw [Spot.faults_iff]
  constructor
  · rintro (⟨-, -, cause, hcause, -⟩ |
      ⟨entered, k, step, l, i, q, way', steps', hpart, rfl, rfl, hq⟩)
    · rcases hcause.asks_or with hasks | ⟨-, hlist⟩
      · exact absurd hm hasks.ne_repeated
      · cases hitems.symm.trans hlist
    · cases hpart with
      | field h => exact absurd hm h.asks.ne_repeated
      | item _ hd hlist hk =>
        obtain rfl := Option.some.inj (hitems.symm.trans (hd ▸ hlist))
        exact ⟨k, _, way', steps', hk, by simp, by simp, hq⟩
  · rintro ⟨k, _ | e, way', steps', hk, rfl, rfl, hq⟩
    · exact hq.elim
    obtain ⟨l, hl⟩ : ∃ l, p.datum = .object l := by
      cases hd : p.datum with
      | object l => exact ⟨l, rfl⟩
      | _ => rw [hd] at hitems; cases hitems
    exact .inr ⟨_, _, _, _, _, _, _, _, .item hm hl (hl ▸ hitems) hk, by simp, by simp, hq⟩

theorem items_findsFirst {faults : Datum → Faults MismatchError} {items : List (Option Datum)}
    {index : ℕ} {element : Datum → Path → Check.Verdict}
    (h : ∀ d place, (faults d).FindsFirst place (element d place)) :
    (Faults.among (fun i _ => .item i) (Faults.ofItem faults) index items).FindsFirst place
      (Check.items element place index items) := by
  induction items generalizing index with
  | nil => exact .nil ()
  | cons item items ih =>
    cases item with
    | none => exact .cons_none ih
    | some d => exact .cons (h d (place.item index)) fun _ _ => ih

theorem fields_findsFirst {faults : Field → Faults MismatchError} {fs : List Field} {k : ℕ}
    {element : TypeRef → Datum → Path → Check.Verdict} {contents : List Datum}
    (h : ∀ f ∈ fs, ∀ place, (faults f).FindsFirst place
      (Check.field s element f (contentAt contents f.index) place)) :
    (Faults.among (fun _ f => .field f.name) faults k fs).FindsFirst place
      (Check.fields s element contents place fs) := by
  induction fs generalizing k with
  | nil => exact .nil ()
  | cons f fs ih =>
    obtain ⟨hf, hfs⟩ := List.forall_mem_cons.mp h
    exact .cons (hf (place.field f.name)) fun _ _ => ih hfs

/-- An element, given what is known of the contents of a value that is entered. -/
theorem element_findsFirst (hp : p.Asks s) (hroom : Check.Ample s room inside)
    (h : ∀ less r, room = less + 1 → Check.Ample s less (r :: inside) → ∀ q place,
      (faults s (r :: inside) q).FindsFirst place (q.check s less (r :: inside) place)) :
    (p.faults s inside).FindsFirst place (p.check s room inside place) := by
  by_cases hviolates : ∃ cause, p.Violates s inside cause
  · obtain ⟨cause, hcause⟩ := hviolates
    rw [hcause.check_eq]
    exact hcause.findsFirst
  push Not at hviolates
  rw [hp.check_eq]
  cases htype : p.field.type with
  | primitive type =>
    have hd : type.accepts p.datum = true := by
      by_contra hd
      exact hviolates _ (.primitive hp htype (Bool.eq_false_iff.mpr hd))
    rw [Check.elementTrusting_primitive, if_pos hd]
    refine fun _ _ _ => not_faults_of_not_opens hp hviolates fun _ _ _ hopens => ?_
    obtain ⟨t, ht, -⟩ := hopens.claims
    cases htype.symm.trans ht.asked
  | declared key =>
    obtain ⟨v, t, declared, ht, hof⟩ := exists_isOf_of_not_violates hp htype hviolates
    obtain ⟨label, hlabel, hshape⟩ := Check.exists_outline ht.view hof place
    obtain ⟨r, hd, hbound⟩ := Store.eq_object_of_view? ht.view
    obtain rfl := TypeRef.declared.inj (ht.asked.symm.trans htype)
    rw [hd] at hshape ⊢
    rw [Check.elementTrusting_object hshape]
    cases hr : Check.isBuilt s r with
    | true =>
      rw [if_pos rfl]
      refine fun _ _ _ => not_faults_of_not_opens hp hviolates fun _ _ _ hopens => ?_
      obtain rfl := Datum.object.inj (hd.symm.trans hopens.datum)
      cases hr.symm.trans hopens.made
    | false =>
      have hopens : p.Opens s r v declared := ⟨⟨t, ht, hof⟩, hd, hr⟩
      have hinside : r ∉ inside := fun hmem => hviolates _ (.inside hopens hlabel hmem)
      have hlength : v.fields.length = declared.length := by
        by_contra hne
        exact hviolates _ (.count hopens hlabel hinside hne)
      rw [if_neg Bool.false_ne_true, if_neg hinside, if_neg (not_not.mpr hlength)]
      cases room with
      | zero => exact absurd (hroom.mem hbound) hinside
      | succ room =>
        refine Faults.FindsFirst.congr (fields_findsFirst fun f _ place => ?_)
          fun _ _ _ => hopens.faults_iff hinside hlength
        exact h room r rfl (hroom.enter hbound hinside) ⟨f, contentAt v.fields f.index⟩ place

/-- The check of what stands at a spot finds the first violation there is. -/
theorem findsFirst (p : Spot) (place : Path) (hroom : Check.Ample s room inside) :
    (p.faults s inside).FindsFirst place (p.check s room inside place) := by
  induction room using Nat.strongRecOn generalizing p inside place with
  | ind room ih =>
    have helement (q : Spot) (hq : q.Asks s) (place : Path) :
        (q.faults s inside).FindsFirst place (q.check s room inside place) :=
      element_findsFirst hq hroom fun less r hless hample q' place =>
        ih less (by omega) q' place hample
    cases hm : p.field.multiplicity with
    | single => exact helement p ⟨by simp [hm], by simp [hm]⟩ place
    | optional =>
      cases hempty : s.isEmpty p.datum with
      | false => exact helement p ⟨by simp [hm], fun _ => hempty⟩ place
      | true =>
        -- nothing is asked of a content that is left out
        have hnot : ¬ p.Asks s := fun hp => by simpa [hempty] using hp.present hm
        have hcheck : p.check s room inside place = .ok () := by
          simp only [check, Check.field, hm, hempty, if_true]
        rw [hcheck]
        refine fun _ _ _ => not_faults (fun cause hcause => hnot ?_) fun _ _ _ _ _ _ hpart => hnot ?_
        · exact hcause.asks_or.resolve_right fun hlist => by cases hm.symm.trans hlist.1
        · cases hpart with
          | field h => exact h.asks
          | item hm' => cases hm.symm.trans hm'
    | repeated =>
      cases hlist : s.list? p.datum with
      | none =>
        have hcause : p.Violates s inside _ := .list hm hlist
        rw [hcause.check_eq]
        exact hcause.findsFirst
      | some items =>
        have hcheck : p.check s room inside place = Check.items
            (fun e place => (p.item e).check s room inside place) place 0 items := by
          simp only [check, Check.field, hm, hlist]
          rfl
        rw [hcheck]
        refine Faults.FindsFirst.congr (items_findsFirst fun e place => ?_)
          fun _ _ _ => faults_iff_of_list? hm hlist
        exact helement (p.item e) ⟨by simp [item], by simp [item]⟩ place

/-- What is checked without an error conforms. -/
theorem conforms_of_check (h : p.check s room inside place = .ok ()) : p.Conforms s := by
  obtain ⟨ds, hds, hall⟩ := Check.of_field_eq_ok h
  refine ⟨ds, hds, fun e he => ?_⟩
  obtain ⟨place, hplace⟩ := hall e he
  exact Check.conforms_of_elementTrusting hplace

/-- What is read before the first violation, and is not around it, conforms. -/
theorem conforms_of_precedes (hway : p.Leads s way' steps' inside' q) (hprecedes : Precedes way' way)
    (hbegins : ¬ way' <+: way)
    (hfirst : ∀ way' steps' report, p.faults s [] way' steps' report → Precedes way way') :
    q.Conforms s := by
  have hfinds := q.findsFirst (.ofRoot "") (.start s)
  cases hcheck : q.check s s.size [] (.ofRoot "") with
  | ok => exact conforms_of_check hcheck
  | error e =>
    rw [hcheck] at hfinds
    obtain ⟨more, steps'', _, ⟨inside'', q', cause, hmore, hcause, -⟩, -⟩ := hfinds
    obtain ⟨cause', hcause'⟩ : ∃ cause', q'.Violates s ((inside'' ++ inside') ++ []) cause' :=
      hcause.exists_of_subset (by simp)
    have hfault : p.faults s [] (way' ++ more) _ _ :=
      ⟨_, q', cause', hway.append hmore, hcause', rfl⟩
    exact absurd (hfirst _ _ _ hfault) (hprecedes.not_append hbegins more)

end Spot

end Schemata
