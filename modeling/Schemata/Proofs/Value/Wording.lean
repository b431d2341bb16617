import Schemata.Proofs.Value.Revisions

/-!
# What is said of a violation

A validation ends with one of three outcomes: the datum is valid, a violation is reported, or the
violation that is found has no words (`Store.validate_eq_raised_iff`). Words are missing where they
speak of a plain object that has a property `toString`, or of a list with such an item. Where one
gets to no object of this kind all data have texts (`Store.display_isSome`), and each violation is
reported (`Store.validate_ne_raised`).

What is reported is the first violation (`Store.validate_eq_invalid`). The path in the report is a
text that begins with the label of the root, and the message begins with this text; only where the
label of the root is none, it is the path itself, and the message begins with it if it counts as
true (`Store.Reports`).
-/

namespace Schemata

theorem Path.text_ne_empty (root : String) (step : PathStep) (steps : List PathStep) :
    Path.text ⟨root, step :: steps⟩ ≠ "" := by
  have hstep : step.text ≠ "" := by
    cases step <;> simp [PathStep.text, String.append_eq_empty_iff]
  intro h
  rw [Path.text, List.map_cons, String.join_cons] at h
  exact hstep (String.append_eq_empty_iff.mp (String.append_eq_empty_iff.mp h).2).1

namespace Store

/-- One gets from the datum to no plain object that has a property by which it would give its
text. -/
def Displayable (s : Store) (d : Datum) : Prop :=
  ∀ r, s.Reaches d (.object r) → s.property? (.object r) textProperty = none

/-- The report of a violation, with the steps that lead to it from a root with the label, and the
words for it. Where the label is a text, the path is the text of the place; any other label is that
of a violation at the root, and the path itself. A path that counts as true stands in front of the
words. -/
structure Reports (s : Store) (label : Datum) (steps : List PathStep) (words : String)
    (report : Rejection) : Prop where
  path : ∀ root, label = .text root → report.path = .text (Path.text ⟨root, steps⟩)
  label : (∀ root, label ≠ .text root) →
    steps = [] ∧ (report.path = label ∨ label = .missing ∧ report.path = .text "")
  front : report.path.isTruthy = true →
    ∃ shown, s.display report.path = some shown ∧ report.message = shown ++ ": " ++ words
  bare : report.path.isTruthy = false → report.message = words

variable {s : Store} {type : TypeRef} {x d : Datum} {label : Datum} {e : MismatchError}
  {report : Rejection} {steps : List PathStep} {words : String}

theorem Displayable.within {y : Datum} (h : s.Displayable x) (hy : s.Within y x) : s.Displayable y :=
  fun r hr => h r (hy r hr)

/-! ## Texts of data -/

theorem display_text (s : Store) (t : String) : s.display (.text t) = some t := by
  unfold display displayWithin
  rfl

theorem displayItems_isSome {display : Datum → Option String} {items : List (Option Datum)}
    (h : ∀ d, some d ∈ items → (display d).isSome) : (displayItems display items).isSome := by
  have hitem (item : Option Datum) (hitem : item ∈ items) :
      ∃ text, displayItem display item = some text := by
    unfold displayItem
    split
    · exact ⟨_, rfl⟩
    · exact ⟨_, rfl⟩
    · exact ⟨_, rfl⟩
    · exact Option.isSome_iff_exists.mp (h _ hitem)
  obtain ⟨texts, htexts⟩ := Outcome.exists_mapM_eq_some hitem
  rw [displayItems, htexts]
  rfl

theorem displayWithin_isSome (h : s.Displayable d) (room : ℕ) (inside : List Ref) :
    (s.displayWithin room inside d).isSome := by
  induction room generalizing inside d with
  | zero =>
    cases d with
    | object r =>
      unfold displayWithin
      cases hlist : s.list? (.object r) with
      | none =>
        dsimp only
        rw [h r .refl]
        rfl
      | some items =>
        dsimp only
        split <;> rfl
    | _ => rfl
  | succ room ih =>
    cases d with
    | object r =>
      unfold displayWithin
      cases hlist : s.list? (.object r) with
      | none =>
        dsimp only
        rw [h r .refl]
        rfl
      | some items =>
        dsimp only
        split
        · rfl
        · refine displayItems_isSome fun e he => ih (h.within (.of_reaches (.single ?_))) _
          exact mentions_of_list? hlist he
    | _ => rfl

/-- Where no object gives its own text, a datum has one. -/
theorem display_isSome (h : s.Displayable d) : (s.display d).isSome := displayWithin_isSome h _ _

theorem describe_isSome (h : ∀ v, s.view? d = some v → s.kindName? v.type = some v.kind.name →
      (s.display (s.label v)).isSome ∧ (s.display (s.name v.type)).isSome) :
    (s.describe d).isSome := by
  unfold describe
  split
  · rfl
  · rfl
  · rfl
  · rfl
  · rfl
  · split
    · rfl
    · cases hv : s.view? d with
      | none => rfl
      | some v =>
        dsimp only
        split
        next hkind =>
          obtain ⟨hlabel, hname⟩ := h v hv hkind
          obtain ⟨shown, hshown⟩ := Option.isSome_iff_exists.mp hlabel
          obtain ⟨name, hname⟩ := Option.isSome_iff_exists.mp hname
          simp only [hshown, hname, Option.bind_eq_bind, Option.bind_some, Option.pure_def,
            Option.isSome_some]
        next => rfl

/-- What is wrong at a spot can be said if all data that are parts of it have texts. -/
theorem exists_text?_eq_some {p : Spot} {inside : List Ref} {cause : Mismatch}
    (hp : p.Violates s inside cause) (h : ∀ d, p.Says s cause d → (s.display d).isSome) :
    ∃ words, cause.text? = some words := by
  have hdescribe {what : String} {found : Option String}
      (h : ∀ d, p.Says s (.expected what found) d → (s.display d).isSome) :
      ∃ text, s.describe p.datum = some text :=
    Option.isSome_iff_exists.mp (describe_isSome fun v hv hkind =>
      ⟨h _ (.label hv hkind), h _ (.name hv hkind)⟩)
  cases hp with
  | list | primitive | type =>
    obtain ⟨text, htext⟩ := hdescribe h
    exact ⟨_, by rw [Mismatch.text?, htext]; rfl⟩
  | tag ht =>
    obtain ⟨text, htext⟩ := Option.isSome_iff_exists.mp (h _ (.tag ht.view))
    exact ⟨_, by rw [Mismatch.text?, htext]; rfl⟩
  | constructor | inside | count => exact ⟨_, rfl⟩

/-! ## Outcomes of validations -/

theorem validate_eq_valid_iff : s.validate type x = .valid ↔ s.check type x = .ok () := by
  unfold validate
  cases s.check type x with
  | ok => simp
  | error e => cases hreport : s.rejection? (s.rootLabel type x) e <;> simp [hreport]

theorem validate_eq_invalid_iff : s.validate type x = .invalid report ↔
    ∃ e, s.check type x = .error e ∧ s.rejection? (s.rootLabel type x) e = some report := by
  unfold validate
  cases s.check type x with
  | ok => simp
  | error e => cases hreport : s.rejection? (s.rootLabel type x) e <;> simp [hreport]

/-- No report is made of a violation just if the words for it are missing, or the text of the root's
label is, which stands in front of them. -/
theorem validate_eq_raised_iff : s.validate type x = .raised ↔
    ∃ e, s.check type x = .error e ∧ (e.cause.text? = none ∨ e.place.steps = [] ∧
      (s.rootLabel type x).isTruthy = true ∧ s.display (s.rootLabel type x) = none) := by
  have hnone (e : MismatchError) : s.rejection? (s.rootLabel type x) e = none ↔
      e.cause.text? = none ∨ e.place.steps = [] ∧ (s.rootLabel type x).isTruthy = true ∧
        s.display (s.rootLabel type x) = none := by
    unfold rejection?
    cases e.cause.text? with
    | none => simp
    | some words =>
      cases e.place.steps with
      | cons step steps => simp
      | nil =>
        cases (s.rootLabel type x).isTruthy <;> cases s.display (s.rootLabel type x) <;> simp
  unfold validate
  cases s.check type x with
  | ok => simp
  | error e =>
    simp only [Except.error.injEq, exists_eq_left', ← hnone e]
    cases s.rejection? (s.rootLabel type x) e <;> simp

theorem within_rootLabel (s : Store) (type : TypeRef) (x : Datum) :
    s.Within (s.rootLabel type x) x := by
  unfold rootLabel
  split
  next v hv => exact within_label hv
  next => exact .of_ne_object (by simp)

/-- Where no object gives its own text, a validation ends with a verdict. -/
theorem validate_ne_raised (h : s.Displayable x) : s.validate type x ≠ .raised := by
  rw [ne_eq, validate_eq_raised_iff]
  rintro ⟨e, hcheck, hnone⟩
  obtain ⟨way, steps, inside, p, hway, hcause, -⟩ := check_eq_error hcheck
  rcases hnone with hnone | ⟨-, -, hnone⟩
  · obtain ⟨words, hwords⟩ := exists_text?_eq_some hcause fun d hd =>
      display_isSome (h.within (hd.within.trans hway.within))
    cases hwords.symm.trans hnone
  · have hlabel := display_isSome (h.within (s.within_rootLabel type x))
    rw [hnone] at hlabel
    cases hlabel

/-! ## Reports -/

theorem reports_of_rejection? (h : s.rejection? label e = some report)
    (hplace : e.place = ⟨label.text?.getD "", steps⟩)
    (hsteps : (∀ root, label ≠ .text root) → steps = []) :
    ∃ words, e.cause.text? = some words ∧ s.Reports label steps words report := by
  obtain ⟨words, hwords, h⟩ := Option.bind_eq_some_iff.mp h
  refine ⟨words, hwords, ?_⟩
  rw [hplace] at h
  cases steps with
  | cons step steps =>
    obtain rfl := Option.some.inj h
    have hlabel : ∃ root, label = .text root := by
      by_contra hnone
      cases hsteps fun root hroot => hnone ⟨root, hroot⟩
    obtain ⟨root, rfl⟩ := hlabel
    have hne := Path.text_ne_empty root step steps
    refine ⟨fun root' hroot => ?_, fun hnone => absurd rfl (hnone root),
      fun _ => ⟨_, s.display_text _, rfl⟩,
      fun hfalse => absurd ((decide_eq_true hne).symm.trans hfalse) (by simp)⟩
    obtain rfl := Datum.text.inj hroot
    rfl
  | nil =>
    have hroot (root : String) : Path.text ⟨root, []⟩ = root := by
      simp [Path.text]
    dsimp only at h
    split at h
    next htruthy =>
      obtain ⟨shown, hshown, h⟩ := Option.bind_eq_some_iff.mp h
      obtain rfl := Option.some.inj h
      refine ⟨fun root hlabel => ?_, fun _ => ⟨rfl, .inl rfl⟩, fun _ => ⟨shown, hshown, rfl⟩,
        fun hfalse => absurd (htruthy.symm.trans hfalse) (by simp)⟩
      rw [hroot, hlabel]
    next hfalsy =>
      obtain rfl := Option.some.inj h
      refine ⟨fun root hlabel => ?_, fun _ => ⟨rfl, ?_⟩, fun htruthy => ?_, fun _ => rfl⟩
      · rw [hroot, hlabel]
        rfl
      · by_cases hmissing : label = .missing
        · exact .inr ⟨hmissing, if_pos hmissing⟩
        · exact .inl (if_neg hmissing)
      · by_cases hmissing : label = .missing
        · simp [hmissing, Datum.isTruthy] at htruthy
        · exact absurd (by simpa [hmissing] using htruthy) hfalsy

/-- Below a root whose label is no text there is nothing that is checked. -/
theorem exists_rootLabel_of_leads {k : ℕ} {way : List ℕ} {inside : List Ref} {p : Spot}
    (h : (Spot.ofType type x).Leads s (k :: way) steps inside p) :
    ∃ root, s.rootLabel type x = .text root := by
  cases h with
  | step hpart _ =>
    cases hpart with
    | item hm => cases hm
    | field ho =>
      obtain ⟨t, ht, hof⟩ := ho.claims
      obtain ⟨root, hroot, -⟩ := Check.exists_outline ht.view hof (.ofRoot "")
      refine ⟨root, ?_⟩
      have hview : s.view? x = some _ := ht.view
      rw [rootLabel, hview]
      exact hroot

/-- A datum that is rejected is rejected at its first violation. The path leads from the label of
the root to a spot that violates what is asked there, whatever comes before it, and is not around
it, conforms, and the message begins with the path where this is a text. The report stays the same,
whatever other contents and items there are in places that have not been read. Lists that are a part
of what is said have been read, too. -/
theorem validate_eq_invalid (h : s.validate type x = .invalid report) :
    ∃ way steps inside p cause words, (Spot.ofType type x).Leads s way steps inside p ∧
      p.Violates s inside cause ∧ cause.text? = some words ∧
      s.Reports (s.rootLabel type x) steps words report ∧
      (∀ text, report.path = .text text → ∃ rest, report.message = text ++ rest) ∧
      (∀ way' steps' inside' q, (Spot.ofType type x).Leads s way' steps' inside' q →
        Precedes way' way → ¬ way' <+: way → q.Conforms s) ∧
      ∀ s', s.Revises s' (fun l i => (Spot.ofType type x).Reads s way l i ∨
          s.Displays (s.rootLabel type x) l i ∨ ∃ d, p.Says s cause d ∧ s.Displays d l i) x →
        s'.validate type x = .invalid report := by
  obtain ⟨e, hcheck, hreport⟩ := validate_eq_invalid_iff.mp h
  obtain ⟨way, steps, inside, p, hway, hcause, hplace, hfirst, hsame⟩ := check_eq_error hcheck
  have hsteps : (∀ root, s.rootLabel type x ≠ .text root) → steps = [] := by
    intro hnone
    cases hway with
    | here => rfl
    | step hpart hrest =>
      obtain ⟨root, hroot⟩ := exists_rootLabel_of_leads (.step hpart hrest)
      exact absurd hroot (hnone root)
  obtain ⟨words, hwords, hreports⟩ := reports_of_rejection? hreport hplace hsteps
  refine ⟨way, steps, inside, p, e.cause, words, hway, hcause, hwords, hreports, fun text htext => ?_,
    hfirst, fun s' hs' => ?_⟩
  · cases htruthy : report.path.isTruthy with
    | true =>
      obtain ⟨shown, hshown, hmessage⟩ := hreports.front htruthy
      rw [htext, display_text] at hshown
      obtain rfl : text = shown := Option.some.inj hshown
      exact ⟨": " ++ words, by rw [hmessage, String.append_assoc]⟩
    | false =>
      rw [htext] at htruthy
      obtain rfl : text = "" := by simpa [Datum.isTruthy] using htruthy
      exact ⟨report.message, by rw [String.empty_append]⟩
  · have hcheck' := hsame s' _ hs' (fun l i => .inl)
      fun d hd l i hdisplays => .inr (.inr ⟨d, hd, hdisplays⟩)
    have hlabel : s'.display (s.rootLabel type x) = s.display (s.rootLabel type x) :=
      (hs'.within (s.within_rootLabel type x)).display_eq fun l i hdisplays => .inr (.inl hdisplays)
    refine validate_eq_invalid_iff.mpr ⟨e, hcheck', ?_⟩
    rw [hs'.looksLike.rootLabel_eq, rejection?, hlabel]
    exact hreport

/-- A node whose next node has a text where a number is asked for, and the first node behind it. -/
def Sample.worded : Store :=
  ⟨#[.list false [some (.number (.ofNat 1)), some (.object ⟨3⟩)],
    .record (Session.Sample.properties ⟨0⟩),
    .list false [some (.text "one"), some (.object ⟨1⟩)],
    .record (Session.Sample.properties ⟨2⟩)]⟩

def Sample.wordedReport : Rejection :=
  ⟨.text "node.next.v", "node.next.v: expected int, got string"⟩

/-- The text is reported, not that the next node contains the first one, whatever stands there. -/
theorem validate_eq_invalid_worded :
    Sample.worded.validate (.declared Session.Sample.node.key) (.object ⟨1⟩) =
      .invalid Sample.wordedReport ∧
    ∃ way steps inside p cause,
      (Spot.ofType (.declared Session.Sample.node.key) (.object ⟨1⟩)).Leads Sample.worded way steps
        inside p ∧ p.Violates Sample.worded inside cause ∧ Path.text ⟨"node", steps⟩ = "node.next.v" ∧
      ∀ s', Sample.worded.Revises s' (fun l i =>
          (Spot.ofType (.declared Session.Sample.node.key) (.object ⟨1⟩)).Reads Sample.worded way l i ∨
          Sample.worded.Displays (.text "node") l i ∨
            ∃ d, p.Says Sample.worded cause d ∧ Sample.worded.Displays d l i) (.object ⟨1⟩) →
        s'.validate (.declared Session.Sample.node.key) (.object ⟨1⟩) =
          .invalid Sample.wordedReport := by
  have hinvalid : Sample.worded.validate (.declared Session.Sample.node.key) (.object ⟨1⟩) =
      .invalid Sample.wordedReport := rfl
  obtain ⟨way, steps, inside, p, cause, words, hway, hcause, -, hreports, -, -, hsame⟩ :=
    validate_eq_invalid hinvalid
  have hpath := Datum.text.inj (hreports.path "node" rfl)
  exact ⟨hinvalid, way, steps, inside, p, cause, hway, hcause, hpath.symm, hsame⟩

/-- A plain object that counts as a product, of a type that is a plain object with the name 0. -/
def Sample.numbered : Store :=
  ⟨#[.list false [], .record ⟨[("kind", .text "product"), ("name", .number (.ofNat 0))]⟩,
    .record ⟨[("kind", .text "product"), ("type", .object ⟨1⟩), ("fields", .object ⟨0⟩)]⟩]⟩

/-- A message need not begin with the path, where the label of the root is no text. -/
theorem exists_message_without_path : ∃ (s : Store) (type : TypeRef) (x : Datum) (report : Rejection),
    s.validate type x = .invalid report ∧ report.path = .number (.ofNat 0) ∧
      report.message = "expected node, got 0 (0)" :=
  ⟨Sample.numbered, .declared Session.Sample.node.key, .object ⟨2⟩,
    ⟨.number (.ofNat 0), "expected node, got 0 (0)"⟩, rfl, rfl, rfl⟩

end Store

end Schemata
