import Schemata.Proofs.Outcome
import Schemata.Value.Path

/-!
# The first fault

Values are printed and checked from the outside inwards, contents in the order of their fields and
items in their order, up to the first fault. Where a fault is, is told by the numbers of the fields
and items on the way to it (`Precedes`). `Faults.FindsFirst` says of an outcome that it is the first
fault, or that there is none; it goes from the members of a list to the list
(`Faults.FindsFirst.cons`).
-/

namespace Schemata

/-- The place that is some steps further inside. -/
def Path.along (p : Path) (steps : List PathStep) : Path := ⟨p.root, p.steps ++ steps⟩

theorem Path.along_nil (p : Path) : p.along [] = p := by
  rw [along, List.append_nil]

theorem Path.along_append (p : Path) (steps steps' : List PathStep) :
    p.along (steps ++ steps') = (p.along steps).along steps' := by
  simp only [along, List.append_assoc]

/-- What the first way leads to is read before what the second one leads to, or around it, or is the
same. -/
inductive Precedes : List Nat → List Nat → Prop
  | around {way : List Nat} : Precedes [] way
  | before {k k' : Nat} {way way' : List Nat} : k < k' → Precedes (k :: way) (k' :: way')
  | along {k : Nat} {way way' : List Nat} : Precedes way way' → Precedes (k :: way) (k :: way')

theorem Precedes.refl (way : List Nat) : Precedes way way := by
  induction way with
  | nil => exact .around
  | cons k way ih => exact .along ih

theorem Precedes.append {way way' : List Nat} (h : Precedes way way') (more : List Nat) :
    Precedes way (way' ++ more) := by
  induction h with
  | around => exact .around
  | before hlt => exact .before hlt
  | along _ ih => exact .along ih

theorem Precedes.antisymm {way way' : List Nat} (h : Precedes way way') (h' : Precedes way' way) :
    way = way' := by
  induction h with
  | around => cases h'; rfl
  | before hlt =>
    cases h' with
    | before hlt' => omega
    | along _ => omega
  | along _ ih =>
    cases h' with
    | before hlt => omega
    | along h' => rw [ih h']

theorem Precedes.of_append {way way' more : List Nat} (h : Precedes (way ++ more) way') :
    Precedes way way' := by
  induction way generalizing way' with
  | nil => exact .around
  | cons k way ih =>
    cases h with
    | before hlt => exact .before hlt
    | along h => exact .along (ih h)

/-- What stands in something that is read earlier is read earlier, too. -/
theorem Precedes.not_append {way way' : List Nat} (h : Precedes way way') (hway : ¬ way <+: way')
    (more : List Nat) : ¬ Precedes way' (way ++ more) := by
  induction h with
  | around => exact absurd (List.nil_prefix) hway
  | before hlt =>
    rintro (_ | hlt' | _) <;> omega
  | along _ ih =>
    intro h'
    cases h' with
    | before hlt => omega
    | along h' => exact ih (fun hbegins => hway (List.prefix_cons_inj _ |>.mpr hbegins)) h'

/-- Faults inside of something: the numbers on the way there, the steps, and the error that is
reported for the place. -/
def Faults (ε : Type) : Type := List Nat → List PathStep → (Path → ε) → Prop

namespace Faults

variable {ε α β : Type} {step : Nat → α → PathStep} {faults : α → Faults ε} {k : Nat} {a : α}
  {as : List α} {place : Path} {way : List Nat} {steps : List PathStep} {report : Path → ε}

/-- Faults inside of the members of a list, the first of which has the number `k`. -/
def among (step : Nat → α → PathStep) (faults : α → Faults ε) (k : Nat) (as : List α) : Faults ε :=
  fun way steps report => ∃ i a way' steps', as[i]? = some a ∧ way = (k + i) :: way' ∧
    steps = step (k + i) a :: steps' ∧ faults a way' steps' report

theorem among_cons : among step faults k (a :: as) way steps report ↔
    (∃ way' steps', way = k :: way' ∧ steps = step k a :: steps' ∧ faults a way' steps' report) ∨
      among step faults (k + 1) as way steps report := by
  constructor
  · rintro ⟨i, b, way', steps', hi, hway, hsteps, hfault⟩
    cases i with
    | zero =>
      obtain rfl := Option.some.inj hi
      exact .inl ⟨way', steps', hway, hsteps, hfault⟩
    | succ i =>
      rw [show k + (i + 1) = k + 1 + i by omega] at hway hsteps
      exact .inr ⟨i, b, way', steps', hi, hway, hsteps, hfault⟩
  · rintro (⟨way', steps', hway, hsteps, hfault⟩ | ⟨i, b, way', steps', hi, hway, hsteps, hfault⟩)
    · exact ⟨0, a, way', steps', rfl, hway, hsteps, hfault⟩
    · rw [show k + 1 + i = k + (i + 1) by omega] at hway hsteps
      exact ⟨i + 1, b, way', steps', hi, hway, hsteps, hfault⟩

/-- Faults at an item of a list. In a hole there is none. -/
def ofItem (faults : α → Faults ε) : Option α → Faults ε
  | none => fun _ _ _ => False
  | some a => faults a

/-- The outcome is an error exactly if there is a fault, and then reports the one with the first
way. -/
def FindsFirst (faults : Faults ε) (place : Path) : Except ε β → Prop
  | .ok _ => ∀ way steps report, ¬ faults way steps report
  | .error e => ∃ way steps report, faults way steps report ∧ e = report (place.along steps) ∧
    ∀ way' steps' report', faults way' steps' report' → Precedes way way'

namespace FindsFirst

variable {δ : Type} {x : Except ε δ} {fs fs' : Faults ε}

theorem congr (h : fs.FindsFirst place x)
    (hfaults : ∀ way steps report, fs' way steps report ↔ fs way steps report) :
    fs'.FindsFirst place x := by
  have heq : fs' = fs := by
    funext way steps report
    exact propext (hfaults way steps report)
  rwa [heq]

theorem map (h : fs.FindsFirst place x) (f : δ → β) : fs.FindsFirst place (x.map f) := by
  cases x <;> exact h

theorem nil (b : β) : (among step faults k []).FindsFirst place (.ok b) := by
  rintro way steps report ⟨i, a, _, _, hi, -⟩
  cases hi

/-- The first fault of a sequence is that of its first member, and if there is none in it, that of
the others, to which one goes on then. -/
theorem cons {next : δ → Except ε β} (h : (faults a).FindsFirst (place.along [step k a]) x)
    (hnext : ∀ b, x = .ok b → (among step faults (k + 1) as).FindsFirst place (next b)) :
    (among step faults k (a :: as)).FindsFirst place (x >>= next) := by
  cases x with
  | ok b =>
    refine (hnext b rfl).congr fun way steps report => ?_
    rw [among_cons, or_iff_right]
    rintro ⟨_, _, -, -, hfault⟩
    exact h _ _ _ hfault
  | error e =>
    obtain ⟨way, steps, report, hfault, rfl, hfirst⟩ := h
    refine ⟨k :: way, step k a :: steps, report, among_cons.mpr (.inl ⟨_, _, rfl, rfl, hfault⟩),
      ?_, ?_⟩
    · rw [← Path.along_append, List.singleton_append]
    · intro way' steps' report' hfault'
      rw [among_cons] at hfault'
      rcases hfault' with ⟨way', steps', rfl, -, hfault'⟩ | ⟨i, _, way', steps', -, rfl, -⟩
      · exact .along (hfirst _ _ _ hfault')
      · exact .before (by omega)

/-- A hole in front of a list is passed over. -/
theorem cons_none {step : Nat → Option α → PathStep} {items : List (Option α)}
    (h : (among step (ofItem faults) (k + 1) items).FindsFirst place x) :
    (among step (ofItem faults) k (none :: items)).FindsFirst place x := by
  refine h.congr fun way steps report => ?_
  rw [among_cons, or_iff_right]
  rintro ⟨_, _, -, -, hfault⟩
  exact hfault

end FindsFirst

end Faults

end Schemata
