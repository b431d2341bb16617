/-!
# Text measured in 16-bit units

Columns of a source text count the 16-bit units of its UTF-16 form, and names are sorted by these
units. A character up to U+FFFF is one unit; any other is a pair, whose first half is `leadUnit`.
-/

namespace Schemata.Text

/-- Number of 16-bit units of a character. -/
def width (c : Char) : Nat :=
  if c.toNat < 0x10000 then 1 else 2

/-- First 16-bit unit of a character: the character itself, or the high half of its pair. -/
def leadUnit (c : Char) : Nat :=
  if c.toNat < 0x10000 then c.toNat else 0xD800 + (c.toNat - 0x10000) / 0x400

/-- Second 16-bit unit of a character beyond U+FFFF. -/
def trailUnit (c : Char) : Nat :=
  0xDC00 + (c.toNat - 0x10000) % 0x400

/-- The 16-bit units of a character, in order. -/
def charUnits (c : Char) : List Nat :=
  if c.toNat < 0x10000 then [c.toNat] else [leadUnit c, trailUnit c]

/-- The 16-bit units of a text, in order. -/
def units (s : String) : List Nat :=
  s.toList.flatMap charUnits

/-- Lexicographic comparison of unit sequences; a proper beginning comes first. -/
def unitsLe : List Nat → List Nat → Bool
  | [], _ => true
  | _ :: _, [] => false
  | a :: as, b :: bs => a < b || (a == b && unitsLe as bs)

/-- Order of texts by their 16-bit units. -/
def le (a b : String) : Bool :=
  unitsLe (units a) (units b)

/-- Texts in ascending order of their units. -/
def sort (names : List String) : List String :=
  names.mergeSort le

theorem unitsLe_total (as bs : List Nat) : unitsLe as bs || unitsLe bs as := by
  induction as generalizing bs with
  | nil => rfl
  | cons a as ih =>
    cases bs with
    | nil => rfl
    | cons b bs =>
      rcases Nat.lt_trichotomy a b with h | rfl | h
      · simp [unitsLe, h]
      · simpa [unitsLe] using ih bs
      · simp [unitsLe, h]

theorem unitsLe_trans {as bs cs : List Nat} (h : unitsLe as bs) (h' : unitsLe bs cs) :
    unitsLe as cs := by
  induction as generalizing bs cs with
  | nil => rfl
  | cons a as ih =>
    cases bs with
    | nil => cases h
    | cons b bs =>
      cases cs with
      | nil => cases h'
      | cons c cs =>
        simp only [unitsLe, Bool.or_eq_true, Bool.and_eq_true, decide_eq_true_eq, beq_iff_eq]
          at h h' ⊢
        rcases h with h | ⟨rfl, h⟩ <;> rcases h' with h' | ⟨rfl, h'⟩
        · exact .inl (Nat.lt_trans h h')
        · exact .inl h
        · exact .inl h'
        · exact .inr ⟨rfl, ih h h'⟩

theorem pairwise_sort (names : List String) : (sort names).Pairwise (le · ·) := by
  have htrans (a b c : String) (h : le a b) (h' : le b c) : le a c := unitsLe_trans h h'
  have htotal (a b : String) : le a b || le b a := unitsLe_total (units a) (units b)
  exact List.pairwise_mergeSort htrans htotal names

theorem sort_perm (names : List String) : (sort names).Perm names :=
  List.mergeSort_perm names le

end Schemata.Text
