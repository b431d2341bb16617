import Mathlib.Data.List.Basic
import Mathlib.Tactic.SplitIfs
import Schemata.Text.Quoted

/-!
# Quoted texts can be read back

`Text.unquoteChar` reads one written character from the front of a quoted text. It inverts
`Text.quoteChar`, whatever follows, so no two texts are quoted alike (`Text.quote_injective`).
-/

namespace Schemata.Text

/-- The number of a hexadecimal digit. -/
def hexValue (c : Char) : Nat :=
  if c.toNat < 58 then c.toNat - 48 else c.toNat - 87

/-- The character at the front of a quoted text, and what follows it. -/
def unquoteChar : List Char → Option (Char × List Char)
  | '\\' :: 'u' :: h₃ :: h₂ :: h₁ :: h₀ :: rest =>
    some (Char.ofNat (((hexValue h₃ * 16 + hexValue h₂) * 16 + hexValue h₁) * 16 + hexValue h₀),
      rest)
  | '\\' :: c :: rest =>
    match c with
    | 'n' => some ('\n', rest)
    | 'r' => some ('\r', rest)
    | 't' => some ('\t', rest)
    | 'b' => some (Char.ofNat 8, rest)
    | 'f' => some (Char.ofNat 12, rest)
    | c => some (c, rest)
  | c :: rest => some (c, rest)
  | [] => none

theorem hexValue_hexDigit : ∀ n < 16, hexValue (hexDigit n) = n := by decide

/-- A control character is read back from its escape. -/
theorem unquoteChar_unitEscape {n : Nat} (hn : n < 32) (rest : List Char) :
    unquoteChar (unitEscape n ++ rest) = some (Char.ofNat n, rest) := by
  have hvalue (k : Nat) : hexValue (hexDigit (k % 16)) = k % 16 :=
    hexValue_hexDigit _ (Nat.mod_lt _ (by decide))
  show some (Char.ofNat _, rest) = _
  rw [hvalue, hvalue, hvalue, hvalue]
  congr 3
  omega

/-- A written character is read back, whatever follows it. -/
theorem unquoteChar_quoteChar (c : Char) (rest : List Char) :
    unquoteChar (quoteChar c ++ rest) = some (c, rest) := by
  unfold quoteChar
  split_ifs with h₁ h₂ h₃ h₄ h₅ h₆ h₇ h₈
  · subst h₁; rfl
  · subst h₂; rfl
  · subst h₃; rfl
  · subst h₄; rfl
  · subst h₅; rfl
  · rw [← Char.ofNat_toNat c, h₆]; rfl
  · rw [← Char.ofNat_toNat c, h₇]; rfl
  · rw [unquoteChar_unitEscape h₈, Char.ofNat_toNat]
  · show unquoteChar (c :: rest) = _
    unfold unquoteChar
    split <;> simp_all

theorem flatMap_quoteChar_injective {cs ds : List Char}
    (h : cs.flatMap quoteChar = ds.flatMap quoteChar) : cs = ds := by
  induction cs generalizing ds with
  | nil =>
    cases ds with
    | nil => rfl
    | cons d ds =>
      have hread := unquoteChar_quoteChar d (ds.flatMap quoteChar)
      rw [← List.flatMap_cons, ← h] at hread
      cases hread
  | cons c cs ih =>
    have hread := unquoteChar_quoteChar c (cs.flatMap quoteChar)
    rw [← List.flatMap_cons, h] at hread
    cases ds with
    | nil => cases hread
    | cons d ds =>
      rw [List.flatMap_cons, unquoteChar_quoteChar] at hread
      obtain ⟨rfl, hrest⟩ := Prod.mk.inj (Option.some.inj hread)
      rw [ih hrest.symm]

/-- No two texts are quoted alike. -/
theorem quote_injective {s t : String} (h : quote s = quote t) : s = t := by
  have hlist := String.ofList_injective h
  have hbody := List.append_cancel_right (List.cons.inj hlist).2
  exact String.toList_injective (flatMap_quoteChar_injective hbody)

end Schemata.Text
