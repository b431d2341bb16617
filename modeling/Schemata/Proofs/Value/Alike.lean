import Schemata.Proofs.Text.Pieces
import Schemata.Proofs.Token.Words
import Schemata.Proofs.Value.Stores
import Schemata.Value.Check
import Schemata.Value.Print

/-!
# Equality of structure

Two data are alike if they are the same scalar or values of one type and constructor with contents
that are alike, all the way down, holes in lists included; integers are compared as such, so the two
zeros are alike (`Store.Alike`).

The texts of scalars are pieces, of which none is the mark for absent contents, and scalars of one
type that have the same text are alike (`Primitive.alike_of_text_eq`).
-/

namespace Schemata

/-- The same scalars, or the same types and constructors with the same contents, at every depth. -/
inductive Store.Alike (s : Store) : Datum → Datum → Prop
  | same {d : Datum} : (∀ r, d ≠ .object r) → s.Alike d d
  | number {x y : Number} {n : Int} :
    x.toInt? = some n → y.toInt? = some n → s.Alike (.number x) (.number y)
  | list {r r' : Ref} {frozen frozen' : Bool} {items items' : List (Option Datum)} :
    s.get? r = some (.list frozen items) → s.get? r' = some (.list frozen' items') →
    List.Forall₂ (Option.Rel s.Alike) items items' → s.Alike (.object r) (.object r')
  | value {r r' : Ref} {t : TypeDef} {c : Option Constructor} {contents contents' : List Datum} :
    s.HasBuilt r ⟨t, c, contents⟩ → s.HasBuilt r' ⟨t, c, contents'⟩ →
    List.Forall₂ s.Alike contents contents' → s.Alike (.object r) (.object r')

namespace Store.Alike

variable {s : Store} {r r' : Ref}

/-- Values that are alike have contents that are. -/
theorem contents {b b' : Built} (h : s.Alike (.object r) (.object r')) (hb : s.HasBuilt r b)
    (hb' : s.HasBuilt r' b') : List.Forall₂ s.Alike b.fields b'.fields := by
  cases h with
  | same hne => exact absurd rfl (hne r)
  | list hr _ _ => exact absurd hr hb.ne_list
  | value hr hr' hcontents =>
    obtain rfl := hb.unique hr
    obtain rfl := hb'.unique hr'
    exact hcontents

theorem constructor_eq {b b' : Built} (h : s.Alike (.object r) (.object r')) (hb : s.HasBuilt r b)
    (hb' : s.HasBuilt r' b') : b.constructor = b'.constructor := by
  cases h with
  | same hne => exact absurd rfl (hne r)
  | list hr _ _ => exact absurd hr hb.ne_list
  | value hr hr' _ => rw [hb.unique hr, hb'.unique hr']

/-- Lists that are alike have items that are. -/
theorem items {frozen frozen' : Bool} {items items' : List (Option Datum)}
    (h : s.Alike (.object r) (.object r')) (hr : s.get? r = some (.list frozen items))
    (hr' : s.get? r' = some (.list frozen' items')) :
    List.Forall₂ (Option.Rel s.Alike) items items' := by
  cases h with
  | same hne => exact absurd rfl (hne r)
  | list h h' hitems =>
    obtain ⟨-, rfl⟩ := Node.list.inj (Option.some.inj (hr.symm.trans h))
    obtain ⟨-, rfl⟩ := Node.list.inj (Option.some.inj (hr'.symm.trans h'))
    exact hitems
  | value h _ _ => exact absurd hr h.ne_list

end Store.Alike

/-! ## Words and numbers -/

theorem Text.plain_of_isWordPart {c : Char} (h : Token.isWordPart c) : Text.Plain c := by
  refine ⟨?_, ?_, ?_, ?_, ?_, ?_⟩ <;> rintro rfl <;> exact absurd h (by decide)

theorem Token.IsWord.isPiece {t : String} (h : Token.IsWord t) : Text.IsPiece t := by
  obtain ⟨c, cs, htext, -, -⟩ := id h
  exact .of_plain (by simp [htext]) fun c hc => Text.plain_of_isWordPart (h.isWordPart_of_mem hc)

namespace Number

theorem digits_injective {m n : Nat} (h : Nat.toDigits 10 m = Nat.toDigits 10 n) : m = n := by
  have hm := Nat.ofDigitChars_toDigits (b := 10) (n := m) (by decide) (by decide)
  rw [h, Nat.ofDigitChars_toDigits (by decide) (by decide)] at hm
  exact hm.symm

theorem isDigit_of_mem {n : Nat} {c : Char} (hc : c ∈ Nat.toDigits 10 n) : c.isDigit = true :=
  Nat.isDigit_of_mem_toDigits (by decide) (by decide) hc

theorem toList_repr (n : Int) : n.repr.toList =
    if n < 0 then '-' :: Nat.toDigits 10 n.natAbs else Nat.toDigits 10 n.natAbs := by
  cases n with
  | ofNat n => simp [Int.repr, Nat.repr_eq_ofList_toDigits]
  | negSucc n => simp [Int.repr, Nat.repr_eq_ofList_toDigits, Int.negSucc_lt_zero]

theorem isPiece_repr (n : Int) : Text.IsPiece n.repr := by
  have hdigits : ∀ c ∈ Nat.toDigits 10 n.natAbs, Text.Plain c := by
    intro c hc
    have hdigit := isDigit_of_mem hc
    refine ⟨?_, ?_, ?_, ?_, ?_, ?_⟩ <;> rintro rfl <;> exact absurd hdigit (by decide)
  refine .of_plain ?_ ?_ <;> rw [toList_repr] <;> split
  · simp
  · exact Nat.toDigits_ne_nil
  · exact List.forall_mem_cons.mpr ⟨by simp [Text.Plain], hdigits⟩
  · exact hdigits

/-- Different integers are written differently. -/
theorem repr_injective {m n : Int} (h : m.repr = n.repr) : m = n := by
  have hlist := congrArg String.toList h
  have hminus : ∀ k : Nat, '-' ∉ Nat.toDigits 10 k := fun k hk =>
    absurd (isDigit_of_mem hk) (by decide)
  rw [toList_repr, toList_repr] at hlist
  split_ifs at hlist with hm hn hn
  · have := digits_injective (List.cons.inj hlist).2
    omega
  · exact absurd (hlist ▸ List.mem_cons_self) (hminus n.natAbs)
  · exact absurd (hlist ▸ List.mem_cons_self) (hminus m.natAbs)
  · have := digits_injective hlist
    omega

/-- An integer that is told apart from its neighbours is written in decimal. -/
theorem text_eq_repr {x : Number} (h : x.isSafeInteger = true) :
    ∃ n : Int, x.toInt? = some n ∧ x.text = n.repr := by
  unfold isSafeInteger at h
  cases x with
  | integral n =>
    refine ⟨n, rfl, ?_⟩
    have hn : n.natAbs ≤ maxSafe := of_decide_eq_true h
    rw [text, if_pos hn]
    rfl
  | negativeZero => exact ⟨0, rfl, rfl⟩
  | _ => cases h

end Number

theorem Primitive.of_accepts {p : Primitive} {d : Datum} (h : p.accepts d = true) :
    (p = .string ∧ ∃ t, d = .text t) ∨ (p = .int ∧ ∃ x, d = .number x ∧ x.isSafeInteger = true) ∨
      p = .bool ∧ ∃ b, d = .bool b := by
  unfold accepts at h
  split at h
  next t => exact .inl ⟨rfl, t, rfl⟩
  next x => exact .inr (.inl ⟨rfl, x, rfl, h⟩)
  next b => exact .inr (.inr ⟨rfl, b, rfl⟩)
  next => cases h

/-! ## Scalars -/

namespace Primitive

variable {s : Store} {p : Primitive} {d d' : Datum} {place place' : Path} {text : String}
  {inner inner' : Datum → Path → Except PrintError String}

theorem isPiece_of_accepts (hd : p.accepts d = true)
    (h : Print.element inner d place = .ok text) : Text.IsPiece text := by
  rcases of_accepts hd with ⟨-, t, rfl⟩ | ⟨-, x, rfl, hx⟩ | ⟨-, b, rfl⟩ <;>
    obtain rfl := Except.ok.inj h
  · exact .quote t
  · obtain ⟨n, -, hn⟩ := Number.text_eq_repr hx
    rw [hn]
    exact Number.isPiece_repr n
  · cases b <;> exact .of_plain (by decide) (by simp [Text.Plain])

/-- No scalar is written like an absent content. -/
theorem ne_absentMark_of_accepts (hd : p.accepts d = true)
    (h : Print.element inner d place = .ok text) : text ≠ Print.absentMark := by
  rcases of_accepts hd with ⟨-, t, rfl⟩ | ⟨-, x, rfl, hx⟩ | ⟨-, b, rfl⟩ <;>
    obtain rfl := Except.ok.inj h <;> intro heq <;> have hlist := congrArg String.toList heq
  · rw [Text.quote, String.toList_ofList] at hlist
    exact absurd (List.cons.inj hlist).1 (by decide)
  · obtain ⟨n, -, hn⟩ := Number.text_eq_repr hx
    rw [hn, Number.toList_repr] at hlist
    split at hlist
    · exact absurd (List.cons.inj hlist).1 (by decide)
    · have hmem : '_' ∈ Nat.toDigits 10 n.natAbs := hlist ▸ List.mem_cons_self
      exact absurd (Number.isDigit_of_mem hmem) (by decide)
  · cases b <;> exact absurd hlist (by decide)

/-- Scalars of one type are alike if they are written alike. -/
theorem alike_of_text_eq (hd : p.accepts d = true) (hd' : p.accepts d' = true)
    (h : Print.element inner d place = .ok text) (h' : Print.element inner' d' place' = .ok text) :
    s.Alike d d' := by
  rcases of_accepts hd with ⟨rfl, t, rfl⟩ | ⟨rfl, x, rfl, hx⟩ | ⟨rfl, b, rfl⟩ <;>
    rcases of_accepts hd' with ⟨hp, t', rfl⟩ | ⟨hp, x', rfl, hx'⟩ | ⟨hp, b', rfl⟩ <;>
    cases hp <;> obtain rfl := Except.ok.inj h <;> have htext := Except.ok.inj h'
  · rw [Text.quote_injective htext]
    exact .same fun r hr => by cases hr
  · obtain ⟨n, hn, htext_x⟩ := Number.text_eq_repr hx
    obtain ⟨n', hn', htext_x'⟩ := Number.text_eq_repr hx'
    rw [htext_x, htext_x'] at htext
    obtain rfl := Number.repr_injective htext
    exact .number hn hn'
  · obtain rfl : b' = b := by
      cases b <;> cases b' <;> first | rfl | exact absurd htext (by decide)
    exact .same fun r hr => by cases hr

end Primitive

end Schemata
