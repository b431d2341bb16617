import Mathlib.Data.List.Basic
import Schemata.Proofs.Value.Construction

/-!
# Finite values

A finite value is a scalar, or a type and an alternative of it with a list of finite values for each
field (`FiniteValue`). `FiniteValue.OfType` says that it is well typed: a single field has one
value, an optional one at most one, and all of them are of the field's type.

That a type has such a value (`TypeRef.HasValue`) is decided by its single fields: the others can be
empty. `TypeRef.HasValue.induct` is induction on the value, with only that in view.
-/

namespace Schemata

/-- A scalar, or a value with the values of its fields, all of finite depth. -/
inductive FiniteValue where
  | scalar (content : Datum)
  | node (type : TypeKey) (constructor : Option Constructor) (contents : List (List FiniteValue))

/-- How many values a field can have. -/
def Multiplicity.Admits : Multiplicity → Nat → Prop
  | single, n => n = 1
  | optional, n => n ≤ 1
  | repeated, _ => True

/-- The value is well typed, the types being those of the list. -/
inductive FiniteValue.OfType (types : List TypeDef) : TypeRef → FiniteValue → Prop
  | scalar {p : Primitive} {d : Datum} : p.accepts d = true → OfType types (.primitive p) (.scalar d)
  | node {t : TypeDef} {c : Option Constructor} {contents : List (List FiniteValue)} :
    t ∈ types → t.Alternative c → contents.length = (Construct.declared t c).length →
    (∀ p ∈ (Construct.declared t c).zip contents, p.1.multiplicity.Admits p.2.length) →
    (∀ p ∈ (Construct.declared t c).zip contents, ∀ v ∈ p.2, OfType types p.1.type v) →
    OfType types (.declared t.key) (.node t.key c contents)

/-- There is a finite value of the type. -/
def TypeRef.HasValue (types : List TypeDef) (type : TypeRef) : Prop :=
  ∃ v : FiniteValue, v.OfType types type

/-- There are finite values for the field, as many as it can have. -/
def Field.HasContent (types : List TypeDef) (f : Field) : Prop :=
  ∃ vs : List FiniteValue, f.multiplicity.Admits vs.length ∧ ∀ v ∈ vs, v.OfType types f.type

/-- A field can be empty unless it is single. -/
theorem Field.hasContent_iff {types : List TypeDef} {f : Field} :
    f.HasContent types ↔ (f.multiplicity = .single → f.type.HasValue types) := by
  constructor
  · rintro ⟨vs, hadmits, hvs⟩ hm
    rw [hm] at hadmits
    obtain ⟨v, rfl⟩ := List.length_eq_one_iff.mp hadmits
    exact ⟨v, hvs v (List.mem_singleton_self v)⟩
  · intro h
    cases hm : f.multiplicity with
    | single =>
      obtain ⟨v, hv⟩ := h hm
      exact ⟨[v], by rw [hm]; rfl, by simpa using hv⟩
    | optional => exact ⟨[], by rw [hm]; exact Nat.zero_le 1, by simp⟩
    | repeated => exact ⟨[], by rw [hm]; trivial, by simp⟩

theorem Primitive.exists_accepts (p : Primitive) : ∃ d, p.accepts d = true := by
  cases p with
  | string => exact ⟨.text "", rfl⟩
  | int => exact ⟨.number (.ofNat 0), by decide⟩
  | bool => exact ⟨.bool true, rfl⟩

namespace TypeRef

variable {types types' : List TypeDef} {type : TypeRef}

theorem hasValue_primitive (p : Primitive) : (TypeRef.primitive p).HasValue types := by
  obtain ⟨d, hd⟩ := p.exists_accepts
  exact ⟨.scalar d, .scalar hd⟩

/-- Values of the single fields make a value. -/
theorem hasValue_declared {t : TypeDef} {c : Option Constructor} (ht : t ∈ types)
    (hc : t.Alternative c)
    (h : ∀ f ∈ Construct.declared t c, f.multiplicity = .single → f.type.HasValue types) :
    (TypeRef.declared t.key).HasValue types := by
  have hcontents : ∀ fs : List Field, (∀ f ∈ fs, f.multiplicity = .single →
      f.type.HasValue types) → ∃ contents : List (List FiniteValue),
      contents.length = fs.length ∧ ∀ p ∈ fs.zip contents,
        p.1.multiplicity.Admits p.2.length ∧ ∀ v ∈ p.2, v.OfType types p.1.type := by
    intro fs hfs
    induction fs with
    | nil => exact ⟨[], rfl, by simp⟩
    | cons f fs ih =>
      obtain ⟨hf, hfs⟩ := List.forall_mem_cons.mp hfs
      obtain ⟨contents, hlength, hall⟩ := ih hfs
      obtain ⟨vs, hvs⟩ := Field.hasContent_iff.mpr hf
      refine ⟨vs :: contents, by simp [hlength], ?_⟩
      rw [List.zip_cons_cons, List.forall_mem_cons]
      exact ⟨hvs, hall⟩
  obtain ⟨contents, hlength, hall⟩ := hcontents _ h
  exact ⟨_, .node ht hc hlength (fun p hp => (hall p hp).1) fun p hp => (hall p hp).2⟩

/-- What holds of the primitive types, and of a type with an alternative for all single fields of
which it holds, holds of every type that has a value. -/
theorem HasValue.induct {P : TypeRef → Prop} (hprimitive : ∀ p, P (.primitive p))
    (hdeclared : ∀ (t : TypeDef) (c : Option Constructor), t ∈ types → t.Alternative c →
      (∀ f ∈ Construct.declared t c, f.multiplicity = .single → P f.type) → P (.declared t.key))
    (h : type.HasValue types) : P type := by
  obtain ⟨v, hv⟩ := h
  induction hv with
  | scalar _ => exact hprimitive _
  | @node t c contents ht hc hlength hadmits _ ih =>
    refine hdeclared t c ht hc fun f hf hm => ?_
    obtain ⟨i, hi, rfl⟩ := List.mem_iff_getElem.mp hf
    have hlt : i < contents.length := hlength ▸ hi
    have hmem : ((Construct.declared t c)[i], contents[i]) ∈
        (Construct.declared t c).zip contents := by
      refine List.mem_iff_getElem.mpr ⟨i, ?_, List.getElem_zip⟩
      rw [List.length_zip]
      omega
    have hone := hadmits _ hmem
    rw [hm] at hone
    obtain ⟨v, hv⟩ := List.length_eq_one_iff.mp hone
    exact ih _ hmem v (by rw [hv]; exact List.mem_singleton_self v)

/-- More types take no value away. -/
theorem HasValue.mono (h : type.HasValue types) (hsub : types ⊆ types') :
    type.HasValue types' :=
  h.induct hasValue_primitive fun _ _ ht hc hall => hasValue_declared (hsub ht) hc hall

end TypeRef

end Schemata
