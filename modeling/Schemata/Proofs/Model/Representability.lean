import Mathlib.Data.List.Basic
import Schemata.Proofs.Value.FiniteValues
import Schemata.Representable

/-!
# Which types are representable

`Representable.check` accepts types if and only if each of them has a finite value
(`check_eq_ok_iff`). Its rounds never lose a type (`round_sublist`), so a round that adds nothing
ends in a list that the next rounds keep (`round_representable`), and no more rounds are needed than
there are types. What the rounds find can be built from what earlier ones found
(`hasValue_of_representable`); and whatever has a value they find, by induction on the value, as all
types of its single fields are found before it.

Types of earlier loads are not looked at again: that each of them has a value is what those loads
made sure of.
-/

namespace Schemata.Representable

variable {types known : List TypeDef} {fresh ok ok' : List TypeKey} {t : TypeDef}

/-! ## One round -/

theorem fieldOk_iff {f : Field} :
    fieldOk fresh ok f = true ↔
      (f.multiplicity = .single → ∀ k, f.type = .declared k → k ∈ fresh → k ∈ ok) := by
  unfold fieldOk
  split
  next k hm ht =>
    rw [Bool.or_eq_true, decide_eq_true_eq, decide_eq_true_eq]
    constructor
    · rintro h - k' hk' hfresh
      obtain rfl := TypeRef.declared.inj (ht.symm.trans hk')
      exact h.resolve_left (not_not.mpr hfresh)
    · intro h
      by_cases hfresh : k ∈ fresh
      · exact .inr (h hm k ht hfresh)
      · exact .inl hfresh
  next hne =>
    rw [eq_self, true_iff]
    exact fun hm k ht => absurd ht (hne k hm)

/-- A type is found in a round if all of the single fields of some alternative were found before. -/
theorem typeOk_iff :
    typeOk fresh ok t = true ↔ ∃ c, t.Alternative c ∧
      ∀ f ∈ Construct.declared t c, f.multiplicity = .single →
        ∀ k, f.type = .declared k → k ∈ fresh → k ∈ ok := by
  unfold typeOk
  cases hshape : t.shape with
  | product fields =>
    have hfields : Construct.declared t none = fields := by
      rw [Construct.declared, TypeDef.fields, hshape]
    simp only [List.all_eq_true, fieldOk_iff]
    constructor
    · exact fun h => ⟨none, .product hshape, by rwa [hfields]⟩
    · rintro ⟨c, hc, h⟩
      cases hc with
      | product _ => rwa [hfields] at h
      | sum hshape' _ => simp [hshape] at hshape'
  | sum cs attributes =>
    simp only [List.any_eq_true, List.all_eq_true, fieldOk_iff]
    constructor
    · rintro ⟨c, hc, h⟩
      exact ⟨some c, .sum hshape hc, h⟩
    · rintro ⟨c, hc, h⟩
      cases hc with
      | product hshape' => simp [hshape] at hshape'
      | @sum cs' _ c hshape' hc =>
        obtain ⟨rfl, -⟩ := TypeShape.sum.inj (hshape.symm.trans hshape')
        exact ⟨c, hc, h⟩

theorem typeOk_mono (h : ok ⊆ ok') (ht : typeOk fresh ok t = true) : typeOk fresh ok' t = true := by
  obtain ⟨c, hc, hall⟩ := typeOk_iff.mp ht
  exact typeOk_iff.mpr ⟨c, hc, fun f hf hm k hk hfresh => h (hall f hf hm k hk hfresh)⟩

theorem mem_round {k : TypeKey} :
    k ∈ round types ok ↔ ∃ t ∈ types, typeOk (types.map TypeDef.key) ok t = true ∧ t.key = k := by
  simp only [round, List.mem_map, List.mem_filter, and_assoc]

/-- Rounds keep what they found. -/
theorem round_sublist (h : ok ⊆ ok') : (round types ok).Sublist (round types ok') :=
  (List.monotone_filter_right types fun _ ht => typeOk_mono h ht).map TypeDef.key

theorem length_round_le : (round types ok).length ≤ types.length := by
  rw [round, List.length_map]
  exact List.length_filter_le _ _

/-! ## All rounds -/

/-- With enough rounds nothing is left to add. -/
theorem round_grow {n : Nat} (hok : ok.Sublist (round types ok))
    (hn : types.length ≤ n + ok.length) : round types (grow types n ok) = grow types n ok := by
  induction n generalizing ok with
  | zero =>
    have hle : (round types ok).length ≤ types.length := length_round_le
    exact (hok.eq_of_length_le (by omega)).symm
  | succ n ih =>
    unfold grow
    by_cases hlength : (round types ok).length = ok.length
    · simp only [hlength, if_true]
      exact (hok.eq_of_length hlength.symm).symm
    · simp only [hlength, if_false]
      have hle := hok.length_le
      exact ih (round_sublist hok.subset) (by omega)

theorem round_representable (types : List TypeDef) :
    round types (representable types) = representable types :=
  round_grow (List.nil_sublist _) (by simp)

/-- What holds of everything a round finds, if it holds of what was found before, holds of what all
rounds find. -/
theorem forall_mem_grow {P : TypeKey → Prop}
    (hround : ∀ ok, (∀ k ∈ ok, P k) → ∀ k ∈ round types ok, P k) {n : Nat} (hok : ∀ k ∈ ok, P k) :
    ∀ k ∈ grow types n ok, P k := by
  induction n generalizing ok with
  | zero => exact hok
  | succ n ih =>
    unfold grow
    dsimp only
    split
    · exact hok
    · exact ih (hround ok hok)

/-! ## The check -/

theorem check_eq_ok_iff_mem :
    check types = .ok () ↔ ∀ t ∈ types, t.key ∈ representable types := by
  unfold check
  dsimp only
  cases hfind : types.find? (·.key ∉ representable types) with
  | none =>
    rw [List.find?_eq_none] at hfind
    simp only [true_iff]
    exact fun t ht => by simpa using hfind t ht
  | some t =>
    have hmem := List.mem_of_find?_eq_some hfind
    have hnot := List.find?_some hfind
    simp only [reduceCtorEq, false_iff, not_forall]
    exact ⟨t, hmem, by simpa using hnot⟩

section

variable (hknown : ∀ t ∈ known, (TypeRef.declared t.key).HasValue known)
  (hrefs : ∀ t ∈ types, ∀ c, t.Alternative c → ∀ f ∈ Construct.declared t c, ∀ k,
    f.type = .declared k → ∃ t' ∈ known ++ types, t'.key = k)

include hknown hrefs in
/-- A field that can be filled has contents, if what was found before has values. -/
theorem hasContent_of_fieldOk
    (hok : ∀ k ∈ ok, (TypeRef.declared k).HasValue (known ++ types)) (ht : t ∈ types)
    {c : Option Constructor} (hc : t.Alternative c) {f : Field} (hf : f ∈ Construct.declared t c)
    (h : fieldOk (types.map TypeDef.key) ok f = true) : f.HasContent (known ++ types) := by
  refine Field.hasContent_iff.mpr fun hm => ?_
  cases hf' : f.type with
  | primitive p => exact TypeRef.hasValue_primitive p
  | declared k =>
    obtain ⟨t', ht', rfl⟩ := hrefs t ht c hc f hf k hf'
    rcases List.mem_append.mp ht' with ht' | ht'
    · exact (hknown t' ht').mono (List.subset_append_left _ _)
    · exact hok _ (fieldOk_iff.mp h hm _ hf' (List.mem_map_of_mem ht'))

include hknown hrefs in
/-- What the rounds find has a value. -/
theorem hasValue_of_mem_representable {k : TypeKey} (hk : k ∈ representable types) :
    (TypeRef.declared k).HasValue (known ++ types) := by
  refine forall_mem_grow (P := fun k => (TypeRef.declared k).HasValue (known ++ types))
    (fun ok hok k hk => ?_) (by simp) k hk
  obtain ⟨t, ht, hok', rfl⟩ := mem_round.mp hk
  obtain ⟨c, hc, hall⟩ := typeOk_iff.mp hok'
  refine TypeRef.hasValue_declared (List.mem_append_right _ ht) hc fun f hf => ?_
  exact Field.hasContent_iff.mp
    (hasContent_of_fieldOk hknown hrefs hok ht hc hf (fieldOk_iff.mpr (hall f hf)))

include hknown hrefs in
/-- The rounds find a type exactly if it has a value. -/
theorem mem_representable_iff (hfresh : ∀ t ∈ known, t.key ∉ types.map TypeDef.key)
    (ht : t ∈ types) :
    t.key ∈ representable types ↔ (TypeRef.declared t.key).HasValue (known ++ types) := by
  refine ⟨hasValue_of_mem_representable hknown hrefs, fun h => ?_⟩
  have hfound : ∀ r : TypeRef, r.HasValue (known ++ types) →
      ∀ k, r = .declared k → k ∈ types.map TypeDef.key → k ∈ representable types := by
    intro r hr
    refine hr.induct (P := fun r => ∀ k, r = .declared k → k ∈ types.map TypeDef.key →
      k ∈ representable types) (fun p k hk => by cases hk) fun t c ht hc hall k hk hmem => ?_
    obtain rfl := TypeRef.declared.inj hk
    rcases List.mem_append.mp ht with ht | ht
    · exact absurd hmem (hfresh t ht)
    · rw [← round_representable]
      exact mem_round.mpr ⟨t, ht, typeOk_iff.mpr ⟨c, hc, hall⟩, rfl⟩
  exact hfound _ h _ rfl (List.mem_map_of_mem ht)

include hknown hrefs in
/-- The types of a load pass the check if and only if each of them has a finite value. -/
theorem check_eq_ok_iff (hfresh : ∀ t ∈ known, t.key ∉ types.map TypeDef.key) :
    check types = .ok () ↔
      ∀ t ∈ types, (TypeRef.declared t.key).HasValue (known ++ types) := by
  rw [check_eq_ok_iff_mem]
  exact forall₂_congr fun t ht => mem_representable_iff hknown hrefs hfresh ht

end

end Schemata.Representable
