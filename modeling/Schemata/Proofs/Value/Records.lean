import Mathlib.Data.List.Induction
import Mathlib.Data.List.Nodup
import Mathlib.Data.List.Perm.Basic
import Schemata.Record

/-!
# Entries of records

What a record holds does not depend on where its entries stand: giving a key adds an entry, or
replaces that of the key (`Record.mem_insert`), and no key has two entries (`Record.nodup_ofList`).
Of entries that are given one after the other those of the last keys are kept, and of the ones
before them those whose keys are not given again (`Record.mem_ofList_append`). So entries with
different keys make records with the same entries in whatever order they are given
(`Record.ofList_perm`).
-/

namespace Schemata.Record

variable {α : Type} {r r' : Record α} {es fs : List (String × α)} {e : String × α}
  {key other : String} {value : α}

/-! ## What keys hold -/

theorem mem_of_get? (h : r.get? key = some value) : value ∈ r.entries.map Prod.snd := by
  obtain ⟨e, he, rfl⟩ := Option.map_eq_some_iff.mp h
  exact List.mem_map_of_mem (List.mem_of_find?_eq_some he)

theorem get?_cons_self : (Record.mk ((key, value) :: es)).get? key = some value := by
  simp [get?]

theorem get?_cons_of_ne (h : other ≠ key) :
    (Record.mk ((other, value) :: es)).get? key = (Record.mk es).get? key := by
  simp [get?, h]

theorem get?_eq_none_iff : r.get? key = none ↔ key ∉ r.keys := by
  unfold get? keys
  rw [Option.map_eq_none_iff, List.find?_eq_none]
  simp only [decide_eq_true_eq, List.mem_map, not_exists, not_and]

/-- What a key holds is in its only entry. -/
theorem get?_eq_some_iff (h : r.keys.Nodup) : r.get? key = some value ↔ (key, value) ∈ r.entries := by
  unfold get?
  constructor
  · intro hget
    obtain ⟨e, he, rfl⟩ := Option.map_eq_some_iff.mp hget
    obtain rfl : e.1 = key := by simpa using List.find?_some he
    exact List.mem_of_find?_eq_some he
  · intro hmem
    cases hfind : r.entries.find? (·.1 = key) with
    | none => exact absurd (decide_eq_true rfl) (List.find?_eq_none.mp hfind _ hmem)
    | some e =>
      have hkey : e.1 = key := by simpa using List.find?_some hfind
      rw [List.inj_on_of_nodup_map h (List.mem_of_find?_eq_some hfind) hmem hkey]
      rfl

/-- Where entries stand makes no difference to what keys hold. -/
theorem get?_eq_of_perm (h : r.keys.Nodup) (hperm : r.entries.Perm r'.entries) :
    r'.get? key = r.get? key := by
  have h' : r'.keys.Nodup := (hperm.map Prod.fst).nodup_iff.mp h
  refine Option.ext fun value => ?_
  rw [get?_eq_some_iff h, get?_eq_some_iff h', hperm.mem_iff]

/-! ## Giving keys -/

theorem place_perm (key : String) (value : α) (es : List (String × α)) :
    (place key value es).Perm ((key, value) :: es) := by
  induction es with
  | nil => exact .refl _
  | cons e es ih =>
    unfold place
    split_ifs
    · exact .refl _
    · exact (ih.cons e).trans (.swap _ _ es)

theorem mem_insert :
    e ∈ (r.insert key value).entries ↔ e = (key, value) ∨ e.1 ≠ key ∧ e ∈ r.entries := by
  unfold insert
  split_ifs with hkey
  · rw [List.mem_map]
    constructor
    · rintro ⟨e', he', rfl⟩
      split_ifs with heq
      · exact .inl rfl
      · exact .inr ⟨heq, he'⟩
    · rintro (rfl | ⟨hne, he⟩)
      · obtain ⟨e', he', heq⟩ := List.mem_map.mp hkey
        exact ⟨e', he', if_pos heq⟩
      · exact ⟨e, he, if_neg hne⟩
  · rw [(place_perm key value r.entries).mem_iff, List.mem_cons]
    refine or_congr_right (iff_and_self.mpr fun he heq => ?_)
    exact hkey (heq ▸ List.mem_map_of_mem he)

theorem mem_keys_insert :
    other ∈ (r.insert key value).keys ↔ other = key ∨ other ∈ r.keys := by
  simp only [keys, List.mem_map, mem_insert]
  constructor
  · rintro ⟨e, rfl | ⟨-, he⟩, rfl⟩
    · exact .inl rfl
    · exact .inr ⟨e, he, rfl⟩
  · rintro (rfl | ⟨e, he, rfl⟩)
    · exact ⟨_, .inl rfl, rfl⟩
    · by_cases heq : e.1 = key
      · exact ⟨_, .inl rfl, heq.symm⟩
      · exact ⟨e, .inr ⟨heq, he⟩, rfl⟩

theorem nodup_insert (h : r.keys.Nodup) : (r.insert key value).keys.Nodup := by
  unfold insert
  split_ifs with hkey
  · have hkeys : (r.entries.map fun e => if e.1 = key then (key, value) else e).map Prod.fst =
        r.entries.map Prod.fst := by
      rw [List.map_map]
      refine List.map_congr_left fun e _ => ?_
      simp only [Function.comp_apply]
      split_ifs with heq
      · exact heq.symm
      · rfl
    rwa [keys, hkeys]
  · rw [keys, ((place_perm key value r.entries).map Prod.fst).nodup_iff]
    exact List.nodup_cons.mpr ⟨hkey, h⟩

theorem ofList_append_singleton (es : List (String × α)) (e : String × α) :
    ofList (es ++ [e]) = (ofList es).insert e.1 e.2 := by
  rw [ofList, List.foldl_append]
  rfl

theorem mem_keys_ofList : key ∈ (ofList es).keys ↔ key ∈ es.map Prod.fst := by
  induction es using List.reverseRecOn with
  | nil => exact Iff.rfl
  | append_singleton es e ih =>
    rw [ofList_append_singleton, mem_keys_insert, ih]
    simp [or_comm]

theorem nodup_ofList (es : List (String × α)) : (ofList es).keys.Nodup := by
  induction es using List.reverseRecOn with
  | nil => exact List.nodup_nil
  | append_singleton es e ih =>
    rw [ofList_append_singleton]
    exact nodup_insert ih

/-- Entries with different keys are kept, and before them those whose keys are not among theirs. -/
theorem mem_ofList_append (h : (fs.map Prod.fst).Nodup) :
    e ∈ (ofList (es ++ fs)).entries ↔
      e ∈ fs ∨ e.1 ∉ fs.map Prod.fst ∧ e ∈ (ofList es).entries := by
  induction fs using List.reverseRecOn with
  | nil => simp
  | append_singleton fs f ih =>
    rw [List.map_append, List.nodup_append] at h
    obtain ⟨hfs, -, hfresh⟩ := h
    have hf : f.1 ∉ fs.map Prod.fst := fun hmem => hfresh _ hmem _ (by simp) rfl
    rw [← List.append_assoc, ofList_append_singleton, mem_insert, ih hfs]
    simp only [List.mem_append, List.mem_singleton, List.map_append, List.map_cons, List.map_nil,
      not_or]
    constructor
    · rintro (rfl | ⟨hne, he | ⟨hmem, he⟩⟩)
      · exact .inl (.inr rfl)
      · exact .inl (.inl he)
      · exact .inr ⟨⟨hmem, hne⟩, he⟩
    · rintro ((he | rfl) | ⟨⟨hmem, hne⟩, he⟩)
      · exact .inr ⟨fun heq => hf (heq ▸ List.mem_map_of_mem he), .inl he⟩
      · exact .inl rfl
      · exact .inr ⟨hne, .inr ⟨hmem, he⟩⟩

/-- Entries with different keys make up a record that has them, in some order. -/
theorem ofList_perm_self (h : (es.map Prod.fst).Nodup) : (ofList es).entries.Perm es := by
  refine (List.perm_ext_iff_of_nodup (List.Nodup.of_map Prod.fst (nodup_ofList es))
    (List.Nodup.of_map Prod.fst h)).mpr fun e => ?_
  have hmem : e ∈ (ofList ([] ++ es)).entries ↔ _ := mem_ofList_append h
  exact hmem.trans (or_iff_left fun ⟨_, he⟩ => by cases he)

theorem ofList_perm (h : (es.map Prod.fst).Nodup) (hperm : es.Perm fs) :
    (ofList es).entries.Perm (ofList fs).entries :=
  (ofList_perm_self h).trans (hperm.trans
    (ofList_perm_self ((hperm.map Prod.fst).nodup_iff.mp h)).symm)

/-! ## Entries changed one by one -/

variable {β : Type} {g : α → β}

theorem place_map : place key (g value) (es.map fun e => (e.1, g e.2)) =
    (place key value es).map fun e => (e.1, g e.2) := by
  induction es with
  | nil => rfl
  | cons e es ih =>
    rw [List.map_cons, place, place, ih]
    split_ifs <;> rfl

theorem entries_insert_map {r' : Record β} (h : r'.entries = r.entries.map fun e => (e.1, g e.2)) :
    (r'.insert key (g value)).entries = (r.insert key value).entries.map fun e => (e.1, g e.2) := by
  have hkeys : r'.keys = r.keys := by
    rw [keys, h, List.map_map]
    rfl
  unfold insert
  rw [hkeys]
  split_ifs
  · simp only [h, List.map_map]
    refine List.map_congr_left fun e _ => ?_
    simp only [Function.comp_apply]
    split_ifs <;> rfl
  · simp only [h, place_map]

/-- Changing what the keys hold before or after the entries are given makes no difference. -/
theorem entries_ofList_map (g : α → β) (es : List (String × α)) :
    (ofList (es.map fun e => (e.1, g e.2))).entries =
      (ofList es).entries.map fun e => (e.1, g e.2) := by
  induction es using List.reverseRecOn with
  | nil => rfl
  | append_singleton es e ih =>
    rw [List.map_append, List.map_singleton, ofList_append_singleton, ofList_append_singleton]
    exact entries_insert_map ih

end Schemata.Record
