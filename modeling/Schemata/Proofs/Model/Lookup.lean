import Schemata.Model
import Schemata.Proofs.Outcome

/-!
# Looking up types

What `Model.lookup` and `Model.getType` find is a type of the model. A qualified name finds the one
type that has it, where modules are named differently and without dots (`Model.lookup_id`): the
first dot of a qualified name then ends the name of the module.
-/

namespace Schemata

/-- Qualified names are read in one way if the names of modules have no dots. -/
theorem TypeKey.eq_of_id_eq {k k' : TypeKey} (hk : '.' ∉ k.module.toList)
    (hk' : '.' ∉ k'.module.toList) (h : k.id = k'.id) : k.module = k'.module ∧ k.name = k'.name := by
  have hlist : ∀ k : TypeKey, k.id.toList = k.module.toList ++ '.' :: k.name.toList := by
    intro k
    rw [TypeKey.id, String.toList_append, String.toList_append, List.append_assoc]
    rfl
  have hmodule : ∀ k : TypeKey, '.' ∉ k.module.toList →
      k.id.toList.takeWhile (· ≠ '.') = k.module.toList := by
    intro k hk
    have hall : ∀ c ∈ k.module.toList, (decide (c ≠ '.')) = true := by
      intro c hc
      rw [decide_eq_true_eq]
      rintro rfl
      exact hk hc
    rw [hlist, List.takeWhile_append_of_pos hall, List.takeWhile_cons_of_neg (by simp),
      List.append_nil]
  have hmodules : k.module.toList = k'.module.toList := by
    rw [← hmodule k hk, ← hmodule k' hk', h]
  have hnames : k.name.toList = k'.name.toList := by
    have hids := congrArg String.toList h
    rw [hlist, hlist, hmodules] at hids
    exact (List.cons.inj (List.append_cancel_left hids)).2
  exact ⟨String.toList_injective hmodules, String.toList_injective hnames⟩

namespace Model

variable {m : Model} {name : String} {t : TypeDef}

theorem mem_of_lookup_eq_some (h : m.lookup name = some t) : t ∈ m.types := by
  unfold lookup at h
  split at h
  · exact List.mem_reverse.mp (List.mem_of_find?_eq_some h)
  · exact List.mem_of_find?_eq_some h

theorem getType_eq_ok : m.getType name = .ok t ↔ m.lookup name = some t := by
  unfold getType
  cases m.lookup name <;> simp

theorem mem_of_getType_eq_ok (h : m.getType name = .ok t) : t ∈ m.types :=
  mem_of_lookup_eq_some (getType_eq_ok.mp h)

/-- The qualified name of a type finds it if no other type has this name. -/
theorem lookup_id (ht : t ∈ m.types) (hunique : ∀ t' ∈ m.types, t'.id = t.id → t' = t) :
    m.lookup t.id = some t := by
  have hdot : '.' ∈ t.id.toList := by
    rw [TypeDef.id, TypeKey.id, String.toList_append, String.toList_append]
    exact List.mem_append_left _ (List.mem_append_right _ List.mem_cons_self)
  unfold lookup byId
  rw [if_pos hdot]
  refine Outcome.find?_eq_some_of_unique (List.mem_reverse.mpr ht) (decide_eq_true rfl)
    fun t' ht' hid => ?_
  exact hunique t' (List.mem_reverse.mp ht') (of_decide_eq_true hid)

/-- The type of a bare name is the first one that has it. -/
theorem lookup_eq_some_iff_first (hname : '.' ∉ name.toList) :
    m.lookup name = some t ↔ ∃ before after, m.types = before ++ t :: after ∧ t.name = name ∧
      ∀ e ∈ before, e.name ≠ name := by
  rw [lookup, if_neg hname, byName, List.find?_eq_some_iff_append]
  simp only [decide_eq_true_eq, Bool.not_eq_true', decide_eq_false_iff_not]
  constructor
  · rintro ⟨ht, before, after, htypes, hbefore⟩
    exact ⟨before, after, htypes, ht, hbefore⟩
  · rintro ⟨before, after, htypes, ht, hbefore⟩
    exact ⟨ht, before, after, htypes, hbefore⟩

end Model

end Schemata
