import Mathlib.Data.List.Nodup

/-!
# Lists without repetition

What `eraseDups` leaves of a list has no repetition, and it leaves a list alone that has none.
-/

namespace Schemata.Lists

variable {α : Type} [DecidableEq α]

theorem nodup_eraseDups (as : List α) : as.eraseDups.Nodup := by
  induction h : as.length using Nat.strongRecOn generalizing as with
  | ind n ih =>
    cases as with
    | nil => exact List.nodup_nil
    | cons a as =>
      have hlt : (as.filter fun b => !b == a).length < n :=
        h ▸ Nat.lt_succ_of_le (List.length_filter_le _ _)
      rw [List.eraseDups_cons, List.nodup_cons, List.mem_eraseDups]
      exact ⟨by simp, ih _ hlt _ rfl⟩

theorem eraseDups_eq_self {as : List α} (h : as.Nodup) : as.eraseDups = as := by
  induction as with
  | nil => rfl
  | cons a as ih =>
    obtain ⟨ha, has⟩ := List.nodup_cons.mp h
    have hfilter : as.filter (fun b => !b == a) = as := by
      refine List.filter_eq_self.mpr fun b hb => ?_
      have hne : b ≠ a := fun heq => ha (heq ▸ hb)
      simpa using hne
    rw [List.eraseDups_cons, hfilter, ih has]

end Schemata.Lists
