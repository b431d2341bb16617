import Schemata.File.Path

/-!
# Absolute paths and their names

An absolute path is read as the names that lead to its place from the root. `names` gives names that
stand for themselves (`IsPlace`), and from such names `absolute` makes the path of which they are
the names again. So what `resolve` makes of a path is fixed by `resolve`, against any base.
-/

namespace Schemata.FilePath

/-- A name that stands for itself in a path. -/
structure IsName (name : String) : Prop where
  nonempty : name ≠ ""
  not_here : name ≠ "."
  not_above : name ≠ ".."
  no_slash : '/' ∉ name.toList

/-- The names on the way from the root to a place. -/
def IsPlace (names : List String) : Prop := ∀ name ∈ names, IsName name

theorem isPlace_nil : IsPlace [] := by simp [IsPlace]

theorem IsPlace.dropLast {names : List String} (h : IsPlace names) : IsPlace names.dropLast :=
  fun name hname => h name (List.dropLast_subset _ hname)

theorem isPlace_concat {names : List String} {name : String} :
    IsPlace (names ++ [name]) ↔ IsPlace names ∧ IsName name := by
  simp [IsPlace, or_imp, forall_and]

/-! ## Splitting -/

theorem splitChars_eq_splitOn (cs : List Char) : splitChars cs = cs.splitOn '/' := by
  induction cs with
  | nil => rfl
  | cons c cs ih =>
    rw [splitChars, ih, List.splitOn, List.splitOn, List.splitOnP_cons_eq_if_modifyHead]
    by_cases hc : c = '/'
    · simp [hc]
    · rw [if_neg hc, if_neg (by simpa using hc)]
      cases hpieces : cs.splitOnP (· == '/') with
      | nil => exact absurd hpieces (List.splitOnP_ne_nil _ _)
      | cons piece pieces => rfl

theorem split_ne_nil (path : String) : split path ≠ [] := by
  rw [split, splitChars_eq_splitOn, List.splitOn]
  exact fun h => List.splitOnP_ne_nil _ _ (List.map_eq_nil_iff.mp h)

/-- What stands before and after a slash is split by itself. -/
theorem split_append (a b : String) : split (a ++ "/" ++ b) = split a ++ split b := by
  have happend : (a.toList ++ '/' :: b.toList).splitOnP (· == '/') =
      a.toList.splitOnP (· == '/') ++ b.toList.splitOnP (· == '/') :=
    List.splitOnP_append_cons _ _ rfl
  simp only [split, splitChars_eq_splitOn, List.splitOn, String.toList_append, List.append_assoc]
  rw [show "/".toList = ['/'] from rfl, List.singleton_append, happend, List.map_append]

theorem no_slash_of_mem_split {path name : String} (h : name ∈ split path) :
    '/' ∉ name.toList := by
  obtain ⟨piece, hpiece, rfl⟩ := List.mem_map.mp h
  rw [String.toList_ofList]
  have hall : ∀ (cs : List Char), ∀ piece ∈ splitChars cs, '/' ∉ piece := by
    intro cs
    fun_induction splitChars cs with
    | case1 => simp
    | case2 cs ih => simpa using ih
    | case3 c cs hc hsplit ih => simpa using Ne.symm hc
    | case4 c cs hc first rest hsplit ih =>
      rw [hsplit] at ih
      intro piece hpiece
      rcases List.mem_cons.mp hpiece with rfl | hpiece
      · simpa using ⟨Ne.symm hc, ih first (List.mem_cons_self ..)⟩
      · exact ih piece (List.mem_cons_of_mem _ hpiece)
  exact hall _ _ hpiece

theorem split_intercalate {names : List String} (hne : names ≠ [])
    (h : ∀ name ∈ names, '/' ∉ name.toList) : split ("/".intercalate names) = names := by
  have hslash : ∀ piece ∈ names.map String.toList, '/' ∉ piece := by
    intro piece hpiece
    obtain ⟨name, hname, rfl⟩ := List.mem_map.mp hpiece
    exact h name hname
  rw [split, splitChars_eq_splitOn, String.toList_intercalate, show "/".toList = ['/'] from rfl,
    List.splitOn_intercalate _ hslash (by simpa using hne), List.map_map]
  simp [Function.comp_def]

/-- The path of a place begins at the root, which is before its first slash. -/
theorem split_absolute {names : List String} (hne : names ≠ []) (h : IsPlace names) :
    split (absolute names) = "" :: names := by
  have happend := split_append "" ("/".intercalate names)
  rw [String.empty_append, split_intercalate hne fun name hname => (h name hname).no_slash]
    at happend
  exact happend

theorem isAbsolute_absolute (names : List String) : isAbsolute (absolute names) = true := by
  simp [isAbsolute, absolute]

theorem absolute_ne_empty (names : List String) : absolute names ≠ "" := by
  intro h
  have := isAbsolute_absolute names
  rw [h] at this
  exact absurd this (by decide)

/-! ## Settling -/

@[simp] theorem settleName_empty (absolute : Bool) (settled : List String) :
    settleName absolute settled "" = settled := rfl

@[simp] theorem settleName_here (absolute : Bool) (settled : List String) :
    settleName absolute settled "." = settled := rfl

theorem IsName.settleName {name : String} (h : IsName name) (absolute : Bool)
    (settled : List String) : settleName absolute settled name = name :: settled := by
  simp [FilePath.settleName, h.nonempty, h.not_here, h.not_above]

/-- From the root on no `..` is left over: it takes the last name away, if there is one. -/
theorem settleName_above {settled : List String} (h : IsPlace settled) :
    settleName true settled ".." = settled.tail := by
  cases settled with
  | nil => rfl
  | cons last before => simp [settleName, (h last (List.mem_cons_self ..)).not_above]

theorem isPlace_settleName {settled : List String} {name : String} (h : IsPlace settled)
    (hslash : '/' ∉ name.toList) : IsPlace (settleName true settled name) := by
  by_cases hempty : name = ""
  · rwa [hempty, settleName_empty]
  by_cases hhere : name = "."
  · rwa [hhere, settleName_here]
  by_cases habove : name = ".."
  · rw [habove, settleName_above h]
    exact fun name hname => h name (List.mem_of_mem_tail hname)
  · have hname : IsName name := ⟨hempty, hhere, habove, hslash⟩
    rw [hname.settleName]
    exact List.forall_mem_cons.mpr ⟨hname, h⟩

theorem isPlace_settled {names settled : List String} (h : IsPlace settled)
    (hslash : ∀ name ∈ names, '/' ∉ name.toList) :
    IsPlace (names.foldl (settleName true) settled) := by
  induction names generalizing settled with
  | nil => exact h
  | cons name names ih =>
    obtain ⟨hname, hnames⟩ := List.forall_mem_cons.mp hslash
    exact ih (isPlace_settleName h hname) hnames

theorem IsPlace.foldl_settleName {names : List String} (h : IsPlace names)
    (settled : List String) :
    names.foldl (settleName true) settled = names.reverse ++ settled := by
  induction names generalizing settled with
  | nil => rfl
  | cons name names ih =>
    obtain ⟨hname, hnames⟩ := List.forall_mem_cons.mp h
    simp [hname.settleName, ih hnames]

/-! ## Names of paths -/

theorem isPlace_names (path : String) : IsPlace (names path) := by
  intro name hname
  exact isPlace_settled isPlace_nil (fun name => no_slash_of_mem_split) name
    (List.mem_reverse.mp hname)

theorem names_absolute {q : List String} (h : IsPlace q) : names (absolute q) = q := by
  by_cases hne : q = []
  · subst hne
    rfl
  · rw [names, split_absolute hne h, settle, List.foldl_cons, settleName_empty,
      h.foldl_settleName, List.append_nil, List.reverse_reverse]

/-- The names behind a base are settled from the names of the base on. -/
theorem names_append (base path : String) :
    names (base ++ "/" ++ path) =
      ((split path).foldl (settleName true) (names base).reverse).reverse := by
  rw [names, split_append, settle, List.foldl_append, names, settle, List.reverse_reverse]

/-! ## Resolved paths -/

/-- The place that a path leads to from a base, by its names alone. -/
def target (base path : String) : List String :=
  if isAbsolute path then names path else names (base ++ "/" ++ path)

theorem resolve_eq_absolute (base path : String) :
    resolve base path = absolute (target base path) := by
  unfold resolve target
  split <;> rfl

theorem isAbsolute_resolve (base path : String) : isAbsolute (resolve base path) := by
  rw [resolve_eq_absolute]
  exact isAbsolute_absolute _

theorem isPlace_target (base path : String) : IsPlace (target base path) := by
  unfold target
  split <;> exact isPlace_names _

theorem target_absolute (base : String) {q : List String} (h : IsPlace q) :
    target base (absolute q) = q := by
  rw [target, if_pos (isAbsolute_absolute q), names_absolute h]

theorem resolve_absolute (base : String) {q : List String} (h : IsPlace q) :
    resolve base (absolute q) = absolute q := by
  rw [resolve_eq_absolute, target_absolute base h]

theorem resolve_resolve (base base' path : String) :
    resolve base' (resolve base path) = resolve base path := by
  rw [resolve_eq_absolute base, resolve_absolute _ (isPlace_target base path)]

end Schemata.FilePath
