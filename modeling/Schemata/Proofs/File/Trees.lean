import Schemata.File.Disk
import Schemata.Proofs.File.Paths

/-!
# Disks as trees

On a disk that is a tree (`Disk.IsTree`) everything but the root stands in a directory. There a path
that leads to something by its names one after the other leads to the place that `resolve` gives it
by name alone (`Disk.IsTree.locate_eq_ok`), and a resolved path exists just when something stands at
its place. Making directories and writing a file keep the tree, and what stands on the disk stays
(`Disk.Keeps`).
-/

namespace Schemata.Disk

open FilePath (IsName IsPlace isPlace_nil isPlace_concat settleName absolute names split target)

variable {d d' d'' : Disk} {place above q : Place} {name path content : String}
  {rest : List String} {entry : FileEntry}

/-- Everything but the root stands in a directory, and the names of the working directory stand for
themselves. -/
structure IsTree (d : Disk) : Prop where
  current : IsPlace d.current
  above : ∀ place name, (d.find? (place ++ [name])).isSome → d.find? place = some .directory

/-- What stands on a disk also stands on another one, directories as directories. -/
structure Keeps (d d' : Disk) : Prop where
  current : d'.current = d.current
  directory : ∀ place, d.find? place = some .directory → d'.find? place = some .directory
  found : ∀ place, (d.find? place).isSome → (d'.find? place).isSome

theorem Keeps.refl (d : Disk) : d.Keeps d := ⟨rfl, fun _ h => h, fun _ h => h⟩

theorem Keeps.trans (h : d.Keeps d') (h' : d'.Keeps d'') : d.Keeps d'' where
  current := h'.current.trans h.current
  directory place hplace := h'.directory place (h.directory place hplace)
  found place hplace := h'.found place (h.found place hplace)

@[simp] theorem find?_nil (d : Disk) : d.find? [] = some .directory := by simp [find?]

/-- A disk with nothing on it. -/
theorem isTree_empty {current : Place} (h : IsPlace current) : IsTree ⟨current, []⟩ where
  current := h
  above place name hfound := by simp [find?] at hfound

/-! ## Putting and erasing -/

@[simp] theorem put_current (d : Disk) (place : Place) (entry : FileEntry) :
    (d.put place entry).current = d.current := by
  unfold put
  split <;> rfl

/-- Replacing what stands at a place of a list of entries. -/
theorem lookup_replace (entries : List (Place × FileEntry)) (place q : Place) (entry : FileEntry)
    (h : place ∈ entries.map Prod.fst) :
    (entries.map fun e => if e.1 = place then (place, entry) else e).lookup q =
      if q = place then some entry else entries.lookup q := by
  by_cases hq : q = place
  · subst hq
    rw [if_pos rfl]
    induction entries with
    | nil => simp at h
    | cons e entries ih =>
      obtain ⟨key, value⟩ := e
      by_cases hkey : key = q
      · simp [hkey]
      · have hne : (q == key) = false := beq_eq_false_iff_ne.mpr (Ne.symm hkey)
        have hmem : q ∈ entries.map Prod.fst := (List.mem_cons.mp h).resolve_left (Ne.symm hkey)
        simpa [List.lookup_cons, hkey, hne] using ih hmem
  · clear h
    rw [if_neg hq]
    induction entries with
    | nil => rfl
    | cons e entries ih =>
      obtain ⟨key, value⟩ := e
      by_cases hkey : key = place
      · have hne : (q == place) = false := beq_eq_false_iff_ne.mpr hq
        simpa [List.lookup_cons, hkey, hne] using ih
      · simp [List.lookup_cons, hkey, ih]

theorem lookup_of_notMem {entries : List (Place × FileEntry)}
    (h : place ∉ entries.map Prod.fst) : entries.lookup place = none := by
  rw [List.lookup_eq_none_iff]
  intro e he
  have hne : place ≠ e.1 := fun heq => h (heq ▸ List.mem_map_of_mem he)
  simpa using hne

theorem find?_put (d : Disk) (place q : Place) (entry : FileEntry) :
    (d.put place entry).find? q =
      if q = [] then some .directory else if q = place then some entry else d.find? q := by
  unfold put find?
  by_cases hroot : q = []
  · simp [hroot]
  simp only [hroot, if_false]
  split
  · next h => exact lookup_replace d.entries place q entry h
  · next h =>
    rw [List.lookup_append, List.lookup_cons]
    by_cases hq : q = place
    · subst hq
      simp [lookup_of_notMem h]
    · have hne : (q == place) = false := beq_eq_false_iff_ne.mpr hq
      simp [hq, hne]

/-- Something put where no directory is takes nothing away. -/
theorem keeps_put (h : d.find? place ≠ some .directory) (entry : FileEntry) :
    d.Keeps (d.put place entry) where
  current := put_current d place entry
  directory q hq := by
    have hne : q ≠ place := fun heq => h (heq ▸ hq)
    rw [find?_put, if_neg hne, hq, ite_self]
  found q hq := by
    rw [find?_put]
    split
    · rfl
    · split
      · rfl
      · exact hq

theorem IsTree.put (h : d.IsTree) (hplace : d.find? place = some .directory)
    (hfree : d.find? (place ++ [name]) ≠ some .directory) (entry : FileEntry) :
    (d.put (place ++ [name]) entry).IsTree where
  current := by simpa using h.current
  above q n hq := by
    have hkeeps := keeps_put hfree entry
    rw [find?_put, if_neg (List.append_ne_nil_of_right_ne_nil _ (List.cons_ne_nil _ _))] at hq
    by_cases heq : q ++ [n] = place ++ [name]
    · obtain ⟨rfl, -⟩ := List.append_inj' heq rfl
      exact hkeeps.directory _ hplace
    · rw [if_neg heq] at hq
      exact hkeeps.directory _ (h.above q n hq)

theorem lookup_filter (entries : List (Place × FileEntry)) (p : Place → Bool) (q : Place) :
    (entries.filter fun e => p e.1).lookup q = if p q then entries.lookup q else none := by
  induction entries with
  | nil => simp
  | cons e entries ih =>
    obtain ⟨key, value⟩ := e
    by_cases hq : q = key
    · subst hq
      by_cases hp : p q <;> simp [hp, ih]
    · have hne : (q == key) = false := beq_eq_false_iff_ne.mpr hq
      by_cases hp : p key <;> simp [hp, ih, List.lookup_cons, hne]

theorem find?_erase (d : Disk) (place q : Place) :
    (d.erase place).find? q =
      if q = [] then some .directory
      else if place.isPrefixOf q then none else d.find? q := by
  unfold erase find?
  by_cases hroot : q = []
  · simp [hroot]
  · simp only [hroot, if_false, lookup_filter d.entries (fun e => !place.isPrefixOf e) q]
    cases place.isPrefixOf q <;> simp

theorem IsTree.erase (h : d.IsTree) (place : Place) : (d.erase place).IsTree where
  current := h.current
  above q n hq := by
    rw [find?_erase, if_neg (List.append_ne_nil_of_right_ne_nil _ (List.cons_ne_nil _ _))] at hq
    by_cases hbelow : place.isPrefixOf (q ++ [n])
    · simp [hbelow] at hq
    · rw [if_neg hbelow] at hq
      have hnot : ¬place.isPrefixOf q := fun hq => hbelow
        (List.isPrefixOf_iff_prefix.mpr
          ((List.isPrefixOf_iff_prefix.mp hq).trans (List.prefix_append q [n])))
      rw [find?_erase, if_neg hnot, h.above q n hq, ite_self]

/-! ## Following names -/

/-- All that is above something is a directory. -/
theorem IsTree.directory_above (h : d.IsTree) (hq : (d.find? (place ++ name :: rest)).isSome) :
    d.find? place = some .directory := by
  induction rest generalizing place name with
  | nil => exact h.above place name hq
  | cons next rest ih =>
    rw [List.append_cons] at hq
    exact h.above place name (by rw [ih hq]; rfl)

theorem IsTree.directory_dropLast (h : d.IsTree) (hplace : d.find? place = some .directory) :
    d.find? place.dropLast = some .directory := by
  rcases List.eq_nil_or_concat place with rfl | ⟨before, last, heq⟩
  · simp
  · rw [List.concat_eq_append] at heq
    subst heq
    rw [List.dropLast_concat]
    exact h.above before last (by rw [hplace]; rfl)

/-- What can be followed on a disk can be followed where everything is kept. -/
theorem Keeps.follow (h : d.Keeps d') (hfollow : d.follow place rest = .ok q) :
    d'.follow place rest = .ok q := by
  fun_induction d.follow place rest with
  | case1 place => exact hfollow
  | case2 | case3 => cases hfollow
  | case4 place name rest hdir hskip ih =>
    rw [Disk.follow, h.directory _ hdir]
    simpa only [hskip, if_true] using ih hfollow
  | case5 place rest hdir hskip ih =>
    rw [Disk.follow, h.directory _ hdir]
    simpa using ih hfollow
  | case6 place name rest hdir hskip habove hsome ih =>
    rw [Disk.follow, h.directory _ hdir]
    simpa only [hskip, habove, h.found _ hsome, Bool.false_eq_true, if_true,
      if_false] using ih hfollow
  | case7 => cases hfollow

theorem pathExists_iff : d.pathExists path ↔ ∃ q, d.locate path = .ok q := by
  unfold pathExists
  cases d.locate path <;> simp [Except.toOption]

theorem Keeps.origin (h : d.Keeps d') (path : String) : d'.origin path = d.origin path := by
  simp only [Disk.origin, h.current]

theorem Keeps.locate (h : d.Keeps d') (hlocate : d.locate path = .ok q) :
    d'.locate path = .ok q := by
  unfold Disk.locate at hlocate ⊢
  split at hlocate
  · cases hlocate
  · next hne => rw [if_neg hne, h.origin, h.follow hlocate]

theorem Keeps.pathExists (h : d.Keeps d') (hpath : d.pathExists path) : d'.pathExists path := by
  obtain ⟨q, hq⟩ := pathExists_iff.mp hpath
  exact pathExists_iff.mpr ⟨q, h.locate hq⟩

/-- Names lead where they are settled to, and something stands there. -/
theorem IsTree.follow_eq_ok (h : d.IsTree) (hplace : IsPlace place)
    (hfound : (d.find? place).isSome) (hslash : ∀ name ∈ rest, '/' ∉ name.toList)
    (hfollow : d.follow place rest = .ok q) :
    q = (rest.foldl (settleName true) place.reverse).reverse ∧ (d.find? q).isSome := by
  have hreverse : ∀ {place : Place}, IsPlace place → IsPlace place.reverse :=
    fun h name hname => h name (List.mem_reverse.mp hname)
  -- the settled names are those of the place that is reached, last one first
  fun_induction d.follow place rest with
  | case1 place =>
    cases hfollow
    exact ⟨by simp, hfound⟩
  | case2 | case3 => cases hfollow
  | case4 place name rest hdir hskip ih =>
    have hname : name = "" ∨ name = "." := by simpa using hskip
    have hsettle : settleName true place.reverse name = place.reverse := by
      rcases hname with rfl | rfl <;> simp
    rw [List.foldl_cons, hsettle]
    exact ih hplace hfound (List.forall_mem_cons.mp hslash).2 hfollow
  | case5 place rest hdir hskip ih =>
    have hsettle : settleName true place.reverse ".." = place.dropLast.reverse := by
      rw [FilePath.settleName_above (hreverse hplace), List.tail_reverse]
    rw [List.foldl_cons, hsettle]
    exact ih hplace.dropLast (by rw [h.directory_dropLast hdir]; rfl)
      (List.forall_mem_cons.mp hslash).2 hfollow
  | case6 place name rest hdir hskip habove hsome ih =>
    obtain ⟨hfirst, hrest⟩ := List.forall_mem_cons.mp hslash
    have hname : IsName name := by
      have hne : name ≠ "" ∧ name ≠ "." := by simpa using hskip
      exact ⟨hne.1, hne.2, habove, hfirst⟩
    rw [List.foldl_cons, hname.settleName, ← List.reverse_concat]
    exact ih (isPlace_concat.mpr ⟨hplace, hname⟩) hsome hrest hfollow
  | case7 => cases hfollow

/-- The names of a place lead there from above. -/
theorem IsTree.follow_append (h : d.IsTree) (hrest : IsPlace rest)
    (hfound : (d.find? (place ++ rest)).isSome) : d.follow place rest = .ok (place ++ rest) := by
  induction rest generalizing place with
  | nil => simp [follow]
  | cons name rest ih =>
    obtain ⟨hname, hrest⟩ := List.forall_mem_cons.mp hrest
    rw [List.append_cons] at hfound ⊢
    have hnext : (d.find? (place ++ [name])).isSome := by
      cases rest with
      | nil => simpa using hfound
      | cons name' rest => rw [h.directory_above hfound]; rfl
    rw [follow, h.above place name hnext]
    simpa [hname.nonempty, hname.not_here, hname.not_above, hnext] using ih hrest hfound

/-! ## Making directories and writing -/

theorem keeps_of_makeAlong (hmake : d.makeAlong place rest = .ok d') : d.Keeps d' := by
  fun_induction d.makeAlong place rest with
  | case1 d place =>
    cases hmake
    exact .refl _
  | case2 d place name rest hskip ih => exact ih hmake
  | case3 d place rest hskip ih => exact ih hmake
  | case4 d place name rest hskip habove hdir ih => exact ih hmake
  | case5 => cases hmake
  | case6 d place name rest hskip habove hnone ih =>
    have hfree : d.find? (place ++ [name]) ≠ some .directory := by simp [hnone]
    exact (keeps_put hfree _).trans (ih hmake)

theorem IsTree.makeAlong (h : d.IsTree) (hplace : d.find? place = some .directory)
    (hmake : d.makeAlong place rest = .ok d') : d'.IsTree := by
  fun_induction Disk.makeAlong d place rest with
  | case1 d place =>
    cases hmake
    exact h
  | case2 d place name rest hskip ih => exact ih h hplace hmake
  | case3 d place rest hskip ih => exact ih h (h.directory_dropLast hplace) hmake
  | case4 d place name rest hskip habove hdir ih => exact ih h hdir hmake
  | case5 => cases hmake
  | case6 d place name rest hskip habove hnone ih =>
    have hfree : d.find? (place ++ [name]) ≠ some .directory := by simp [hnone]
    have hnew : (d.put (place ++ [name]) .directory).find? (place ++ [name]) =
        some .directory := by
      rw [find?_put, if_pos rfl, ite_self]
    exact ih (h.put hplace hfree _) hnew hmake

theorem makeDirectories_eq_ok (hmake : d.makeDirectories path = .ok d') :
    d.makeAlong (d.origin path) (split path) = .ok d' := by
  unfold makeDirectories at hmake
  split at hmake
  · cases hmake
  · cases halong : d.makeAlong (d.origin path) (split path) with
    | error fault => rw [halong] at hmake; cases hmake
    | ok d₁ => rw [halong] at hmake; exact congrArg _ (Except.ok.inj hmake)

/-- What writing does: it puts a file into a place that is none of a directory. -/
theorem write_eq_ok (hwrite : d.write path content = .ok d') :
    ∃ above name, name = (split path).getLast?.getD "" ∧
      d.follow (d.origin path) (split path).dropLast = .ok above ∧
      (∀ old, d.find? above ≠ some (.file old)) ∧
      d.find? (above ++ [name]) ≠ some .directory ∧
      d' = d.put (above ++ [name]) (.file content) := by
  unfold write at hwrite
  dsimp only at hwrite
  cases hfollow : d.follow (d.origin path) (split path).dropLast with
  | error fault => rw [hfollow] at hwrite; cases hwrite
  | ok above =>
    refine ⟨above, (split path).getLast?.getD "", rfl, rfl, ?_⟩
    rw [hfollow] at hwrite
    dsimp only at hwrite
    split at hwrite
    · cases hwrite
    · cases hwrite
    · next hfile hdir =>
      split at hwrite
      · cases hwrite
      split at hwrite
      · cases hwrite
      exact ⟨fun old h => hfile old h, fun h => hdir h, (Except.ok.inj hwrite).symm⟩

theorem keeps_of_write (hwrite : d.write path content = .ok d') : d.Keeps d' := by
  obtain ⟨above, name, -, -, -, hfree, rfl⟩ := write_eq_ok hwrite
  exact keeps_put hfree _

/-! ## Resolved paths -/

theorem origin_eq_nil (h : FilePath.isAbsolute path) : d.origin path = [] := if_pos h

/-- The place of a path by its names alone. -/
def placeOf (d : Disk) (path : String) : Place := target d.currentPath path

theorem isPlace_placeOf (d : Disk) (path : String) : IsPlace (d.placeOf path) :=
  FilePath.isPlace_target _ _

theorem resolve_eq_absolute (d : Disk) (path : String) :
    d.resolve path = absolute (d.placeOf path) :=
  FilePath.resolve_eq_absolute _ _

theorem resolve_absolute (d : Disk) (hq : IsPlace q) : d.resolve (absolute q) = absolute q :=
  FilePath.resolve_absolute _ hq

theorem IsTree.placeOf_eq (h : d.IsTree) (path : String) :
    d.placeOf path = ((split path).foldl (settleName true) (d.origin path).reverse).reverse := by
  unfold placeOf target origin
  split
  · rfl
  · rw [FilePath.names_append, currentPath, FilePath.names_absolute h.current]

theorem IsTree.isPlace_origin (h : d.IsTree) (path : String) : IsPlace (d.origin path) := by
  unfold origin
  split
  · exact isPlace_nil
  · exact h.current

/-- A path that leads somewhere leads to the place that it has by its names alone. -/
theorem IsTree.locate_eq_ok (h : d.IsTree) (hlocate : d.locate path = .ok q) :
    q = d.placeOf path ∧ (d.find? q).isSome := by
  unfold locate at hlocate
  split at hlocate
  · cases hlocate
  have horigin : (d.find? (d.origin path)).isSome := by
    cases hsplit : split path with
    | nil => exact absurd hsplit (FilePath.split_ne_nil path)
    | cons name rest =>
      rw [hsplit, follow] at hlocate
      cases hfind : d.find? (d.origin path) with
      | none => rw [hfind] at hlocate; cases hlocate
      | some entry => rfl
  rw [h.placeOf_eq]
  exact h.follow_eq_ok (h.isPlace_origin path) horigin
    (fun name => FilePath.no_slash_of_mem_split) hlocate

theorem IsTree.pathExists_absolute (h : d.IsTree) (hq : IsPlace q) :
    d.pathExists (absolute q) ↔ (d.find? q).isSome := by
  rw [pathExists_iff]
  constructor
  · rintro ⟨p, hp⟩
    obtain ⟨rfl, hfound⟩ := h.locate_eq_ok hp
    rwa [placeOf, FilePath.target_absolute _ hq] at hfound
  · intro hfound
    refine ⟨q, ?_⟩
    rw [locate, if_neg (FilePath.absolute_ne_empty q),
      origin_eq_nil (FilePath.isAbsolute_absolute q)]
    by_cases hne : q = []
    · subst hne
      have hsplit : split (absolute []) = ["", ""] := by decide
      simp [hsplit, follow]
    · have hfollow : d.follow [] q = .ok ([] ++ q) := h.follow_append hq hfound
      rw [FilePath.split_absolute hne hq, follow, find?_nil]
      simpa using hfollow

/-- What exists by a path also exists by the resolved path. -/
theorem IsTree.pathExists_resolve (h : d.IsTree) (hexists : d.pathExists path) :
    d.pathExists (d.resolve path) := by
  obtain ⟨q, hq⟩ := pathExists_iff.mp hexists
  obtain ⟨rfl, hfound⟩ := h.locate_eq_ok hq
  rw [resolve_eq_absolute, h.pathExists_absolute (d.isPlace_placeOf path)]
  exact hfound

/-! ## Absolute paths keep trees -/

theorem keeps_of_makeDirectories (hmake : d.makeDirectories path = .ok d') : d.Keeps d' :=
  keeps_of_makeAlong (makeDirectories_eq_ok hmake)

theorem IsTree.makeDirectories (h : d.IsTree) (habs : FilePath.isAbsolute path)
    (hmake : d.makeDirectories path = .ok d') : d'.IsTree := by
  have halong := makeDirectories_eq_ok hmake
  rw [origin_eq_nil habs] at halong
  exact h.makeAlong (find?_nil d) halong

theorem IsTree.write (h : d.IsTree) (habs : FilePath.isAbsolute path)
    (hwrite : d.write path content = .ok d') : d'.IsTree := by
  obtain ⟨above, name, -, hfollow, hfile, hfree, rfl⟩ := write_eq_ok hwrite
  rw [origin_eq_nil habs] at hfollow
  have hslash : ∀ name ∈ (split path).dropLast, '/' ∉ name.toList := fun name hname =>
    FilePath.no_slash_of_mem_split (List.dropLast_subset _ hname)
  obtain ⟨-, hfound⟩ := h.follow_eq_ok isPlace_nil (by simp) hslash hfollow
  have hdir : d.find? above = some .directory := by
    obtain ⟨entry, hentry⟩ := Option.isSome_iff_exists.mp hfound
    cases entry with
    | directory => exact hentry
    | file old => exact absurd hentry (hfile old)
  exact h.put hdir hfree _

/-- A file that can be read exists. -/
theorem pathExists_of_read (h : d.read path = .ok content) : d.pathExists path := by
  unfold read at h
  cases hlocate : d.locate path with
  | error fault => rw [hlocate] at h; cases h
  | ok q => exact pathExists_iff.mpr ⟨q, hlocate⟩

end Schemata.Disk
