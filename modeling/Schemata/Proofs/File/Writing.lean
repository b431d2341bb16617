import Schemata.Proofs.File.Trees

/-!
# Files in a directory

A path that is joined with a name leads to this name in the directory that the path leads to, though
`join` settles the path by its names alone while files are followed name by name (`follow_settle`).
So what is written there can be read there (`read_join`), and nothing else changes (`write_join`). A
directory that was made can be followed to (`IsTree.locate_of_makeDirectories`), and making it adds
nothing but directories (`find?_of_makeDirectories`).
-/

namespace Schemata

namespace FilePath

variable {name path : String} {names settled : List String} {absolute : Bool}

/-! ## Joining -/

/-- A name that settling leaves: it stands for itself or leads above the base. -/
def IsStep (name : String) : Prop := IsName name ∨ name = ".."

theorem IsStep.ne_empty (h : IsStep name) : name ≠ "" := by
  rcases h with h | rfl
  · exact h.nonempty
  · decide

theorem IsStep.no_slash (h : IsStep name) : '/' ∉ name.toList := by
  rcases h with h | rfl
  · exact h.no_slash
  · decide

theorem isStep_settleName (h : ∀ n ∈ settled, IsStep n) (hslash : '/' ∉ name.toList) :
    ∀ n ∈ settleName absolute settled name, IsStep n := by
  by_cases hempty : name = ""
  · rwa [hempty, settleName_empty]
  by_cases hhere : name = "."
  · rwa [hhere, settleName_here]
  by_cases habove : name = ".."
  · subst habove
    cases settled with
    | nil => cases absolute <;> simp [settleName, IsStep]
    | cons last before =>
      by_cases hlast : last = ".."
      · simpa [settleName, hlast, IsStep] using h
      · simpa [settleName, hlast] using (List.forall_mem_cons.mp h).2
  · have hname : IsName name := ⟨hempty, hhere, habove, hslash⟩
    rw [hname.settleName]
    exact List.forall_mem_cons.mpr ⟨.inl hname, h⟩

theorem isStep_settled (h : ∀ n ∈ settled, IsStep n) (hslash : ∀ n ∈ names, '/' ∉ n.toList) :
    ∀ n ∈ names.foldl (settleName absolute) settled, IsStep n := by
  induction names generalizing settled with
  | nil => exact h
  | cons name names ih =>
    obtain ⟨hname, hnames⟩ := List.forall_mem_cons.mp hslash
    exact ih (isStep_settleName h hname) hnames

theorem isStep_settle (hslash : ∀ n ∈ names, '/' ∉ n.toList) :
    ∀ n ∈ settle absolute names, IsStep n := fun n hn =>
  isStep_settled (by simp) hslash n (List.mem_reverse.mp hn)

theorem settle_concat (h : IsName name) (absolute : Bool) (names : List String) :
    settle absolute (names ++ [name]) = settle absolute names ++ [name] := by
  rw [settle, List.foldl_append, List.foldl_cons, List.foldl_nil, h.settleName,
    List.reverse_cons, settle]

theorem split_name (h : '/' ∉ name.toList) : split name = [name] := by
  have hsplit : split ("/".intercalate [name]) = [name] :=
    split_intercalate (by simp) (by simpa using h)
  rwa [show "/".intercalate [name] = name by simp [String.intercalate_singleton]] at hsplit

/-- The first name of a path is empty if nothing stands before its first slash. -/
theorem isAbsolute_iff_head : isAbsolute path ↔ path ≠ "" ∧ (split path).head? = some "" := by
  unfold isAbsolute split
  cases hpath : path.toList with
  | nil => simp [String.toList_eq_nil_iff.mp hpath]
  | cons c cs =>
    have hne : path ≠ "" := by
      rintro rfl
      cases hpath
    rw [splitChars]
    by_cases hc : c = '/'
    · simp [hc, hne]
    · cases splitChars cs <;> simp [hc]

theorem isAbsolute_append (hpath : path ≠ "") (name : String) :
    isAbsolute (path ++ "/" ++ name) = isAbsolute path := by
  unfold isAbsolute
  cases hlist : path.toList with
  | nil => exact absurd (String.toList_eq_nil_iff.mp hlist) hpath
  | cons c cs => simp [hlist]

/-- A joined path begins at the root if the path did, and its names are the settled ones of the path
and the name. -/
theorem split_join (hpath : path ≠ "") (hname : IsName name) :
    isAbsolute (join path name) = isAbsolute path ∧
      split (join path name) = (if isAbsolute path then [""] else []) ++
        settle (isAbsolute path) (split path) ++ [name] := by
  have hsplit : split (path ++ "/" ++ name) = split path ++ [name] := by
    rw [split_append, split_name hname.no_slash]
  have hsettle := settle_concat hname (isAbsolute path) (split path)
  have hsteps : ∀ n ∈ settle (isAbsolute path) (split path) ++ [name], IsStep n := by
    rw [← hsettle, ← hsplit]
    exact isStep_settle fun n => no_slash_of_mem_split
  rw [join, if_neg hpath, isAbsolute_append hpath]
  by_cases habs : isAbsolute path
  · rw [habs] at hsettle
    have hnames : names (path ++ "/" ++ name) = settle true (split path) ++ [name] := by
      rw [names, hsplit, hsettle]
    have hplace : IsPlace (settle true (split path) ++ [name]) := hnames ▸ isPlace_names _
    rw [if_pos habs, if_pos habs, habs, hnames,
      split_absolute (List.append_ne_nil_of_right_ne_nil _ (List.cons_ne_nil _ _)) hplace]
    exact ⟨isAbsolute_absolute _, rfl⟩
  · rw [Bool.not_eq_true] at habs
    rw [habs] at hsettle hsteps
    have hjoin : split ("/".intercalate (settle false (split path) ++ [name])) =
        settle false (split path) ++ [name] :=
      split_intercalate (by simp) fun n hn => (hsteps n hn).no_slash
    rw [habs, if_neg Bool.false_ne_true, if_neg Bool.false_ne_true, hsplit, hsettle, hjoin]
    refine ⟨?_, by simp⟩
    rw [Bool.eq_false_iff, Ne, isAbsolute_iff_head, hjoin]
    rintro ⟨-, hhead⟩
    exact (hsteps "" (List.mem_of_head? hhead)).ne_empty rfl

theorem join_inj {name' : String} (hpath : path ≠ "") (hname : IsName name)
    (hname' : IsName name') (h : join path name = join path name') : name = name' := by
  have hlast := congrArg List.getLast? ((split_join hpath hname).2.symm.trans
    ((congrArg split h).trans (split_join hpath hname').2))
  rw [List.getLast?_concat, List.getLast?_concat] at hlast
  exact Option.some.inj hlast

theorem join_ne_empty (hpath : path ≠ "") (hname : IsName name) : join path name ≠ "" := by
  intro h
  have hsplit := (split_join hpath hname).2
  have hname' : "" = name := by
    have hlast := congrArg List.getLast? hsplit
    rw [List.getLast?_concat, h] at hlast
    exact Option.some.inj hlast
  exact hname.nonempty hname'.symm

end FilePath

namespace Disk

open FilePath (IsName IsStep settle settleName split join)

variable {d d' : Disk} {base place q directory : Place} {name path content : String}
  {rest settled : List String} {absolute : Bool}

/-! ## Following settled names -/

theorem follow_append_eq_ok {a b : List String} :
    d.follow place (a ++ b) = .ok q ↔ ∃ p, d.follow place a = .ok p ∧ d.follow p b = .ok q := by
  fun_induction d.follow place a with
  | case1 place => simp
  | case2 place name rest hnone => simp [follow, hnone]
  | case3 place name rest content hfile => simp [follow, hfile]
  | case4 place name rest hdir hskip ih => simpa [follow, hdir, hskip] using ih
  | case5 place rest hdir hskip ih => simpa [follow, hdir] using ih
  | case6 place name rest hdir hskip habove hsome ih =>
    simpa [follow, hdir, hskip, habove, hsome] using ih
  | case7 place name rest hdir hskip habove hnone =>
    simp [follow, hdir, hskip, habove, hnone]

theorem follow_name_eq_ok (hname : IsName name) :
    d.follow place [name] = .ok q ↔ d.find? place = some .directory ∧
      (d.find? (place ++ [name])).isSome ∧ place ++ [name] = q := by
  rw [follow]
  cases hfind : d.find? place with
  | none => simp
  | some entry =>
    cases entry with
    | file text => simp
    | directory =>
      by_cases hsome : (d.find? (place ++ [name])).isSome <;>
        simp [hname.nonempty, hname.not_here, hname.not_above, hsome, follow]

theorem follow_above_eq_ok :
    d.follow place [".."] = .ok q ↔ d.find? place = some .directory ∧ place.dropLast = q := by
  rw [follow]
  cases hfind : d.find? place with
  | none => simp
  | some entry => cases entry <;> simp [follow]

/-- A name that is followed from where settled names lead is followed when it is settled with
them. -/
theorem follow_settleName (hbase : absolute = true → base = [])
    (hsettled : ∀ n ∈ settled, IsStep n) (hslash : '/' ∉ name.toList)
    (hplace : d.follow base settled.reverse = .ok place) (h : d.follow place [name] = .ok q) :
    d.follow base (settleName absolute settled name).reverse = .ok q := by
  have hconcat : ∀ n, d.follow place [n] = .ok q →
      d.follow base (n :: settled).reverse = .ok q := fun n hn => by
    rw [List.reverse_cons]
    exact follow_append_eq_ok.mpr ⟨place, hplace, hn⟩
  have hskip : name = "" ∨ name = "." → q = place := by
    intro hname
    rw [follow] at h
    split at h
    · cases h
    · cases h
    · rw [if_pos (by simpa using hname), follow] at h
      exact (Except.ok.inj h).symm
  by_cases hempty : name = ""
  · rw [hempty, FilePath.settleName_empty, hskip (.inl hempty)]
    exact hplace
  by_cases hhere : name = "."
  · rw [hhere, FilePath.settleName_here, hskip (.inr hhere)]
    exact hplace
  by_cases habove : name = ".."
  · subst habove
    obtain ⟨hdir, rfl⟩ := follow_above_eq_ok.mp h
    cases settled with
    | nil =>
      obtain rfl : base = place := Except.ok.inj hplace
      cases absolute with
      | false => exact follow_append_eq_ok.mpr ⟨base, hplace, h⟩
      | true =>
        rw [hbase rfl]
        rfl
    | cons last before =>
      -- the last name is taken back, unless it led above the base itself
      by_cases hlast : last = ".."
      · simpa [settleName, hlast] using hconcat ".." h
      · have hname : IsName last := (hsettled last List.mem_cons_self).resolve_right hlast
        rw [List.reverse_cons] at hplace
        obtain ⟨p, hp, hfollow⟩ := follow_append_eq_ok.mp hplace
        obtain ⟨-, -, rfl⟩ := (follow_name_eq_ok hname).mp hfollow
        simpa [settleName, hlast] using hp
  · have hname : IsName name := ⟨hempty, hhere, habove, hslash⟩
    rw [hname.settleName]
    exact hconcat name h

/-- Settled names lead to where the names lead. -/
theorem follow_settled (hbase : absolute = true → base = [])
    (hsettled : ∀ n ∈ settled, IsStep n) (hslash : ∀ n ∈ rest, '/' ∉ n.toList)
    (hplace : d.follow base settled.reverse = .ok place) (h : d.follow place rest = .ok q) :
    d.follow base (rest.foldl (settleName absolute) settled).reverse = .ok q := by
  induction rest generalizing settled place with
  | nil =>
    obtain rfl := Except.ok.inj h
    exact hplace
  | cons name rest ih =>
    obtain ⟨hname, hrest⟩ := List.forall_mem_cons.mp hslash
    obtain ⟨p, hp, hfollow⟩ := follow_append_eq_ok (a := [name]).mp h
    exact ih (FilePath.isStep_settleName hsettled hname) hrest
      (follow_settleName hbase hsettled hname hplace hp) hfollow

theorem locate_eq_ok : d.locate path = .ok q ↔ path ≠ "" ∧
    d.follow (d.origin path) (split path) = .ok q := by
  unfold locate
  split
  · next h => simp [h]
  · next h => simp [h]

/-- The settled names of a path lead to where the path leads. -/
theorem follow_settle (h : d.locate path = .ok q) :
    d.follow (d.origin path) (settle (FilePath.isAbsolute path) (split path)) = .ok q :=
  follow_settled origin_eq_nil (List.forall_mem_nil IsStep)
    (fun _ => FilePath.no_slash_of_mem_split) rfl (locate_eq_ok.mp h).2

/-! ## Joined paths -/

/-- Before the name a joined path leads to the directory. -/
theorem follow_dropLast_join (h : d.locate path = .ok directory) (hname : IsName name) :
    d.follow (d.origin (join path name)) (split (join path name)).dropLast = .ok directory := by
  obtain ⟨hne, -⟩ := locate_eq_ok.mp h
  obtain ⟨habs, hsplit⟩ := FilePath.split_join hne hname
  have hfollow := follow_settle h
  have horigin : d.origin (join path name) = d.origin path := by rw [origin, origin, habs]
  rw [hsplit, List.dropLast_concat, horigin]
  by_cases habs : FilePath.isAbsolute path
  · rw [if_pos habs, List.singleton_append, origin_eq_nil habs, follow, find?_nil]
    rw [origin_eq_nil habs] at hfollow
    simpa using hfollow
  · rwa [if_neg habs]

theorem getLast?_split_join (h : d.locate path = .ok directory) (hname : IsName name) :
    (split (join path name)).getLast?.getD "" = name := by
  obtain ⟨-, hsplit⟩ := FilePath.split_join (locate_eq_ok.mp h).1 hname
  rw [hsplit, List.getLast?_concat, Option.getD_some]

/-- What is written into a directory stands there under its name. -/
theorem write_join (h : d.locate path = .ok directory) (hname : IsName name)
    (hwrite : d.write (join path name) content = .ok d') :
    d' = d.put (directory ++ [name]) (.file content) := by
  obtain ⟨above, last, rfl, hfollow, -, -, rfl⟩ := write_eq_ok hwrite
  rw [follow_dropLast_join h hname] at hfollow
  rw [getLast?_split_join h hname, Except.ok.inj hfollow]

theorem locate_join (h : d.locate path = .ok directory)
    (hdirectory : d.find? directory = some .directory) (hname : IsName name)
    (hfound : (d.find? (directory ++ [name])).isSome) :
    d.locate (join path name) = .ok (directory ++ [name]) := by
  obtain ⟨hne, -⟩ := locate_eq_ok.mp h
  have hsplit : split (join path name) = (split (join path name)).dropLast ++ [name] := by
    rw [(FilePath.split_join hne hname).2, List.dropLast_concat]
  rw [locate_eq_ok, hsplit, follow_append_eq_ok]
  exact ⟨FilePath.join_ne_empty hne hname, directory, follow_dropLast_join h hname,
    (follow_name_eq_ok hname).mpr ⟨hdirectory, hfound, rfl⟩⟩

/-- A file in a directory is read by the path of the directory, joined with its name. -/
theorem read_join (h : d.locate path = .ok directory)
    (hdirectory : d.find? directory = some .directory) (hname : IsName name)
    (hfile : d.find? (directory ++ [name]) = some (.file content)) :
    d.read (join path name) = .ok content := by
  rw [read, locate_join h hdirectory hname (by rw [hfile]; rfl)]
  dsimp only
  rw [hfile]

/-! ## Making directories -/

/-- Names along which directories were made lead to a directory. -/
theorem IsTree.follow_of_makeAlong (h : d.IsTree) (hplace : d.find? place = some .directory)
    (hmake : d.makeAlong place rest = .ok d') :
    ∃ q, d'.follow place rest = .ok q ∧ d'.find? q = some .directory := by
  fun_induction d.makeAlong place rest with
  | case1 d place =>
    cases hmake
    exact ⟨place, rfl, hplace⟩
  | case2 d place name rest hskip ih =>
    obtain ⟨q, hfollow, hq⟩ := ih h hplace hmake
    refine ⟨q, ?_, hq⟩
    rw [follow, (keeps_of_makeAlong hmake).directory _ hplace]
    simpa only [hskip, if_true] using hfollow
  | case3 d place rest hskip ih =>
    have hdrop := h.directory_dropLast hplace
    obtain ⟨q, hfollow, hq⟩ := ih h hdrop hmake
    refine ⟨q, ?_, hq⟩
    rw [follow, (keeps_of_makeAlong hmake).directory _ hplace]
    simpa using hfollow
  | case4 d place name rest hskip habove hdir ih =>
    obtain ⟨q, hfollow, hq⟩ := ih h hdir hmake
    refine ⟨q, ?_, hq⟩
    have hkeeps := keeps_of_makeAlong hmake
    rw [follow, hkeeps.directory _ hplace]
    simpa [hskip, habove, hkeeps.directory _ hdir] using hfollow
  | case5 => cases hmake
  | case6 d place name rest hskip habove hnone ih =>
    have hfree : d.find? (place ++ [name]) ≠ some .directory := by simp [hnone]
    have hnew : (d.put (place ++ [name]) .directory).find? (place ++ [name]) =
        some .directory := by
      rw [find?_put, if_pos rfl, ite_self]
    obtain ⟨q, hfollow, hq⟩ := ih (h.put hplace hfree _) hnew hmake
    refine ⟨q, ?_, hq⟩
    have hkeeps := keeps_of_makeAlong hmake
    rw [follow, hkeeps.directory _ ((keeps_put hfree _).directory _ hplace)]
    simpa [hskip, habove, hkeeps.directory _ hnew] using hfollow

theorem find?_of_makeAlong (hmake : d.makeAlong place rest = .ok d') (q : Place) :
    d'.find? q = d.find? q ∨ d.find? q = none ∧ d'.find? q = some .directory := by
  fun_induction d.makeAlong place rest with
  | case1 d place =>
    cases hmake
    exact .inl rfl
  | case2 d place name rest hskip ih => exact ih hmake
  | case3 d place rest hskip ih => exact ih hmake
  | case4 d place name rest hskip habove hdir ih => exact ih hmake
  | case5 => cases hmake
  | case6 d place name rest hskip habove hnone ih =>
    have hput := find?_put d (place ++ [name]) q .directory
    by_cases hq : q = place ++ [name]
    · subst hq
      rw [if_pos rfl, ite_self] at hput
      refine .inr ⟨hnone, ?_⟩
      rcases ih hmake with hsame | ⟨hnone', -⟩
      · rw [hsame, hput]
      · rw [hput] at hnone'
        cases hnone'
    · have hsame : (d.put (place ++ [name]) .directory).find? q = d.find? q := by
        by_cases hroot : q = []
        · simp [hroot]
        · rw [hput, if_neg hroot, if_neg hq]
      rw [← hsame]
      exact ih hmake

/-- The path of a directory that was made leads to a directory. -/
theorem IsTree.locate_of_makeDirectories (h : d.IsTree)
    (hcurrent : d.find? d.current = some .directory)
    (hmake : d.makeDirectories path = .ok d') :
    ∃ q, d'.locate path = .ok q ∧ d'.find? q = some .directory := by
  have hne : path ≠ "" := by
    rintro rfl
    cases hmake
  have horigin : d.find? (d.origin path) = some .directory := by
    unfold origin
    split
    · exact find?_nil d
    · exact hcurrent
  obtain ⟨q, hfollow, hq⟩ := h.follow_of_makeAlong horigin (makeDirectories_eq_ok hmake)
  rw [← (keeps_of_makeDirectories hmake).origin] at hfollow
  exact ⟨q, Disk.locate_eq_ok.mpr ⟨hne, hfollow⟩, hq⟩

/-- Making a directory leaves what stands on the disk, and adds nothing but directories. -/
theorem find?_of_makeDirectories (hmake : d.makeDirectories path = .ok d') (q : Place) :
    d'.find? q = d.find? q ∨ d.find? q = none ∧ d'.find? q = some .directory :=
  find?_of_makeAlong (makeDirectories_eq_ok hmake) q

end Disk

end Schemata
