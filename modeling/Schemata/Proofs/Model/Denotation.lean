import Schemata.Proofs.Model.Loads

/-!
# What type names stand for

The type name of a field stands for the primitive type of that name, or else for the type that its
own module declares, or else for that of the first earlier module of its text, or else for what the
base finds by the name (`Module.Denotes`). Resolution looks through a list of scopes instead; they
are those of the very same modules, in the same order (`Resolve.exists_module_of_split`), so it
finds the same (`Model.Sound.denotes_of_meaning?`).

Where nothing is found in any of the four places (`ModuleDecl.Unknown`) there is no load. Of the
errors of resolution, the one about an unknown type is reported of such a field only
(`Resolve.of_modules_eq_error`).
-/

namespace Schemata

/-- `type` is what the name stands for in the module `M`, behind the modules `before` of its
text. -/
inductive Module.Denotes (base : Model) (before : List Module) (M : Module) (name : String) :
    TypeRef → Prop
  | primitive {p : Primitive} : p.name = name → M.Denotes base before name (.primitive p)
  | own {t : TypeDef} : (∀ p : Primitive, p.name ≠ name) → t ∈ M.types → t.name = name →
    M.Denotes base before name (.declared t.key)
  | earlier {front back : List Module} {E : Module} {t : TypeDef} :
    (∀ p : Primitive, p.name ≠ name) → (∀ t ∈ M.types, t.name ≠ name) →
    before = front ++ E :: back → (∀ E' ∈ front, ∀ t ∈ E'.types, t.name ≠ name) →
    t ∈ E.types → t.name = name → M.Denotes base before name (.declared t.key)
  | base {t : TypeDef} :
    (∀ p : Primitive, p.name ≠ name) → (∀ t ∈ M.types, t.name ≠ name) →
    (∀ E ∈ before, ∀ t ∈ E.types, t.name ≠ name) → base.lookup name = some t →
    M.Denotes base before name (.declared t.key)

/-- The name stands for nothing in the declared module: not for a primitive type, nor for a type
that the module or one of the modules `before` declares, nor for a type of the base. -/
structure ModuleDecl.Unknown (base : Model) (before : List ModuleDecl) (m : ModuleDecl)
    (name : String) : Prop where
  primitive : ∀ p : Primitive, p.name ≠ name
  own : ∀ t ∈ m.types, t.name ≠ name
  earlier : ∀ e ∈ before, ∀ t ∈ e.types, t.name ≠ name
  base : base.lookup name = none

/-- `f` is a field that the module declares, and `path` leads to it. -/
inductive ModuleDecl.HasField (m : ModuleDecl) : FieldDecl → String → Prop
  | product {decl : TypeDecl} {fs : List FieldDecl} {f : FieldDecl} :
    decl ∈ m.types → decl.body = .product fs → f ∈ fs →
    m.HasField f (m.name ++ "." ++ decl.name ++ "." ++ f.name)
  | shared {decl : TypeDecl} {cs : List ConstructorDecl} {attributes : List FieldDecl}
      {f : FieldDecl} :
    decl ∈ m.types → decl.body = .sum cs attributes → f ∈ attributes →
    m.HasField f (m.name ++ "." ++ decl.name ++ "." ++ f.name)
  | own {decl : TypeDecl} {cs : List ConstructorDecl} {attributes : List FieldDecl}
      {c : ConstructorDecl} {f : FieldDecl} :
    decl ∈ m.types → decl.body = .sum cs attributes → c ∈ cs → f ∈ c.fields →
    m.HasField f (m.name ++ "." ++ decl.name ++ "." ++ c.name ++ "." ++ f.name)

theorem ModuleDecl.HasField.exists_decl {m : ModuleDecl} {f : FieldDecl} {path : String}
    (h : m.HasField f path) : ∃ decl ∈ m.types, f ∈ Resolve.bodyFields decl.body := by
  cases h with
  | product hdecl hbody hf => exact ⟨_, hdecl, by rwa [hbody]⟩
  | shared hdecl hbody hf =>
    exact ⟨_, hdecl, by rw [hbody]; exact List.mem_append_left _ hf⟩
  | own hdecl hbody hc hf =>
    exact ⟨_, hdecl, by rw [hbody]; exact List.mem_append_right _ (List.mem_flatMap.mpr ⟨_, hc, hf⟩)⟩

namespace Resolve

variable {scopes text : List Scope} {name owner : String} {key : TypeKey} {serial : Nat}
  {base : List Module} {ms before after : List ModuleDecl} {m : ModuleDecl} {made : List Module}
  {resolved : Resolved} {M : Module} {e : ResolutionError}

/-! ## Scopes of modules -/

theorem find_loadedScope_eq_none :
    Scope.find (loadedScope M) name = none ↔ ∀ t ∈ M.types, t.name ≠ name := by
  unfold Scope.find
  rw [List.find?_eq_none]
  simp only [mem_loadedScope, decide_eq_true_eq, forall_exists_index, and_imp,
    forall_apply_eq_imp_iff₂]
  rfl

theorem of_find_loadedScope (h : Scope.find (loadedScope M) name = some key) :
    ∃ t ∈ M.types, t.name = name ∧ t.key = key := by
  obtain ⟨t, ht, rfl⟩ := mem_loadedScope.mp (List.mem_of_find?_eq_some h)
  have hname : t.key.name = name := by simpa using List.find?_some h
  exact ⟨t, ht, hname, rfl⟩

theorem find_map_loadedScope_eq_none :
    find (made.map loadedScope) name = none ↔ ∀ M ∈ made, ∀ t ∈ M.types, t.name ≠ name := by
  rw [find, List.findSome?_eq_none_iff, List.forall_mem_map]
  exact forall₂_congr fun _ _ => find_loadedScope_eq_none

/-- What is found in the scopes of modules is a type of the first of them that has one of the
name. -/
theorem of_find_map_loadedScope (h : find (made.map loadedScope) name = some key) :
    ∃ front E back t, made = front ++ E :: back ∧
      (∀ E' ∈ front, ∀ t ∈ E'.types, t.name ≠ name) ∧ t ∈ E.types ∧ t.name = name ∧
      t.key = key := by
  unfold find at h
  rw [List.findSome?_map] at h
  obtain ⟨front, E, back, rfl, hE, hfront⟩ := List.findSome?_eq_some_iff.mp h
  obtain ⟨t, ht, hname, hkey⟩ := of_find_loadedScope hE
  exact ⟨front, E, back, t, rfl, fun E' hE' => find_loadedScope_eq_none.mp (hfront E' hE'), ht,
    hname, hkey⟩

theorem find_append {scopes' : List Scope} :
    find (scopes ++ scopes') name = (find scopes name).or (find scopes' name) :=
  List.findSome?_append

/-- Where a tree has definitions, each of its modules is resolved in the scopes of the modules
before it, of the tree and then of the base. -/
theorem exists_module_of_split (hms : ∀ m ∈ ms, m.Distinct)
    (h : modules base serial text ms = .ok resolved) (hsplit : ms = before ++ m :: after) :
    ∃ made M rest serial, resolved.modules = made ++ M :: rest ∧ made.length = before.length ∧
      module serial (text ++ made.map loadedScope ++ base.map loadedScope) m = .ok M := by
  induction before generalizing serial text ms resolved with
  | nil =>
    obtain rfl : ms = m :: after := hsplit
    obtain ⟨-, M, rest, hM, -, heq⟩ := of_modules_cons_eq_ok h
    exact ⟨[], M, rest.modules, serial, heq, rfl, by rwa [List.map_nil, List.append_nil]⟩
  | cons first before ih =>
    obtain rfl : ms = first :: (before ++ m :: after) := hsplit
    obtain ⟨hfirst, hms⟩ := List.forall_mem_cons.mp hms
    obtain ⟨-, F, rest, hF, hrest, heq⟩ := of_modules_cons_eq_ok h
    obtain ⟨made, M, rest', serial', hmodules, hlength, hM⟩ := ih hms hrest rfl
    refine ⟨F :: made, M, rest', serial', by rw [heq, hmodules, List.cons_append],
      by rw [List.length_cons, List.length_cons, hlength], ?_⟩
    rwa [List.map_cons, loadedScope_of_module_eq_ok hfirst.names hF, List.append_cons]

/-! ## Errors -/

theorem meaning?_eq_none (h : ScopesOf text before) :
    meaning? (declaredScope serial m :: (text ++ base.map loadedScope)) name = none ↔
      ¬Known base before m name := by
  rw [← meaning?_isSome h, Option.not_isSome_iff_eq_none]

/-- The error says that the name of the field's type means nothing. -/
def UnknownAt (scopes : List Scope) (f : FieldDecl) (path : String) (e : ResolutionError) : Prop :=
  meaning? scopes f.typeName = none ∧
    ∃ suggestion, e = .unknownFieldType f.typeName path f.position suggestion

theorem of_typeRef_eq_error {f : FieldDecl} {path : String}
    (h : typeRef scopes f.typeName path f.position = .error e) : UnknownAt scopes f path e := by
  cases hp : Primitive.ofName? f.typeName with
  | some p =>
    rw [typeRef, hp] at h
    cases h
  | none =>
    cases hfind : find scopes f.typeName with
    | some k =>
      rw [typeRef, hp] at h
      simp only [hfind] at h
      cases h
    | none =>
      have hmeaning : meaning? scopes f.typeName = none := by
        rw [meaning?, hp]
        simp only [hfind, Option.map_none]
      rw [typeRef, hp] at h
      simp only [hfind] at h
      exact ⟨hmeaning, _, (Except.error.inj h).symm⟩

theorem of_fields_eq_error {shared : Bool} {index : Nat} {fs : List FieldDecl}
    (h : fields scopes owner shared index fs = .error e) :
    ∃ f ∈ fs, UnknownAt scopes f (owner ++ "." ++ f.name) e := by
  induction fs generalizing index with
  | nil => cases h
  | cons f fs ih =>
    rcases Outcome.bind_eq_error.mp h with h | ⟨type, -, h⟩
    · exact ⟨f, List.mem_cons_self, of_typeRef_eq_error h⟩
    rcases Outcome.bind_eq_error.mp h with h | ⟨rest, -, h⟩
    · obtain ⟨f, hf, he⟩ := ih h
      exact ⟨f, List.mem_cons_of_mem _ hf, he⟩
    · cases h

theorem of_constructors_eq_error {attributes : List Field} {tag : Nat} {cs : List ConstructorDecl}
    (h : constructors scopes key attributes tag cs = .error e) :
    ∃ c ∈ cs, ∃ f ∈ c.fields, UnknownAt scopes f (key.id ++ "." ++ c.name ++ "." ++ f.name) e := by
  induction cs generalizing tag with
  | nil => cases h
  | cons c cs ih =>
    rcases Outcome.bind_eq_error.mp h with h | ⟨own, -, h⟩
    · exact ⟨c, List.mem_cons_self, of_fields_eq_error h⟩
    rcases Outcome.bind_eq_error.mp h with h | ⟨rest, -, h⟩
    · obtain ⟨c, hc, he⟩ := ih h
      exact ⟨c, List.mem_cons_of_mem _ hc, he⟩
    · cases h

theorem of_type_eq_error {decl : TypeDecl} (hdecl : decl ∈ m.types)
    (h : type scopes ⟨serial, m.name, decl.name⟩ decl = .error e) :
    ∃ f path, m.HasField f path ∧ UnknownAt scopes f path e := by
  unfold type at h
  cases hbody : decl.body with
  | product fs =>
    simp only [hbody] at h
    rcases Outcome.bind_eq_error.mp h with h | ⟨_, -, h⟩
    · obtain ⟨f, hf, he⟩ := of_fields_eq_error h
      exact ⟨f, _, .product hdecl hbody hf, he⟩
    · cases h
  | sum cs attributes =>
    simp only [hbody] at h
    rcases Outcome.bind_eq_error.mp h with h | ⟨_, -, h⟩
    · obtain ⟨f, hf, he⟩ := of_fields_eq_error h
      exact ⟨f, _, .shared hdecl hbody hf, he⟩
    rcases Outcome.bind_eq_error.mp h with h | ⟨_, -, h⟩
    · obtain ⟨c, hc, f, hf, he⟩ := of_constructors_eq_error h
      exact ⟨f, _, .own hdecl hbody hc hf, he⟩
    · cases h

/-- A module without definitions has a type that is named like a primitive one, or a field whose
type name means nothing. -/
theorem of_module_eq_error (h : module serial scopes m = .error e) :
    (∃ decl ∈ m.types, (∃ p : Primitive, p.name = decl.name) ∧
      e = .primitiveRedefined m.name decl.name decl.position) ∨
    ∃ f path, m.HasField f path ∧ UnknownAt (declaredScope serial m :: scopes) f path e := by
  unfold module at h
  split at h
  next decl hfind =>
    have hsome := List.find?_some hfind
    obtain ⟨p, hp⟩ := Option.isSome_iff_exists.mp hsome
    exact .inl ⟨decl, List.mem_of_find?_eq_some hfind, ⟨p, by simpa using List.find?_some hp⟩,
      (Except.error.inj h).symm⟩
  next =>
    rcases Outcome.bind_eq_error.mp h with h | ⟨_, -, h⟩
    · obtain ⟨decl, hdecl, h⟩ := Outcome.exists_of_mapM_eq_error h
      exact .inr (of_type_eq_error (List.mem_filter.mp hdecl).1 h)
    · cases h

/-- A tree without definitions has a module that is loaded already, a type that is named like a
primitive one, or a field whose type name is not known. -/
theorem of_modules_eq_error (htext : ScopesOf text before)
    (h : modules base serial text ms = .error e) :
    (∃ m ∈ ms, m.name ∈ base.map Module.name ∧ e = .moduleLoaded m.name m.position) ∨
    (∃ m ∈ ms, ∃ decl ∈ m.types, (∃ p : Primitive, p.name = decl.name) ∧
      e = .primitiveRedefined m.name decl.name decl.position) ∨
    ∃ front m back f path suggestion, ms = front ++ m :: back ∧ m.HasField f path ∧
      e = .unknownFieldType f.typeName path f.position suggestion ∧
      ¬Known base (before ++ front) m f.typeName := by
  induction ms generalizing serial text before with
  | nil => cases h
  | cons m ms ih =>
    unfold modules at h
    split_ifs at h with hname
    · exact .inl ⟨m, List.mem_cons_self, hname, (Except.error.inj h).symm⟩
    rcases Outcome.bind_eq_error.mp h with h | ⟨made, -, h⟩
    · rcases of_module_eq_error h with ⟨decl, hdecl, he⟩ | ⟨f, path, hf, hnone, suggestion, he⟩
      · exact .inr (.inl ⟨m, List.mem_cons_self, decl, hdecl, he⟩)
      · refine .inr (.inr ⟨[], m, ms, f, path, suggestion, rfl, hf, he, ?_⟩)
        rw [List.append_nil]
        exact (meaning?_eq_none htext).mp hnone
    rcases Outcome.bind_eq_error.mp h with h | ⟨rest, -, h⟩
    · rcases ih (htext.concat serial m) h with ⟨m', hm', he⟩ | ⟨m', hm', he⟩ |
        ⟨front, m', back, f, path, suggestion, rfl, hf, he, hknown⟩
      · exact .inl ⟨m', List.mem_cons_of_mem _ hm', he⟩
      · exact .inr (.inl ⟨m', List.mem_cons_of_mem _ hm', he⟩)
      · refine .inr (.inr ⟨m :: front, m', back, f, path, suggestion, rfl, hf, he, ?_⟩)
        rwa [List.append_cons]
    · cases h

theorem Resolvable.known (h : Resolvable base before (ms ++ m :: after)) :
    ∀ decl ∈ m.types, ∀ f ∈ bodyFields decl.body, Known base (before ++ ms) m f.typeName := by
  induction ms generalizing before with
  | nil =>
    rw [List.append_nil]
    exact h.2.2.1
  | cons first ms ih =>
    rw [List.append_cons]
    exact ih h.2.2.2

end Resolve

namespace Model

variable {base : Model} {next : Nat} {name : String} {type : TypeRef} {t : TypeDef}

/-- A bare name means the first type that has it, so one means nothing if no type has it. -/
theorem lookup_eq_none_iff (hname : '.' ∉ name.toList) :
    base.lookup name = none ↔ ∀ t ∈ base.types, t.name ≠ name := by
  rw [lookup, if_neg hname, byName, List.find?_eq_none]
  simp only [decide_eq_true_eq]

theorem unknown_iff (hname : '.' ∉ name.toList) {before : List ModuleDecl} {m : ModuleDecl} :
    m.Unknown base before name ↔ ¬Resolve.Known base.modules before m name := by
  unfold Resolve.Known
  push Not
  constructor
  · rintro ⟨hprimitive, hown, hearlier, hbase⟩
    exact ⟨hprimitive, hown, hearlier, fun b hb t ht =>
      (lookup_eq_none_iff hname).mp hbase t (List.mem_flatMap.mpr ⟨b, hb, ht⟩)⟩
  · rintro ⟨hprimitive, hown, hearlier, hbase⟩
    refine ⟨hprimitive, hown, hearlier, (lookup_eq_none_iff hname).mpr fun t ht => ?_⟩
    obtain ⟨b, hb, ht⟩ := List.mem_flatMap.mp ht
    exact hbase b hb t ht

/-- In a sound model the first module with a type of the name has the type that is looked up. -/
theorem Sound.lookup_eq_some (h : base.Sound next) (hname : '.' ∉ name.toList)
    {front back : List Module} {E : Module} (hsplit : base.modules = front ++ E :: back)
    (hfront : ∀ E' ∈ front, ∀ t ∈ E'.types, t.name ≠ name) (ht : t ∈ E.types)
    (htname : t.name = name) : base.lookup name = some t := by
  have hfound : (E.types.find? (·.name = name)).isSome :=
    List.find?_isSome.mpr ⟨t, ht, decide_eq_true htname⟩
  obtain ⟨t', ht'⟩ := Option.isSome_iff_exists.mp hfound
  obtain ⟨hname', before, after, htypes, hbefore⟩ := List.find?_eq_some_iff_append.mp ht'
  have hE : E ∈ base.modules := hsplit ▸ List.mem_append_right _ List.mem_cons_self
  obtain rfl : t' = t := by
    have hmem : t' ∈ E.types := htypes ▸ List.mem_append_right _ List.mem_cons_self
    exact (h.modules E hE).1.eq_of_name_eq hmem ht ((of_decide_eq_true hname').trans htname.symm)
  refine (lookup_eq_some_iff_first hname).mpr ⟨front.flatMap Module.types ++ before,
    after ++ back.flatMap Module.types, ?_, htname, List.forall_mem_append.mpr ⟨?_, ?_⟩⟩
  · rw [types, hsplit, List.flatMap_append, List.flatMap_cons, htypes]
    simp only [List.append_assoc, List.cons_append]
  · exact List.forall_mem_flatMap.mpr hfront
  · exact fun e he => by simpa using hbefore e he

/-- What resolution finds in the scopes of a module, of those before it and of the base is what the
name stands for. -/
theorem Sound.denotes_of_meaning? (h : base.Sound next) (hname : '.' ∉ name.toList)
    {made : List Module} {M : Module}
    (hmeaning : Resolve.meaning? (Resolve.loadedScope M ::
      (made.map Resolve.loadedScope ++ base.modules.map Resolve.loadedScope)) name = some type) :
    M.Denotes base made name type := by
  unfold Resolve.meaning? at hmeaning
  split at hmeaning
  next p hp =>
    obtain rfl := Option.some.inj hmeaning
    exact .primitive (by simpa using List.find?_some hp)
  next hp =>
    have hprimitive := Primitive.ofName?_eq_none.mp hp
    obtain ⟨k, hk, rfl⟩ := Option.map_eq_some_iff.mp hmeaning
    rw [Resolve.find, List.findSome?_cons] at hk
    split at hk
    next k' hown =>
      obtain rfl := Option.some.inj hk
      obtain ⟨t, ht, htname, rfl⟩ := Resolve.of_find_loadedScope hown
      exact .own hprimitive ht htname
    next hown =>
      rw [Resolve.find_loadedScope_eq_none] at hown
      replace hk := Resolve.find_append.symm.trans hk
      cases hearlier : Resolve.find (made.map Resolve.loadedScope) name with
      | some k' =>
        rw [hearlier, Option.some_or] at hk
        obtain rfl := Option.some.inj hk
        obtain ⟨front, E, back, t, rfl, hfront, ht, htname, rfl⟩ :=
          Resolve.of_find_map_loadedScope hearlier
        exact .earlier hprimitive hown rfl hfront ht htname
      | none =>
        rw [hearlier, Option.none_or] at hk
        obtain ⟨front, E, back, t, hsplit, hfront, ht, htname, rfl⟩ :=
          Resolve.of_find_map_loadedScope hk
        exact .base hprimitive hown (Resolve.find_map_loadedScope_eq_none.mp hearlier)
          (h.lookup_eq_some hname hsplit hfront ht htname)

end Model

end Schemata
