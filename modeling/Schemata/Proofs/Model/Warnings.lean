import Schemata.Proofs.Model.Definitions

/-!
# Warnings of loads

A load warns of two things, module by module: of the types that hide another one, and of the
constructors that do not begin with one of the letters A to Z. Which type is hidden is found by a
search of its own; it is the one that a field would mean by the name if the declaration were not
there (`Hides`), as the scopes that are searched are those of the very same modules
(`Resolve.warnings_of_modules`). There are no other warnings (`Model.Reachable.warnings_of_load`).
-/

namespace Schemata

/-- An earlier module of the text or a module of the base has a type of the same name. -/
def TypeDecl.Shadows (base : Model) (before : List ModuleDecl) (decl : TypeDecl) : Prop :=
  (∃ e ∈ before, ∃ t ∈ e.types, t.name = decl.name) ∨
    ∃ b ∈ base.modules, ∃ t ∈ b.types, t.name = decl.name

instance (base : Model) (before : List ModuleDecl) : DecidablePred (TypeDecl.Shadows base before) :=
  fun _ => inferInstanceAs (Decidable (_ ∨ _))

/-- The name begins with one of the letters A to Z. -/
def ConstructorDecl.Capitalized (c : ConstructorDecl) : Prop :=
  ∃ first rest, c.name.toList = first :: rest ∧ 'A' ≤ first ∧ first ≤ 'Z'

theorem Resolve.isCapitalized_iff {c : ConstructorDecl} :
    Resolve.isCapitalized c.name = true ↔ c.Capitalized := by
  unfold isCapitalized ConstructorDecl.Capitalized
  cases c.name.toList with
  | nil => simp
  | cons first rest =>
    have hupper : first.isUpper = true ↔ 'A' ≤ first ∧ first ≤ 'Z' := decide_eq_true_iff
    simp only [List.cons.injEq, hupper]
    constructor
    · rintro ⟨hleast, hgreatest⟩
      exact ⟨first, rest, ⟨rfl, rfl⟩, hleast, hgreatest⟩
    · rintro ⟨_, _, ⟨rfl, rfl⟩, hleast, hgreatest⟩
      exact ⟨hleast, hgreatest⟩

instance : DecidablePred ConstructorDecl.Capitalized :=
  fun _ => decidable_of_iff _ Resolve.isCapitalized_iff

/-- The constructors that a module declares, each with its type. -/
def ModuleDecl.constructors (m : ModuleDecl) : List (TypeDecl × ConstructorDecl) :=
  m.types.flatMap fun decl =>
    match decl.body with
    | .product _ => []
    | .sum cs _ => cs.map fun c => (decl, c)

/-- The warning of a type that hides another one. -/
def ModuleDecl.shadowWarning (m : ModuleDecl) (decl : TypeDecl) (hidden : TypeKey) : Diagnostic :=
  .warning (m.name ++ "." ++ decl.name)
    ("Type \"" ++ decl.name ++ "\" shadows \"" ++ hidden.id ++ "\"") decl.position

/-- The warning of a constructor that does not begin with a capital letter. -/
def ModuleDecl.caseWarning (m : ModuleDecl) (decl : TypeDecl) (c : ConstructorDecl) : Diagnostic :=
  .warning (m.name ++ "." ++ decl.name ++ "." ++ c.name)
    ("Constructor \"" ++ c.name ++ "\" should start with an uppercase letter") c.position

/-- The module without its types of a name. -/
def Module.without (M : Module) (name : String) : Module :=
  { M with types := M.types.filter fun t => t.name ≠ name }

/-- In the module `M`, which is made of the one behind the modules `before` of a text, the type is
hidden by those of the name: without them it is what the name stands for. And in every text with the
same modules `before` that is loaded, it is what all fields mean that are declared with this name in
the module behind them, if that module declares no type of the name. -/
structure Hides (base : Model) (serial : Nat) (before : List ModuleDecl) (made : List Module)
    (M : Module) (name : String) (hidden : TypeKey) : Prop where
  denotes : (M.without name).Denotes base made name (.declared hidden)
  follows : ∀ source limit loaded m after, SchemaTree.parse source = .ok ⟨before ++ m :: after⟩ →
    (∀ t ∈ m.types, t.name ≠ name) → base.load serial limit source = .ok loaded →
    ∃ M', loaded.modules[before.length]? = some M' ∧
      List.Forall₂ (TypeDecl.Follows fun typeName type => typeName = name → type = .declared hidden)
        m.types M'.types

namespace Resolve

variable {base : List Module} {serial : Nat} {text earlier scopes : List Scope} {scope : Scope}
  {ms before after : List ModuleDecl} {m : ModuleDecl} {made : List Module} {resolved : Resolved}
  {M : Module} {name : String} {key : TypeKey}

/-! ## Scopes of texts -/

/-- The scopes of modules that are numbered from `serial` on. -/
def textScopes : Nat → List ModuleDecl → List Scope
  | _, [] => []
  | serial, m :: ms => declaredScope serial m :: textScopes (serial + 1) ms

theorem scopesOf_textScopes (serial : Nat) (ms : List ModuleDecl) :
    ScopesOf (textScopes serial ms) ms := by
  induction ms generalizing serial with
  | nil => exact .nil
  | cons m ms ih => exact .cons ⟨serial, rfl⟩ (ih (serial + 1))

/-- Each module of a tree is resolved in the scopes of the modules before it, and they are searched
for what it hides. -/
theorem warnings_of_modules (hms : ∀ m ∈ ms, m.Distinct)
    (h : modules base serial text ms = .ok resolved) :
    ∃ parts : List (List Diagnostic), resolved.warnings = parts.flatten ∧ parts.length = ms.length ∧
      ∀ before m after, ms = before ++ m :: after →
        ∃ made M rest, resolved.modules = made ++ M :: rest ∧ made.length = before.length ∧
          made.map loadedScope = textScopes serial before ∧
          module (serial + before.length)
            (text ++ textScopes serial before ++ base.map loadedScope) m = .ok M ∧
          parts[before.length]? =
            some (moduleWarnings (text ++ textScopes serial before ++ base.map loadedScope) m) := by
  -- the scope of the first module joins those in front, so they have to be any
  induction ms generalizing serial text resolved with
  | nil =>
    obtain rfl := Except.ok.inj h
    exact ⟨[], rfl, rfl, fun before m after hsplit => by simp at hsplit⟩
  | cons first ms ih =>
    obtain ⟨hfirst, hms⟩ := List.forall_mem_cons.mp hms
    obtain ⟨-, F, rest, hF, hrest, rfl⟩ := modules_cons_eq_ok.mp h
    obtain ⟨parts, hwarnings, hlength, hparts⟩ := ih hms hrest
    refine ⟨_ :: parts, by rw [List.flatten_cons, ← hwarnings], by rw [List.length_cons, hlength,
      List.length_cons], fun before m after hsplit => ?_⟩
    cases before with
    | nil =>
      obtain ⟨rfl, -⟩ := List.cons.inj hsplit
      refine ⟨[], F, rest.modules, rfl, rfl, rfl, ?_, ?_⟩
      · rwa [textScopes, List.append_nil]
      · rw [textScopes, List.append_nil]
        rfl
    | cons _ before =>
      obtain ⟨rfl, hbehind⟩ := List.cons.inj hsplit
      obtain ⟨made, M, rest', hmodules, hmade, hscopes, hM, hpart⟩ := hparts before m after hbehind
      refine ⟨F :: made, M, rest', by rw [hmodules, List.cons_append],
        by rw [List.length_cons, hmade, List.length_cons], ?_, ?_, ?_⟩
      · rw [List.map_cons, hscopes, loadedScope_of_module_eq_ok hfirst.names hF, textScopes]
      · rw [textScopes, List.append_cons, List.length_cons, Nat.add_comm before.length,
          ← Nat.add_assoc]
        exact hM
      · rw [textScopes, List.append_cons, List.length_cons, List.getElem?_cons_succ]
        exact hpart

/-! ## What is hidden -/

theorem find_isSome_iff {base : Model} {decl : TypeDecl} :
    (find (textScopes serial before ++ base.modules.map loadedScope) decl.name).isSome ↔
      decl.Shadows base before := by
  have hbase : (∃ scope ∈ base.modules.map loadedScope, ∃ k ∈ scope, k.name = decl.name) ↔
      ∃ b ∈ base.modules, ∃ t ∈ b.types, t.name = decl.name := by
    simp only [List.mem_map, exists_exists_and_eq_and, mem_loadedScope]
    rfl
  rw [find_isSome, TypeDecl.Shadows, ← (scopesOf_textScopes serial before).exists_iff, ← hbase]
  simp only [List.mem_append, or_and_right, exists_or]

/-- A name that its own module does not declare means what is found in the scopes behind. -/
theorem meaning?_of_find (hprimitive : ∀ p : Primitive, p.name ≠ name)
    (hown : Scope.find scope name = none) (h : find scopes name = some key) :
    meaning? (scope :: scopes) name = some (.declared key) := by
  have hfind : find (scope :: scopes) name = some key := by
    rw [find, List.findSome?_cons, hown]
    exact h
  rw [meaning?, Primitive.ofName?_eq_none.mpr hprimitive, hfind]
  rfl

theorem find_declaredScope_eq_none (h : ∀ t ∈ m.types, t.name ≠ name) :
    Scope.find (declaredScope serial m) name = none := by
  refine List.find?_eq_none.mpr fun k hk => ?_
  obtain ⟨t, ht, rfl⟩ := mem_declaredScope.mp hk
  simpa using h t ht

theorem find_without_eq_none (M : Module) (name : String) :
    Scope.find (loadedScope (M.without name)) name = none :=
  find_loadedScope_eq_none.mpr fun _ ht => of_decide_eq_true (List.mem_filter.mp ht).2

theorem primitive_ne_of_module_eq_ok (h : module serial earlier m = .ok M) {decl : TypeDecl}
    (hdecl : decl ∈ m.types) (p : Primitive) : p.name ≠ decl.name := by
  unfold module at h
  split at h
  · cases h
  next hnone =>
    have hname := List.find?_eq_none.mp hnone decl hdecl
    rw [Bool.not_eq_true, Option.isSome_eq_false_iff, Option.isNone_iff_eq_none] at hname
    exact Primitive.ofName?_eq_none.mp hname p

/-! ## The two kinds of warnings -/

/-- Of the members for which there is a result, each has its own. -/
theorem forall₂_filter_filterMap {α β : Type} {f : α → Option β} {p : α → Prop} [DecidablePred p]
    {as : List α} (h : ∀ a ∈ as, (f a).isSome ↔ p a) :
    List.Forall₂ (fun a b => f a = some b) (as.filter p) (as.filterMap f) := by
  induction as with
  | nil => exact .nil
  | cons a as ih =>
    obtain ⟨ha, has⟩ := List.forall_mem_cons.mp h
    cases hf : f a with
    | none =>
      have hp : ¬p a := by simpa [hf] using ha
      rw [List.filterMap_cons_none hf, List.filter_cons_of_neg (by simpa using hp)]
      exact ih has
    | some b =>
      have hp : p a := by simpa [hf] using ha
      rw [List.filterMap_cons_some hf, List.filter_cons_of_pos (by simpa using hp)]
      exact .cons hf (ih has)

theorem shadowWarnings_forall₂ (base : Model) (serial : Nat) (before : List ModuleDecl)
    (m : ModuleDecl) :
    List.Forall₂ (fun decl w => ∃ hidden,
        find (textScopes serial before ++ base.modules.map loadedScope) decl.name = some hidden ∧
        w = m.shadowWarning decl hidden)
      (m.types.filter (TypeDecl.Shadows base before))
      (shadowWarnings (textScopes serial before ++ base.modules.map loadedScope) m) := by
  refine (forall₂_filter_filterMap fun decl _ => ?_).imp fun decl w hw => ?_
  · rw [Option.isSome_map, find_isSome_iff]
  · obtain ⟨hidden, hfind, rfl⟩ := Option.map_eq_some_iff.mp hw
    exact ⟨hidden, hfind, rfl⟩

theorem caseWarnings_eq (m : ModuleDecl) :
    m.types.flatMap (caseWarnings m.name) =
      (m.constructors.filter fun e => ¬e.2.Capitalized).map fun e => m.caseWarning e.1 e.2 := by
  rw [ModuleDecl.constructors, List.filter_flatMap, List.map_flatMap]
  refine congrArg (m.types.flatMap ·) (funext fun decl => ?_)
  unfold caseWarnings
  cases decl.body with
  | product => rfl
  | sum cs attributes =>
    dsimp only
    rw [List.filter_map, List.map_map]
    congr 1
    refine List.filter_congr fun c _ => ?_
    simp [← isCapitalized_iff]

end Resolve

namespace Model

variable {base : Model} {next serial : Nat} {limit : Option Number} {source : String}
  {loaded : Loaded} {before : List ModuleDecl} {made : List Module} {M : Module} {name : String}
  {hidden : TypeKey}

/-- What the search for hidden types finds is what the name would mean otherwise. -/
theorem Sound.hides (h : base.Sound next) (hdot : '.' ∉ name.toList)
    (hprimitive : ∀ p : Primitive, p.name ≠ name)
    (hmade : made.map Resolve.loadedScope = Resolve.textScopes serial before)
    (hfind : Resolve.find (Resolve.textScopes serial before ++
      base.modules.map Resolve.loadedScope) name = some hidden) :
    Hides base serial before made M name hidden where
  denotes := by
    refine h.denotes_of_meaning? hdot ?_
    rw [hmade]
    exact Resolve.meaning?_of_find hprimitive (Resolve.find_without_eq_none M name) hfind
  -- the other text has the same scopes in front of its module, so the same search is made there
  follows source limit loaded m after hparse hown hload := by
    obtain ⟨tree, hparse', hresolved, -, -⟩ := of_load_eq_ok hload
    obtain rfl := Except.ok.inj (hparse.symm.trans hparse')
    obtain ⟨hdistinct, -⟩ := SchemaTree.of_parse_eq_ok hparse
    have hm : m ∈ before ++ m :: after := List.mem_append_right _ List.mem_cons_self
    obtain ⟨parts, -, -, hparts⟩ := Resolve.warnings_of_modules hdistinct.modules hresolved
    obtain ⟨made', M', rest', hmodules, hlength, -, hM', -⟩ := hparts before m after rfl
    replace hmodules : loaded.modules = made' ++ M' :: rest' := hmodules
    refine ⟨M', by rw [hmodules, ← hlength, List.getElem?_append_right (Nat.le_refl _),
      Nat.sub_self, List.getElem?_cons_zero], ?_⟩
    obtain ⟨-, -, hdefs⟩ := Resolve.of_module_eq_ok (hdistinct.modules m hm).names hM'
    refine (Outcome.forall₂_mem_and hdefs).imp fun decl t ⟨hdecl, hdef⟩ => ?_
    refine hdef.follows rfl ((hdistinct.modules m hm).bodies decl hdecl)
      (SchemaTree.wellFormed_of_parse_eq_ok hparse m hm decl hdecl) ?_
    rintro f - type htype rfl
    rw [List.nil_append, Resolve.meaning?_of_find hprimitive
      (Resolve.find_declaredScope_eq_none hown) hfind] at htype
    exact (Option.some.inj htype).symm

/-- The warnings of a load are, module by module, one for each type that hides another one, and one
for each constructor that does not begin with a capital letter. -/
theorem Reachable.warnings_of_load (h : base.Reachable next)
    (hload : base.load serial limit source = .ok loaded) :
    ∃ (tree : SchemaTree) (parts : List (List Diagnostic)),
      SchemaTree.parse source = .ok tree ∧ loaded.warnings = parts.flatten ∧
      parts.length = tree.modules.length ∧
      ∀ before m after, tree.modules = before ++ m :: after →
        ∃ made M rest shadowings,
          loaded.modules = made ++ M :: rest ∧ made.length = before.length ∧
          parts[before.length]? = some (shadowings ++
            (m.constructors.filter fun e => ¬e.2.Capitalized).map fun e => m.caseWarning e.1 e.2) ∧
          List.Forall₂ (fun decl w => ∃ hidden,
              Hides base serial before made M decl.name hidden ∧ w = m.shadowWarning decl hidden)
            (m.types.filter (TypeDecl.Shadows base before)) shadowings := by
  obtain ⟨tree, hparse, hresolved, -, -⟩ := of_load_eq_ok hload
  obtain ⟨hdistinct, hnames⟩ := SchemaTree.of_parse_eq_ok hparse
  obtain ⟨parts, hwarnings, hlength, hparts⟩ :=
    Resolve.warnings_of_modules hdistinct.modules hresolved
  refine ⟨tree, parts, hparse, hwarnings, hlength, fun before m after hsplit => ?_⟩
  have hm : m ∈ tree.modules := hsplit ▸ List.mem_append_right _ List.mem_cons_self
  obtain ⟨made, M, rest, hmodules, hmade, hscopes, hM, hpart⟩ := hparts before m after hsplit
  rw [List.nil_append] at hM hpart
  have hshadowings := Resolve.shadowWarnings_forall₂ base serial before m
  refine ⟨made, M, rest, _, hmodules, hmade, ?_, (Outcome.forall₂_mem_and hshadowings).imp ?_⟩
  · have hcounted : m.types.filter (Resolve.counts m) = m.types := List.filter_eq_self.mpr
      fun decl hdecl => Resolve.counts_eq_true (hdistinct.modules m hm).names hdecl
    rw [hpart, Resolve.moduleWarnings, hcounted, Resolve.caseWarnings_eq]
  · rintro decl w ⟨hdecl, hidden, hfind, rfl⟩
    replace hdecl := (List.mem_filter.mp hdecl).1
    have hgiven : decl.name ∈ m.givenNames := List.mem_cons_of_mem _
      (List.mem_flatMap.mpr ⟨decl, hdecl, List.mem_cons_self⟩)
    have hdot := (hnames m hm _ hgiven).isWord.dot_notMem
    exact ⟨hidden, h.sound.hides hdot (Resolve.primitive_ne_of_module_eq_ok hM hdecl) hscopes hfind,
      rfl⟩

/-- `b = c(int x)` -/
def Sample.shadowingType : TypeDecl :=
  ⟨"b", ⟨1, 37⟩, .sum [⟨"c", ⟨1, 41⟩, [⟨"x", "int", .single, ⟨1, 43⟩⟩]⟩] []⟩

/-- `module n \x7b b = c(int x) \x7d`, behind `Sample.earlierModule`. -/
def Sample.shadowingModule : ModuleDecl := ⟨"n", ⟨1, 26⟩, [shadowingType]⟩

/-- A type that hides one of the module before, and a constructor that is not capitalized. -/
theorem Reachable.warnings_of_load_shadowing :
    (Model.empty none).Reachable 0 ∧ ∃ loaded made M rest parts hidden,
      (Model.empty none).load 0 none
        "module m \x7b b = (int v) \x7d module n \x7b b = c(int x) \x7d" = .ok loaded ∧
      loaded.modules = made ++ M :: rest ∧ loaded.warnings = List.flatten parts ∧
      parts[1]? = some [Sample.shadowingModule.shadowWarning Sample.shadowingType hidden,
        Sample.shadowingModule.caseWarning Sample.shadowingType ⟨"c", ⟨1, 41⟩,
          [⟨"x", "int", .single, ⟨1, 43⟩⟩]⟩] ∧
      Hides (.empty none) 0 [Sample.earlierModule] made M "b" hidden := by
  have hbase : (Model.empty none).Reachable 0 := .empty
  obtain ⟨loaded, hload⟩ : ∃ loaded, (Model.empty none).load 0 none
      "module m \x7b b = (int v) \x7d module n \x7b b = c(int x) \x7d" = .ok loaded := ⟨_, rfl⟩
  have hparse : SchemaTree.parse
      "module m \x7b b = (int v) \x7d module n \x7b b = c(int x) \x7d" =
        .ok ⟨[Sample.earlierModule, Sample.shadowingModule]⟩ := rfl
  obtain ⟨tree, parts, hparse', hwarnings, -, hparts⟩ := hbase.warnings_of_load hload
  obtain rfl := Except.ok.inj (hparse.symm.trans hparse')
  obtain ⟨made, M, rest, shadowings, hmodules, -, hpart, hshadowings⟩ :=
    hparts [Sample.earlierModule] Sample.shadowingModule [] rfl
  have hshadows : Sample.shadowingModule.types.filter
      (TypeDecl.Shadows (.empty none) [Sample.earlierModule]) = [Sample.shadowingType] := by decide
  rw [hshadows] at hshadowings
  cases hshadowings with
  | cons hhides hnil =>
    cases hnil
    obtain ⟨hidden, hhides, rfl⟩ := hhides
    exact ⟨hbase, loaded, made, M, rest, parts, hidden, hload, hmodules, hwarnings, hpart, hhides⟩

end Model

end Schemata
