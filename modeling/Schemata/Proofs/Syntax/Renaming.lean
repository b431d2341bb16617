import Schemata.Proofs.Syntax.Parsing
import Schemata.Proofs.Token.Renaming

/-!
# Names are interchangeable

A tree is another one with its names replaced if they differ in names and positions only
(`SchemaTree.Renamed`). Whatever the grammar derives from tokens it derives from the same tokens
with other names, up to these names (`Grammar.exists_schema_renamed`), and no token of a derivation
is reserved (`Grammar.Schema.not_reserved`). So a text that parses still parses when its names are
replaced one to one by words that are neither keywords nor reserved, and only then
(`SchemaTree.parse_renamed`).
-/

namespace Schemata

variable {ρ : String → String}

/-! ## Trees with other names -/

/-- The second field is the first one with what is given for its names, at any position. -/
structure FieldDecl.Renamed (ρ : String → String) (f f' : FieldDecl) : Prop where
  name : f'.name = ρ f.name
  typeName : f'.typeName = ρ f.typeName
  multiplicity : f'.multiplicity = f.multiplicity

structure ConstructorDecl.Renamed (ρ : String → String) (c c' : ConstructorDecl) : Prop where
  name : c'.name = ρ c.name
  fields : List.Forall₂ (FieldDecl.Renamed ρ) c.fields c'.fields

inductive TypeBody.Renamed (ρ : String → String) : TypeBody → TypeBody → Prop
  | product {fs fs' : List FieldDecl} : List.Forall₂ (FieldDecl.Renamed ρ) fs fs' →
    Renamed ρ (.product fs) (.product fs')
  | sum {cs cs' : List ConstructorDecl} {fs fs' : List FieldDecl} :
    List.Forall₂ (ConstructorDecl.Renamed ρ) cs cs' → List.Forall₂ (FieldDecl.Renamed ρ) fs fs' →
    Renamed ρ (.sum cs fs) (.sum cs' fs')

structure TypeDecl.Renamed (ρ : String → String) (t t' : TypeDecl) : Prop where
  name : t'.name = ρ t.name
  body : t.body.Renamed ρ t'.body

structure ModuleDecl.Renamed (ρ : String → String) (m m' : ModuleDecl) : Prop where
  name : m'.name = ρ m.name
  types : List.Forall₂ (TypeDecl.Renamed ρ) m.types m'.types

/-- The second tree is the first one with what is given for its names; positions are left aside. -/
def SchemaTree.Renamed (ρ : String → String) (tree tree' : SchemaTree) : Prop :=
  List.Forall₂ (ModuleDecl.Renamed ρ) tree.modules tree'.modules

/-! ## Distinct names stay distinct -/

section Distinct

variable {N : List String}

theorem nodup_renamed {α : Type} {R : α → α → Prop} {name : α → String} {as as' : List α}
    (h : List.Forall₂ R as as') (hname : ∀ a a', R a a' → name a' = ρ (name a))
    (hinj : ∀ x ∈ N, ∀ y ∈ N, ρ x = ρ y → x = y) (hN : ∀ a ∈ as, name a ∈ N)
    (hnodup : (as.map name).Nodup) : (as'.map name).Nodup := by
  have hmap : as'.map name = (as.map name).map ρ := by
    rw [List.map_map]
    exact Outcome.map_eq_of_forall₂ h hname
  have hmem : ∀ x ∈ as.map name, x ∈ N := List.forall_mem_map.mpr hN
  rw [hmap]
  exact hnodup.map_on fun x hx y hy => hinj x (hmem x hx) y (hmem y hy)

theorem TypeBody.Renamed.distinct {body body' : TypeBody} (h : body.Renamed ρ body')
    (hinj : ∀ x ∈ N, ∀ y ∈ N, ρ x = ρ y → x = y) (hN : ∀ n ∈ body.givenNames, n ∈ N)
    (hdistinct : body.Distinct) : body'.Distinct := by
  have hfields : ∀ {fs fs' : List FieldDecl}, List.Forall₂ (FieldDecl.Renamed ρ) fs fs' →
      (∀ f ∈ fs, f.name ∈ N) → (fs.map FieldDecl.name).Nodup → (fs'.map FieldDecl.name).Nodup :=
    fun h hN => nodup_renamed h (fun _ _ hf => hf.name) hinj hN
  cases h with
  | product hfs =>
    rw [givenNames, List.forall_mem_map] at hN
    exact hfields hfs hN hdistinct
  | @sum cs cs' fs fs' hcs hfs =>
    simp only [givenNames, List.forall_mem_append, List.forall_mem_map, List.forall_mem_flatMap,
      List.forall_mem_cons] at hN
    obtain ⟨hshared, hconstructors⟩ := hN
    obtain ⟨hnames, howns, hattributes, hclash⟩ := hdistinct
    refine ⟨nodup_renamed hcs (fun _ _ hc => hc.name) hinj (fun c hc => (hconstructors c hc).1)
      hnames, fun c' hc' => ?_, hfields hfs hshared hattributes, fun c' hc' a' ha' hmem => ?_⟩
    · obtain ⟨c, hc, hrenamed⟩ := Outcome.exists_of_mem_right hcs hc'
      exact hfields hrenamed.fields (hconstructors c hc).2 (howns c hc)
    · obtain ⟨c, hc, hrenamed⟩ := Outcome.exists_of_mem_right hcs hc'
      obtain ⟨a, ha, haname⟩ := Outcome.exists_of_mem_right hfs ha'
      obtain ⟨f', hf', heq⟩ := List.mem_map.mp hmem
      obtain ⟨f, hf, hfname⟩ := Outcome.exists_of_mem_right hrenamed.fields hf'
      have hsame : f.name = a.name := hinj _ ((hconstructors c hc).2 f hf) _ (hshared a ha)
        (by rw [← hfname.name, heq, haname.name])
      exact hclash c hc a ha (hsame ▸ List.mem_map_of_mem hf)

/-- Where names are replaced one to one no name is given twice in one place if none was. -/
theorem SchemaTree.Renamed.distinct {tree tree' : SchemaTree} (h : tree.Renamed ρ tree')
    (hinj : ∀ x ∈ N, ∀ y ∈ N, ρ x = ρ y → x = y)
    (hN : ∀ m ∈ tree.modules, ∀ n ∈ m.givenNames, n ∈ N) (hdistinct : tree.Distinct) :
    tree'.Distinct where
  names := nodup_renamed h (fun _ _ hm => hm.name) hinj
    (fun m hm => hN m hm _ List.mem_cons_self) hdistinct.names
  modules m' hm' := by
    obtain ⟨m, hm, hrenamed⟩ := Outcome.exists_of_mem_right h hm'
    obtain ⟨-, htypes⟩ := List.forall_mem_cons.mp (hN m hm)
    simp only [List.forall_mem_flatMap, List.forall_mem_cons] at htypes
    refine ⟨nodup_renamed hrenamed.types (fun _ _ ht => ht.name) hinj (fun t ht => (htypes t ht).1)
      (hdistinct.modules m hm).names, fun t' ht' => ?_⟩
    obtain ⟨t, ht, htrenamed⟩ := Outcome.exists_of_mem_right hrenamed.types ht'
    exact htrenamed.body.distinct hinj (htypes t ht).2 ((hdistinct.modules m hm).bodies t ht)

end Distinct

/-! ## Derivations with other names -/

/-- The second token is of the kind of the first and, if it is a name, has what is given for it. -/
structure Token.Respells (ρ : String → String) (t t' : Token) : Prop where
  kind : t'.kind = t.kind
  text : t.kind = .name → t'.text = ρ t.text

theorem Token.Renames.respells {t t' : Token} (h : Token.Renames ρ t t')
    (hname : t.kind = .name → TokenKind.ofWord (ρ t.text) = .name) : Token.Respells ρ t t' := by
  by_cases hkind : t.kind = .name
  · refine ⟨?_, fun _ => ?_⟩
    · rw [h.kind, if_pos hkind, hname hkind, hkind]
    · rw [h.text, if_pos hkind]
  · refine ⟨?_, fun hname => absurd hname hkind⟩
    rw [h.kind, if_neg hkind]

namespace Grammar

open Token (Respells)

variable {α : Type} {Item : List Token → α → Prop} {R : α → α → Prop} {kind : TokenKind}
  {ts ts' : List Token}

theorem exists_many_renamed {as : List α} (h : Many Item ts as)
    (hts : List.Forall₂ (Respells ρ) ts ts')
    (hitem : ∀ {ts ts' a}, Item ts a → List.Forall₂ (Respells ρ) ts ts' →
      ∃ a', Item ts' a' ∧ R a a') :
    ∃ as', Many Item ts' as' ∧ List.Forall₂ R as as' := by
  induction h generalizing ts' with
  | nil =>
    cases hts
    exact ⟨[], .nil, .nil⟩
  | cons ha _ ih =>
    obtain ⟨us, vs, hus, hvs, rfl⟩ := Outcome.forall₂_append_left hts
    obtain ⟨a', ha', hR⟩ := hitem ha hus
    obtain ⟨as', has', hRs⟩ := ih hvs
    exact ⟨a' :: as', .cons ha' has', .cons hR hRs⟩

theorem exists_separated_renamed {as : List α} (h : Separated kind Item ts as)
    (hts : List.Forall₂ (Respells ρ) ts ts')
    (hitem : ∀ {ts ts' a}, Item ts a → List.Forall₂ (Respells ρ) ts ts' →
      ∃ a', Item ts' a' ∧ R a a') :
    ∃ as', Separated kind Item ts' as' ∧ List.Forall₂ R as as' := by
  induction h generalizing ts' with
  | one ha =>
    obtain ⟨a', ha', hR⟩ := hitem ha hts
    exact ⟨[a'], .one ha', .cons hR .nil⟩
  | cons ha hkind _ ih =>
    obtain ⟨us, vs, hus, hvs, rfl⟩ := Outcome.forall₂_append_left hts
    cases hvs with
    | cons hmark hvs =>
      obtain ⟨a', ha', hR⟩ := hitem ha hus
      obtain ⟨as', has', hRs⟩ := ih hvs
      exact ⟨a' :: as', .cons ha' (hmark.kind.trans hkind) has', .cons hR hRs⟩

theorem exists_field_renamed {f : FieldDecl} (h : Field ts f)
    (hts : List.Forall₂ (Respells ρ) ts ts') : ∃ f', Field ts' f' ∧ f.Renamed ρ f' := by
  cases h with
  | plain htype hname =>
    obtain _ | ⟨ht, _ | ⟨hn, ⟨⟩⟩⟩ := hts
    exact ⟨_, .plain (ht.kind.trans htype) (hn.kind.trans hname), hn.text hname, ht.text htype, rfl⟩
  | marked htype hmark hname =>
    obtain _ | ⟨ht, _ | ⟨hm, _ | ⟨hn, ⟨⟩⟩⟩⟩ := hts
    exact ⟨_, .marked (ht.kind.trans htype) (hm.kind ▸ hmark) (hn.kind.trans hname),
      hn.text hname, ht.text htype, rfl⟩

theorem exists_fields_renamed {fs : List FieldDecl} (h : Fields ts fs)
    (hts : List.Forall₂ (Respells ρ) ts ts') :
    ∃ fs', Fields ts' fs' ∧ List.Forall₂ (FieldDecl.Renamed ρ) fs fs' := by
  cases h with
  | empty hl hr =>
    obtain _ | ⟨hl', _ | ⟨hr', ⟨⟩⟩⟩ := hts
    exact ⟨[], .empty (hl'.kind.trans hl) (hr'.kind.trans hr), .nil⟩
  | filled hl hfs hr =>
    obtain _ | ⟨hl', hts⟩ := hts
    obtain ⟨us, vs, hus, hvs, rfl⟩ := Outcome.forall₂_append_left hts
    obtain _ | ⟨hr', ⟨⟩⟩ := hvs
    obtain ⟨fs', hfs', hR⟩ := exists_separated_renamed hfs hus exists_field_renamed
    exact ⟨fs', .filled (hl'.kind.trans hl) hfs' (hr'.kind.trans hr), hR⟩

theorem exists_ctor_renamed {c : ConstructorDecl} (h : Ctor ts c)
    (hts : List.Forall₂ (Respells ρ) ts ts') : ∃ c', Ctor ts' c' ∧ c.Renamed ρ c' := by
  cases h with
  | bare hname =>
    obtain _ | ⟨hn, ⟨⟩⟩ := hts
    exact ⟨_, .bare (hn.kind.trans hname), hn.text hname, .nil⟩
  | listed hname hfs =>
    obtain _ | ⟨hn, hts⟩ := hts
    obtain ⟨fs', hfs', hR⟩ := exists_fields_renamed hfs hts
    exact ⟨_, .listed (hn.kind.trans hname) hfs', hn.text hname, hR⟩

theorem exists_attributes_renamed {fs : List FieldDecl} (h : Attributes ts fs)
    (hts : List.Forall₂ (Respells ρ) ts ts') :
    ∃ fs', Attributes ts' fs' ∧ List.Forall₂ (FieldDecl.Renamed ρ) fs fs' := by
  cases h with
  | missing =>
    cases hts
    exact ⟨[], .missing, .nil⟩
  | given hkeyword hfs =>
    obtain _ | ⟨hk, hts⟩ := hts
    obtain ⟨fs', hfs', hR⟩ := exists_fields_renamed hfs hts
    exact ⟨fs', .given (hk.kind.trans hkeyword) hfs', hR⟩

theorem exists_body_renamed {body : TypeBody} (h : Body ts body)
    (hts : List.Forall₂ (Respells ρ) ts ts') : ∃ body', Body ts' body' ∧ body.Renamed ρ body' := by
  cases h with
  | product hfs =>
    obtain ⟨fs', hfs', hR⟩ := exists_fields_renamed hfs hts
    exact ⟨_, .product hfs', .product hR⟩
  | sum hcs hattributes =>
    obtain ⟨us, vs, hus, hvs, rfl⟩ := Outcome.forall₂_append_left hts
    obtain ⟨cs', hcs', hR⟩ := exists_separated_renamed hcs hus exists_ctor_renamed
    obtain ⟨fs', hfs', hR'⟩ := exists_attributes_renamed hattributes hvs
    exact ⟨_, .sum hcs' hfs', .sum hR hR'⟩

theorem exists_decl_renamed {t : TypeDecl} (h : Decl ts t)
    (hts : List.Forall₂ (Respells ρ) ts ts') : ∃ t', Decl ts' t' ∧ t.Renamed ρ t' := by
  cases h with
  | declared hname hequals hbody =>
    obtain _ | ⟨hn, _ | ⟨he, hts⟩⟩ := hts
    obtain ⟨body', hbody', hR⟩ := exists_body_renamed hbody hts
    exact ⟨_, .declared (hn.kind.trans hname) (he.kind.trans hequals) hbody', hn.text hname, hR⟩

theorem exists_module_renamed {m : ModuleDecl} (h : Module ts m)
    (hts : List.Forall₂ (Respells ρ) ts ts') : ∃ m', Module ts' m' ∧ m.Renamed ρ m' := by
  cases h with
  | declared hkeyword hname hl htypes hr =>
    obtain _ | ⟨hk, _ | ⟨hn, _ | ⟨hl', hts⟩⟩⟩ := hts
    obtain ⟨us, vs, hus, hvs, rfl⟩ := Outcome.forall₂_append_left hts
    obtain _ | ⟨hr', ⟨⟩⟩ := hvs
    obtain ⟨types', htypes', hR⟩ := exists_many_renamed htypes hus exists_decl_renamed
    exact ⟨_, .declared (hk.kind.trans hkeyword) (hn.kind.trans hname) (hl'.kind.trans hl) htypes'
      (hr'.kind.trans hr), hn.text hname, hR⟩

/-- What is derived from tokens is derived, with other names, from the tokens with these names. -/
theorem exists_schema_renamed {tree : SchemaTree} (h : Schema ts tree)
    (hts : List.Forall₂ (Respells ρ) ts ts') : ∃ tree', Schema ts' tree' ∧ tree.Renamed ρ tree' := by
  cases h with
  | modules hms hend =>
    obtain ⟨us, vs, hus, hvs, rfl⟩ := Outcome.forall₂_append_left hts
    obtain _ | ⟨hend', ⟨⟩⟩ := hvs
    obtain ⟨ms', hms', hR⟩ := exists_many_renamed hms hus exists_module_renamed
    exact ⟨⟨ms'⟩, .modules hms' (hend'.kind.trans hend), hR⟩

/-! ## No reserved words -/

/-- None of the tokens is reserved. -/
def Free (ts : List Token) : Prop := ∀ t ∈ ts, t.kind ≠ .reserved

@[simp] theorem free_nil : Free [] := by simp [Free]

@[simp] theorem free_cons {t : Token} : Free (t :: ts) ↔ t.kind ≠ .reserved ∧ Free ts :=
  List.forall_mem_cons

@[simp] theorem free_append : Free (ts ++ ts') ↔ Free ts ∧ Free ts' := List.forall_mem_append

theorem Many.free {as : List α} (h : Many Item ts as) (hitem : ∀ {ts a}, Item ts a → Free ts) :
    Free ts := by
  induction h with
  | nil => exact free_nil
  | cons ha _ ih => exact free_append.mpr ⟨hitem ha, ih⟩

theorem Separated.free {as : List α} (h : Separated kind Item ts as) (hkind : kind ≠ .reserved)
    (hitem : ∀ {ts a}, Item ts a → Free ts) : Free ts := by
  induction h with
  | one ha => exact hitem ha
  | cons ha ht _ ih => exact free_append.mpr ⟨hitem ha, free_cons.mpr ⟨ht ▸ hkind, ih⟩⟩

theorem Field.free {f : FieldDecl} (h : Field ts f) : Free ts := by
  cases h with
  | plain htype hname => simp [htype, hname]
  | @marked type mark name _ htype hmark hname =>
    have hne : mark.kind ≠ .reserved := by
      intro heq
      rw [heq] at hmark
      cases hmark
    simp [htype, hne, hname]

theorem Fields.free {fs : List FieldDecl} (h : Fields ts fs) : Free ts := by
  cases h with
  | empty hl hr => simp [hl, hr]
  | filled hl hfs hr => simp [hl, hr, hfs.free (by decide) Field.free]

theorem Ctor.free {c : ConstructorDecl} (h : Ctor ts c) : Free ts := by
  cases h with
  | bare hname => simp [hname]
  | listed hname hfs => simp [hname, hfs.free]

theorem Body.free {body : TypeBody} (h : Body ts body) : Free ts := by
  cases h with
  | product hfs => exact hfs.free
  | sum hcs hattributes =>
    refine free_append.mpr ⟨hcs.free (by decide) Ctor.free, ?_⟩
    cases hattributes with
    | missing => exact free_nil
    | given hkeyword hfs => simp [hkeyword, hfs.free]

theorem Decl.free {t : TypeDecl} (h : Decl ts t) : Free ts := by
  cases h with
  | declared hname hequals hbody => simp [hname, hequals, hbody.free]

theorem Module.free {m : ModuleDecl} (h : Module ts m) : Free ts := by
  cases h with
  | declared hkeyword hname hl htypes hr => simp [hkeyword, hname, hl, hr, htypes.free Decl.free]

/-- The tokens that a schema is derived from are not reserved. -/
theorem Schema.free {tree : SchemaTree} (h : Schema ts tree) : Free ts := by
  cases h with
  | modules hms hend => simp [hend, hms.free Module.free]

end Grammar

/-! ## Texts with other names -/

theorem Token.mem_namesOf {source : String} {tokens : List Token}
    (h : tokenize source = .ok tokens) {name : String} :
    name ∈ namesOf source ↔ ∃ t ∈ tokens, t.kind = .name ∧ t.text = name := by
  simp [namesOf, h, names, and_assoc]

/-- A word is a name if it is neither a keyword nor reserved. -/
theorem TokenKind.ofWord_eq {word : String} (hmodule : word ≠ "module")
    (hattributes : word ≠ "attributes") :
    ofWord word = if word ∈ reservedWords then reserved else name := by
  rw [ofWord, if_neg hmodule, if_neg hattributes]

namespace SchemaTree

open Token (namesOf renamed)

variable {source : String} {tree : SchemaTree}

/-- A text that parses still parses when its names are replaced one to one by other words than the
keywords, exactly if none of these words is reserved; and its tree is then the tree of the text with
the names replaced. -/
theorem parse_renamed (h : parse source = .ok tree)
    (hinj : ∀ x ∈ namesOf source, ∀ y ∈ namesOf source, ρ x = ρ y → x = y)
    (hwords : ∀ x ∈ namesOf source,
      Token.IsWord (ρ x) ∧ ρ x ≠ "module" ∧ ρ x ≠ "attributes") :
    ((∃ tree', parse (renamed ρ source) = .ok tree') ↔
      ∀ x ∈ namesOf source, ρ x ∉ TokenKind.reservedWords) ∧
    ∀ tree', parse (renamed ρ source) = .ok tree' → tree.Renamed ρ tree' := by
  obtain ⟨tokens, htokens⟩ := exists_tokens_of_parse h
  obtain ⟨hschema, hdistinct⟩ := (parse_eq_ok_iff htokens).mp h
  have hname : ∀ u ∈ tokens, u.kind = .name → u.text ∈ namesOf source := fun u hu hkind =>
    (Token.mem_namesOf htokens).mpr ⟨u, hu, hkind, rfl⟩
  obtain ⟨tokens', htokens', hrenames⟩ := Token.tokenize_renamed htokens
    fun u hu hkind => (hwords _ (hname u hu hkind)).1
  have hiff (tree' : SchemaTree) : parse (renamed ρ source) = .ok tree' ↔
      Grammar.Schema tokens' tree' ∧ tree'.Distinct := parse_eq_ok_iff htokens'
  -- where no word is reserved, the derivation goes through with the new names
  have hparse : (∀ x ∈ namesOf source, ρ x ∉ TokenKind.reservedWords) →
      ∃ tree', parse (renamed ρ source) = .ok tree' ∧ tree.Renamed ρ tree' := by
    intro hfree
    have hrespells : List.Forall₂ (Token.Respells ρ) tokens tokens' := by
      refine (Outcome.forall₂_mem_and hrenames).imp fun t t' ⟨ht, hrenames⟩ =>
        hrenames.respells fun hkind => ?_
      obtain ⟨-, hmodule, hattributes⟩ := hwords _ (hname t ht hkind)
      rw [TokenKind.ofWord_eq hmodule hattributes, if_neg (hfree _ (hname t ht hkind))]
    obtain ⟨tree', hschema', hrenamed⟩ := Grammar.exists_schema_renamed hschema hrespells
    exact ⟨tree', (hiff tree').mpr ⟨hschema',
      hrenamed.distinct hinj (given_of_schema hschema hname) hdistinct⟩, hrenamed⟩
  have hfree : (∃ tree', parse (renamed ρ source) = .ok tree') →
      ∀ x ∈ namesOf source, ρ x ∉ TokenKind.reservedWords := by
    rintro ⟨tree', hparse'⟩ x hx hreserved
    obtain ⟨t, ht, hkind, rfl⟩ := (Token.mem_namesOf htokens).mp hx
    obtain ⟨t', ht', hrenamed⟩ := Outcome.exists_of_mem_left hrenames ht
    obtain ⟨-, hmodule, hattributes⟩ := hwords _ hx
    refine ((hiff tree').mp hparse').1.free t' ht' ?_
    rw [hrenamed.kind, if_pos hkind, TokenKind.ofWord_eq hmodule hattributes, if_pos hreserved]
  refine ⟨⟨hfree, fun hwords' => ?_⟩, fun tree' hparse' => ?_⟩
  · obtain ⟨tree', hparse', -⟩ := hparse hwords'
    exact ⟨tree', hparse'⟩
  · obtain ⟨tree'', hparse'', hrenamed⟩ := hparse (hfree ⟨tree', hparse'⟩)
    rw [hparse''] at hparse'
    rwa [← Except.ok.inj hparse']

/-- The tree of `module m \x7b t = (int x) \x7d`. -/
def Sample.fieldTree : SchemaTree :=
  ⟨[⟨"m", ⟨1, 1⟩, [⟨"t", ⟨1, 12⟩, .product [⟨"x", "int", .single, ⟨1, 17⟩⟩]⟩]⟩]⟩

theorem Sample.parse_eq_fieldTree : parse "module m \x7b t = (int x) \x7d" = .ok fieldTree := rfl

theorem Sample.namesOf_field : namesOf "module m \x7b t = (int x) \x7d" = ["m", "t", "int", "x"] :=
  rfl

def Sample.swap (n : String) : String := if n = "int" then "x" else if n = "x" then "int" else n

/-- A field and its type may change names. -/
theorem parse_renamed_swap :
    ∃ tree', parse "module m \x7b t = (x int) \x7d" = .ok tree' ∧
      Sample.fieldTree.Renamed Sample.swap tree' := by
  have hinj : ∀ x ∈ namesOf "module m \x7b t = (int x) \x7d",
      ∀ y ∈ namesOf "module m \x7b t = (int x) \x7d", Sample.swap x = Sample.swap y → x = y := by
    rw [Sample.namesOf_field]
    decide
  have hwords : ∀ x ∈ namesOf "module m \x7b t = (int x) \x7d",
      Token.IsWord (Sample.swap x) ∧ Sample.swap x ≠ "module" ∧ Sample.swap x ≠ "attributes" := by
    rw [Sample.namesOf_field]
    decide
  obtain ⟨-, hrenamed⟩ := parse_renamed Sample.parse_eq_fieldTree hinj hwords
  exact ⟨_, rfl, hrenamed _ rfl⟩

/-- A field that is called otherwise may be refused, though the word is no keyword. -/
theorem exists_parse_renamed_eq_error : ∃ ρ : String → String,
    parse "module m \x7b t = (int x) \x7d" = .ok Sample.fieldTree ∧
    (∀ x ∈ namesOf "module m \x7b t = (int x) \x7d",
      ∀ y ∈ namesOf "module m \x7b t = (int x) \x7d", ρ x = ρ y → x = y) ∧
    (∀ x ∈ namesOf "module m \x7b t = (int x) \x7d",
      Token.IsWord (ρ x) ∧ ρ x ≠ "module" ∧ ρ x ≠ "attributes") ∧
    renamed ρ "module m \x7b t = (int x) \x7d" = "module m \x7b t = (int constructor) \x7d" ∧
    ∀ tree', parse "module m \x7b t = (int constructor) \x7d" ≠ .ok tree' := by
  refine ⟨fun n => if n = "x" then "constructor" else n, Sample.parse_eq_fieldTree, ?_, ?_, rfl,
    fun tree' h => by cases h⟩
  · rw [Sample.namesOf_field]
    decide
  · rw [Sample.namesOf_field]
    decide

end SchemaTree

end Schemata
