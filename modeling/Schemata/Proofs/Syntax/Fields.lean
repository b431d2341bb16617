import Schemata.Proofs.Model.Resolution
import Schemata.Proofs.Syntax.Parsing

/-!
# Fields and constructors of parsed trees

In the tree of a text every field gives a name for its type, and every sum has a constructor
(`SchemaTree.wellFormed_of_parse_eq_ok`): both are so in each rule of the grammar.
-/

namespace Schemata

/-- The types of fields are given by names, and a sum has a constructor. -/
structure TypeDecl.WellFormed (decl : TypeDecl) : Prop where
  typeNames : ∀ f ∈ Resolve.bodyFields decl.body, Token.IsName f.typeName
  constructors : ∀ cs attributes, decl.body = .sum cs attributes → cs ≠ []

namespace SchemaTree

variable {ts tokens : List Token}

theorem typeName_of_field {f : FieldDecl} (h : Grammar.Field ts f)
    (hts : ∀ u ∈ ts, u.kind = .name → Token.IsName u.text) : Token.IsName f.typeName := by
  cases h with
  | @plain type name htype _ => exact hts type (by simp) htype
  | @marked type mark name _ htype _ _ => exact hts type (by simp) htype

theorem typeNames_of_fields {fs : List FieldDecl} (h : Grammar.Fields ts fs)
    (hts : ∀ u ∈ ts, u.kind = .name → Token.IsName u.text) :
    ∀ f ∈ fs, Token.IsName f.typeName := by
  cases h with
  | empty _ _ => simp
  | filled _ hfs _ =>
    have hinner := (List.forall_mem_append.mp (List.forall_mem_cons.mp hts).2).1
    exact forall_mem_of_separated hfs hinner fun _ _ => typeName_of_field

theorem typeNames_of_ctor {c : ConstructorDecl} (h : Grammar.Ctor ts c)
    (hts : ∀ u ∈ ts, u.kind = .name → Token.IsName u.text) :
    ∀ f ∈ c.fields, Token.IsName f.typeName := by
  cases h with
  | bare _ => simp
  | listed _ hfs => exact typeNames_of_fields hfs (List.forall_mem_cons.mp hts).2

theorem wellFormed_of_decl {decl : TypeDecl} (h : Grammar.Decl ts decl)
    (hts : ∀ u ∈ ts, u.kind = .name → Token.IsName u.text) : decl.WellFormed := by
  cases h with
  | declared _ _ hbody =>
    replace hts := (List.forall_mem_cons.mp (List.forall_mem_cons.mp hts).2).2
    cases hbody with
    | product hfs => exact ⟨typeNames_of_fields hfs hts, by simp⟩
    | @sum ts us cs attributes hcs hattributes =>
      obtain ⟨hts, hus⟩ := List.forall_mem_append.mp hts
      have hshared : ∀ f ∈ attributes, Token.IsName f.typeName := by
        cases hattributes with
        | missing => simp
        | given _ hfs => exact typeNames_of_fields hfs (List.forall_mem_cons.mp hus).2
      have hown := forall_mem_of_separated hcs hts fun _ _ => typeNames_of_ctor
      refine ⟨?_, fun cs' attributes' heq => ?_⟩
      · rw [Resolve.bodyFields, List.forall_mem_append, List.forall_mem_flatMap]
        exact ⟨hshared, hown⟩
      · obtain ⟨rfl, -⟩ := TypeBody.sum.inj heq
        cases hcs <;> simp

theorem wellFormed_of_module {m : ModuleDecl} (h : Grammar.Module ts m)
    (hts : ∀ u ∈ ts, u.kind = .name → Token.IsName u.text) : ∀ t ∈ m.types, t.WellFormed := by
  cases h with
  | @declared keyword name l r ts types _ _ _ htypes _ =>
    have hinner : ∀ u ∈ ts, u.kind = .name → Token.IsName u.text := fun u hu => hts u (by simp [hu])
    exact forall_mem_of_many htypes hinner fun _ _ => wellFormed_of_decl

theorem wellFormed_of_schema {tree : SchemaTree} (h : Grammar.Schema tokens tree)
    (htokens : ∀ u ∈ tokens, u.kind = .name → Token.IsName u.text) :
    ∀ m ∈ tree.modules, ∀ t ∈ m.types, t.WellFormed := by
  cases h with
  | modules hms _ =>
    exact forall_mem_of_many hms (List.forall_mem_append.mp htokens).1 fun _ _ =>
      wellFormed_of_module

theorem wellFormed_of_parse_eq_ok {source : String} {tree : SchemaTree}
    (h : parse source = .ok tree) : ∀ m ∈ tree.modules, ∀ t ∈ m.types, t.WellFormed := by
  obtain ⟨tokens, htokens⟩ := exists_tokens_of_parse h
  obtain ⟨hschema, -⟩ := (parse_eq_ok_iff htokens).mp h
  exact wellFormed_of_schema hschema (Token.isName_of_tokenize_eq_ok htokens)

end SchemaTree

end Schemata
