import Schemata.Proofs.Model.Resolvable
import Schemata.Proofs.Value.Construction

/-!
# Where references lead

A field of a declared type holds the key of that type. Resolution takes the key from a scope, and
the scopes of a module are those of itself and of what stands before it. So in what is made of a
tree every reference of a module leads to a type of this module, of an earlier one or of a base
module (`Resolve.exists_of_mentions`).
-/

namespace Schemata

/-- Some value of the type has a field of the type with the key. -/
def TypeDef.RefersTo (t : TypeDef) (k : TypeKey) : Prop :=
  ∃ c, t.Alternative c ∧ ∃ f ∈ Construct.declared t c, f.type = .declared k

/-- A field of the definition, be it one of its values or one that its constructors share, is of the
type with the key. -/
def TypeDef.Mentions (t : TypeDef) (k : TypeKey) : Prop :=
  ∃ f ∈ t.allFields ++ t.attributes, f.type = .declared k

/-- The module declares the type of the key, or one of its definitions mentions it. -/
def Module.Uses (M : Module) (k : TypeKey) : Prop := ∃ t ∈ M.types, t.key = k ∨ t.Mentions k

theorem TypeDef.mem_allFields {t : TypeDef} {f : Field} :
    f ∈ t.allFields ↔ ∃ c, t.Alternative c ∧ f ∈ Construct.declared t c := by
  constructor
  · intro h
    unfold allFields at h
    cases hshape : t.shape with
    | product fields =>
      rw [hshape] at h
      exact ⟨none, .product hshape, by rwa [Construct.declared, TypeDef.fields, hshape]⟩
    | sum cs attributes =>
      rw [hshape] at h
      obtain ⟨c, hc, hf⟩ := List.mem_flatMap.mp h
      exact ⟨some c, .sum hshape hc, hf⟩
  · rintro ⟨c, hc, hf⟩
    cases hc with
    | product hshape =>
      rw [Construct.declared, TypeDef.fields, hshape] at hf
      rwa [allFields, hshape]
    | sum hshape hc =>
      rw [allFields, hshape]
      exact List.mem_flatMap.mpr ⟨_, hc, hf⟩

theorem TypeDef.RefersTo.mentions {t : TypeDef} {k : TypeKey} (h : t.RefersTo k) :
    t.Mentions k := by
  obtain ⟨c, hc, f, hf, htype⟩ := h
  exact ⟨f, List.mem_append_left _ (mem_allFields.mpr ⟨c, hc, hf⟩), htype⟩

namespace Resolve

variable {scopes text : List Scope} {key k : TypeKey} {decl : TypeDecl} {t : TypeDef}
  {base : List Module} {serial : Nat} {ms : List ModuleDecl} {resolved : Resolved}

theorem find_of_field {shared : Bool} {fd : FieldDecl} {f : Field}
    (h : DefinesField scopes shared fd f) (hf : f.type = .declared k) :
    find scopes k.name = some k := by
  have hmeaning := h.type
  unfold meaning? at hmeaning
  rw [hf] at hmeaning
  split at hmeaning
  · cases hmeaning
  · obtain ⟨k', hfind, hk⟩ := Option.map_eq_some_iff.mp hmeaning
    obtain rfl := TypeRef.declared.inj hk
    rwa [(of_find_eq_some hfind).1]

theorem find_of_fields {shared : Bool} {fds : List FieldDecl} {fs : List Field} {f : Field}
    (h : List.Forall₂ (DefinesField scopes shared) fds fs) (hf : f ∈ fs)
    (htype : f.type = .declared k) : find scopes k.name = some k := by
  obtain ⟨fd, -, hfd⟩ := Outcome.exists_of_mem_right h hf
  exact find_of_field hfd htype

/-- What a definition refers to is what its bare name means in the scopes. -/
theorem DefinesType.find_eq_some (h : DefinesType scopes key decl t) (hk : t.Mentions k) :
    find scopes k.name = some k := by
  obtain ⟨f, hf, htype⟩ := hk
  rw [List.mem_append] at hf
  cases h with
  | product _ hdefs _ =>
    rcases hf with hf | hf
    · exact find_of_fields hdefs hf htype
    · cases hf
  | sum _ hattributes _ hcs _ =>
    rcases hf with hf | hf
    · obtain ⟨c, hc, hf⟩ := List.mem_flatMap.mp hf
      obtain ⟨cdecl, -, hdef⟩ := Outcome.exists_of_mem_right hcs hc
      obtain ⟨own, hfields, -, heq⟩ := hdef.fields
      rw [heq] at hf
      rcases List.mem_append.mp hf with hf | hf
      · exact find_of_fields hfields hf htype
      · obtain ⟨a, ha, rfl⟩ := List.mem_map.mp hf
        exact find_of_fields hattributes ha htype
    · exact find_of_fields hattributes hf htype

/-- What a definition refers to stands in one of the scopes. -/
theorem DefinesType.exists_scope (h : DefinesType scopes key decl t) (hk : t.Mentions k) :
    ∃ scope ∈ scopes, k ∈ scope :=
  (of_find_eq_some (h.find_eq_some hk)).2

/-- What a sum type mentions for all of its constructors each of them has. -/
theorem DefinesType.refersTo (h : DefinesType scopes key decl t) {c : Option Constructor}
    (hc : t.Alternative c) (hk : t.Mentions k) : t.RefersTo k := by
  obtain ⟨f, hf, htype⟩ := hk
  rw [List.mem_append] at hf
  cases h with
  | product _ _ _ =>
    rcases hf with hf | hf
    · exact ⟨none, .product rfl, f, hf, htype⟩
    · cases hf
  | sum _ _ _ hcs _ =>
    rcases hf with hf | hf
    · obtain ⟨c, hc, hf⟩ := List.mem_flatMap.mp hf
      exact ⟨some c, .sum rfl hc, f, hf, htype⟩
    · cases hc with
      | product hshape => cases hshape
      | sum hshape hc =>
        obtain ⟨rfl, rfl⟩ := TypeShape.sum.inj hshape
        obtain ⟨_, -, hdef⟩ := Outcome.exists_of_mem_right hcs hc
        obtain ⟨own, -, -, heq⟩ := hdef.fields
        refine ⟨some _, .sum rfl hc, { f with index := own.length + f.index }, ?_, htype⟩
        rw [Construct.declared, heq]
        exact List.mem_append_right _ (List.mem_map_of_mem hf)

/-- The types of a module have the keys that stand in its scope. -/
theorem exists_type_of_mem_declaredScope {earlier : List Scope} {m : ModuleDecl} {made : Module}
    (hnames : (m.types.map TypeDecl.name).Nodup) (hmade : module serial earlier m = .ok made)
    (hk : k ∈ declaredScope serial m) : ∃ t ∈ made.types, t.key = k := by
  obtain ⟨decl, hdecl, rfl⟩ := mem_declaredScope.mp hk
  obtain ⟨t, ht, hdef⟩ := Outcome.exists_of_mem_left (of_module_eq_ok hnames hmade).2.2 hdecl
  exact ⟨t, ht, hdef.key_eq⟩

/-- What a module uses is what its bare name means there. -/
theorem find_of_uses {earlier : List Scope} {m : ModuleDecl} {made : Module}
    (hnames : (m.types.map TypeDecl.name).Nodup) (hmade : module serial earlier m = .ok made)
    (hk : made.Uses k) : find (declaredScope serial m :: earlier) k.name = some k := by
  obtain ⟨t, ht, hk⟩ := hk
  obtain ⟨decl, hdecl, hdef⟩ := Outcome.exists_of_mem_right (of_module_eq_ok hnames hmade).2.2 ht
  rcases hk with rfl | hk
  · have hmem : t.key ∈ declaredScope serial m := by
      rw [hdef.key_eq]
      exact mem_declaredScope.mpr ⟨decl, hdecl, rfl⟩
    have hfind : Scope.find (declaredScope serial m) t.key.name = some t.key := by
      refine Outcome.find?_eq_some_of_unique hmem (decide_eq_true rfl) fun k hk hname => ?_
      obtain ⟨_, -, rfl⟩ := mem_declaredScope.mp hk
      rw [hdef.key_eq] at hname ⊢
      exact congrArg (TypeKey.mk serial m.name) (of_decide_eq_true hname)
    rw [find, List.findSome?_cons, hfind]
  · exact hdef.find_eq_some hk

/-- References lead to types of the same module, of an earlier one of the tree or of a base module,
or into the scopes of what stands before the tree. -/
theorem exists_of_mentions (hms : ∀ m ∈ ms, m.Distinct)
    (h : modules base serial text ms = .ok resolved) {before after : List Module} {M : Module}
    (hsplit : resolved.modules = before ++ M :: after) (ht : t ∈ M.types) (hk : t.Mentions k) :
    (∃ scope ∈ text, k ∈ scope) ∨
      ∃ t' ∈ base.flatMap Module.types ++ (before ++ [M]).flatMap Module.types, t'.key = k := by
  induction ms generalizing serial text resolved before with
  | nil =>
    obtain rfl := Except.ok.inj h
    simp at hsplit
  | cons m ms ih =>
    obtain ⟨hm, hms⟩ := List.forall_mem_cons.mp hms
    obtain ⟨-, made, rest, hmade, hrest, heq⟩ := of_modules_cons_eq_ok h
    have hown := fun hk => exists_type_of_mem_declaredScope (k := k) hm.names hmade hk
    rw [heq] at hsplit
    cases before with
    | nil =>
      obtain ⟨rfl, -⟩ := List.cons.inj hsplit
      obtain ⟨decl, -, hdef⟩ := Outcome.exists_of_mem_right (of_module_eq_ok hm.names hmade).2.2 ht
      obtain ⟨scope, hscope, hk⟩ := hdef.exists_scope hk
      rcases List.mem_cons.mp hscope with rfl | hscope
      · obtain ⟨t', ht', hkey⟩ := hown hk
        exact .inr ⟨t', by simp [ht'], hkey⟩
      rcases List.mem_append.mp hscope with hscope | hscope
      · exact .inl ⟨scope, hscope, hk⟩
      · obtain ⟨b, hb, rfl⟩ := List.mem_map.mp hscope
        obtain ⟨t', ht', hkey⟩ := mem_loadedScope.mp hk
        exact .inr ⟨t', List.mem_append_left _ (List.mem_flatMap.mpr ⟨b, hb, ht'⟩), hkey⟩
    | cons first before =>
      rw [List.cons_append] at hsplit ⊢
      obtain ⟨rfl, htail⟩ := List.cons.inj hsplit
      rw [List.flatMap_cons]
      rcases ih hms hrest htail with ⟨scope, hscope, hk⟩ | ⟨t', ht', hkey⟩
      · rcases List.mem_append.mp hscope with hscope | hscope
        · exact .inl ⟨scope, hscope, hk⟩
        · obtain rfl := List.mem_singleton.mp hscope
          obtain ⟨t', ht', hkey⟩ := hown hk
          exact .inr ⟨t', by simp [ht'], hkey⟩
      · refine .inr ⟨t', ?_, hkey⟩
        rcases List.mem_append.mp ht' with ht' | ht'
        · exact List.mem_append_left _ ht'
        · exact List.mem_append_right _ (List.mem_append_right _ ht')

/-- References lead to types of the tree or of a base module. -/
theorem exists_of_refersTo (hms : ∀ m ∈ ms, m.Distinct)
    (h : modules base serial [] ms = .ok resolved)
    (ht : t ∈ resolved.modules.flatMap Module.types) (hk : t.RefersTo k) :
    ∃ t' ∈ base.flatMap Module.types ++ resolved.modules.flatMap Module.types, t'.key = k := by
  obtain ⟨M, hM, ht⟩ := List.mem_flatMap.mp ht
  obtain ⟨before, after, hsplit⟩ := List.append_of_mem hM
  rcases exists_of_mentions hms h hsplit ht hk.mentions with ⟨_, hscope, -⟩ | ⟨t', ht', hkey⟩
  · cases hscope
  · refine ⟨t', ?_, hkey⟩
    rw [hsplit, List.flatMap_append, List.flatMap_cons]
    rw [List.flatMap_append, List.flatMap_singleton] at ht'
    simp only [List.mem_append] at ht' ⊢
    tauto

end Resolve

end Schemata
