import Schemata.Proofs.Model.Inhabited
import Schemata.Proofs.Model.Naming

/-!
# Loading on top of a model

A model that is made by loads is consistent (`Model.Consistent`): modules and types are told apart
by their names, every type is found by its qualified name and in the module that it says it is from,
a bare name means the first type that has it, and references lead to types that stand in the same
module or before it. A load on top of the model only adds to it (`Model.ExtendedBy`): names that had
a meaning keep it, and so do constructions and checks that use them.

Both rest on what is between two loads, not on the text that is loaded
(`Model.Reachable.load_extends`). A qualified name is looked up from the end and a bare one from the
beginning, so the former must belong to a single type for it to keep its meaning.
-/

namespace Schemata

/-- Every name of the model has the meaning that it should have, and every reference leads to one
type of the model, in the same module or an earlier one. -/
structure Model.Consistent (m : Model) : Prop where
  moduleNames : (m.modules.map Module.name).Nodup
  ids : (m.types.map TypeDef.id).Nodup
  lookup_id : ∀ t ∈ m.types, m.lookup t.id = some t
  listed : ∀ t ∈ m.types, ∃ M, m.getModule t.module = some M ∧ t ∈ M.types
  bare : ∀ t ∈ m.types, '.' ∉ t.name.toList
  lookup_name : ∀ name, '.' ∉ name.toList → ∀ t, m.lookup name = some t ↔
    ∃ before after, m.types = before ++ t :: after ∧ t.name = name ∧ ∀ e ∈ before, e.name ≠ name
  references : ∀ before M after, m.modules = before ++ M :: after → ∀ t ∈ M.types, ∀ k,
    t.Mentions k → ∃ t' ∈ (before ++ [M]).flatMap Module.types, t'.key = k ∧
      ∀ t'' ∈ m.types, t''.key = k → t'' = t'

/-- What a name means in `base` it means in `m`. A construction by such a name comes out the same, a
check against it is one against the same type, and the values that `base` makes are accepted by `m`
wherever one of their type is expected, in any store that has them. -/
structure Model.ExtendedBy (base m : Model) : Prop where
  lookup_eq : ∀ name t, base.lookup name = some t → m.lookup name = some t
  construct_eq : ∀ name t, base.lookup name = some t → ∀ (s : Store) constructorName inputs,
    s.construct m name constructorName inputs = s.construct base name constructorName inputs
  expected_eq : ∀ name t, base.lookup name = some t →
    m.expected (.named name) = base.expected (.named name)
  accepts : ∀ (s s' s'' : Store) name constructorName inputs r,
    s.construct base name constructorName inputs = .ok (r, s') →
    (∀ b, s'.HasBuilt r b → s''.HasBuilt r b) →
    ∃ t, base.lookup name = some t ∧
      (∀ name', base.lookup name' = some t → m.expected (.named name') = .ok (.declared t.key)) ∧
      s''.check (.declared t.key) (.object r) = .ok () ∧
      ∀ place, Check.element s'' s''.size [] (.declared t.key) (.object r) place = .ok ()

/-- A construction that succeeds leaves a value of the type behind. -/
theorem Store.built_of_construct_eq_ok {s s' : Store} {m : Model} {typeName : String}
    {constructorName : Option String} {inputs : Inputs} {r : Ref}
    (h : s.construct m typeName constructorName inputs = .ok (r, s')) :
    ∃ t c fields, m.getType typeName = .ok t ∧ t.Alternative c ∧
      s'.HasBuilt r ⟨t, c, fields⟩ := by
  obtain ⟨t, c, contents, ht, hc, -, h⟩ := exists_of_construct_eq_ok h
  obtain ⟨-, hbuilt, -⟩ := Construct.enclose_spec t c
    (Construct.settleAll s (Construct.declared t c) contents).1
    (Construct.settleAll s (Construct.declared t c) contents).2
  rw [h] at hbuilt
  exact ⟨t, c, _, ht, .of_constructor_eq_ok hc, hbuilt⟩

namespace Model

variable {m base : Model} {next serial : Nat} {limit : Option Number} {source : String}
  {loaded : Loaded} {t : TypeDef} {k : TypeKey} {name : String}

/-! ## Consistent models -/

/-- What stands in one list behind another stands in the first, or in the second. -/
theorem split_of_append_eq {α : Type} {as bs before after : List α} {a : α}
    (h : as ++ bs = before ++ a :: after) :
    (∃ rest, as = before ++ a :: rest) ∨ ∃ front, before = as ++ front ∧ bs = front ++ a :: after := by
  rcases List.append_eq_append_iff.mp h with ⟨front, hbefore, hbs⟩ | ⟨rest, has, hafter⟩
  · exact .inr ⟨front, hbefore, hbs⟩
  · cases rest with
    | nil => exact .inr ⟨[], by simpa using has.symm, hafter.symm⟩
    | cons a' rest =>
      obtain ⟨rfl, -⟩ := List.cons.inj hafter
      exact .inl ⟨rest, has⟩

/-- The module that a type says it is from lists it. -/
theorem Sound.exists_getModule (h : m.Sound next) (ht : t ∈ m.types) :
    ∃ M, m.getModule t.module = some M ∧ t ∈ M.types := by
  obtain ⟨M, hM, ht⟩ := List.mem_flatMap.mp ht
  have hname : t.module = M.name := ((h.modules M hM).1.key t ht).2
  exact ⟨M, hname ▸ h.getModule_name hM, ht⟩

/-- References lead to types of the same module or of an earlier one. -/
theorem Reachable.exists_of_mentions (h : m.Reachable next) {before after : List Module}
    {M : Module} (hsplit : m.modules = before ++ M :: after) (ht : t ∈ M.types)
    (hk : t.Mentions k) : ∃ t' ∈ (before ++ [M]).flatMap Module.types, t'.key = k := by
  induction h generalizing before after with
  | empty => simp [Model.empty] at hsplit
  | @load base _ serial _ _ loaded _ _ hload ih =>
    obtain ⟨tree, htree, hresolved, -, hmodules⟩ := of_load_eq_ok hload
    rw [hmodules] at hsplit
    rcases split_of_append_eq hsplit with ⟨rest, hbase⟩ | ⟨front, rfl, hnew⟩
    · exact ih hbase
    · have hdistinct := (SchemaTree.of_parse_eq_ok htree).1
      rcases Resolve.exists_of_mentions hdistinct.modules hresolved hnew ht hk with
        ⟨_, hscope, -⟩ | ⟨t', ht', hkey⟩
      · cases hscope
      · rw [List.append_assoc, List.flatMap_append]
        exact ⟨t', ht', hkey⟩

theorem Reachable.consistent (h : m.Reachable next) : m.Consistent where
  moduleNames := h.sound.names
  ids := h.nodup_ids
  lookup_id t ht := getType_eq_ok.mp (h.sound.getType_id ht)
  listed t ht := h.sound.exists_getModule ht
  bare t ht := (h.named_type ht).word.dot_notMem
  lookup_name name hname t := lookup_eq_some_iff_first hname
  references before M after hsplit t ht k hk := by
    obtain ⟨t', ht', hkey⟩ := h.exists_of_mentions hsplit ht hk
    have hmem : t' ∈ m.types := by
      rw [types, hsplit, List.append_cons, List.flatMap_append]
      exact List.mem_append_left _ ht'
    refine ⟨t', ht', hkey, fun t'' ht'' hkey'' => h.sound.eq_of_id_eq hmem ht'' ?_⟩
    rw [TypeDef.id, TypeDef.id, hkey'', hkey]

/-! ## Extensions -/

/-- The modules of a load stand behind those of the base, so a name that the base knows keeps its
meaning if a qualified name belongs to one type only. -/
theorem lookup_of_lookup_base (hm : m.Sound next) {modules : List Module}
    (hmodules : m.modules = base.modules ++ modules) (h : base.lookup name = some t) :
    m.lookup name = some t := by
  have htypes := types_append hmodules
  by_cases hdot : '.' ∈ name.toList
  · have hid : t.id = name := by
      rw [lookup, if_pos hdot] at h
      simpa using List.find?_some h
    have ht : t ∈ m.types := htypes ▸ List.mem_append_left _ (mem_of_lookup_eq_some h)
    rw [← hid]
    exact getType_eq_ok.mp (hm.getType_id ht)
  · rw [lookup, if_neg hdot, byName] at h ⊢
    rw [htypes, List.find?_append, h]
    rfl

/-- No primitive type has a name that means a type of the model. -/
theorem ofName?_eq_none_of_lookup (hnames : ∀ t ∈ m.types, t.Named) (h : m.lookup name = some t) :
    Primitive.ofName? name = none := by
  refine Primitive.ofName?_eq_none.mpr fun p hp => ?_
  by_cases hdot : '.' ∈ name.toList
  · subst hp
    revert hdot
    cases p <;> decide
  · obtain ⟨before, after, htypes, hname, -⟩ := (lookup_eq_some_iff_first hdot).mp h
    exact (hnames t (mem_of_lookup_eq_some h)).not_primitive p (hp.trans hname.symm)

/-- What keeps the meaning of names keeps all that is done by name. -/
theorem extendedBy_of_lookup (hnames : ∀ t ∈ base.types, t.Named)
    (h : ∀ name t, base.lookup name = some t → m.lookup name = some t) : base.ExtendedBy m := by
  have hgetType (name : String) (t : TypeDef) (ht : base.lookup name = some t) :
      m.getType name = .ok t ∧ base.getType name = .ok t :=
    ⟨getType_eq_ok.mpr (h name t ht), getType_eq_ok.mpr ht⟩
  refine ⟨h, fun name t ht s constructorName inputs => ?_, fun name t ht => ?_, ?_⟩
  · obtain ⟨hm, hbase⟩ := hgetType name t ht
    rw [Store.construct, Store.construct, hm, hbase]
  · obtain ⟨hm, hbase⟩ := hgetType name t ht
    rw [expected, expected, hm, hbase]
  · intro s s' s'' name constructorName inputs r hmade hr
    obtain ⟨t, c, fields, ht, hc, hbuilt⟩ := Store.built_of_construct_eq_ok hmade
    have hlookup := getType_eq_ok.mp ht
    have hconforms := Store.supplies_of_hasBuilt hc (hr _ hbuilt) s'' (.refl s'')
    refine ⟨t, hlookup, fun name' hname' => ?_, Store.check_eq_ok_iff.mpr hconforms,
      fun _ => Store.element_eq_ok_iff.mpr hconforms⟩
    obtain ⟨hm, -⟩ := hgetType name' t hname'
    rw [expected, ofName?_eq_none_of_lookup hnames hname', hm]
    rfl

/-- A model made by loads is consistent, and so is what a load on top of it makes; this extends the
model. -/
theorem Reachable.load_extends (h : base.Reachable next) (hserial : next ≤ serial)
    (hload : base.load serial limit source = .ok loaded) :
    loaded.model.Consistent ∧ base.ExtendedBy loaded.model := by
  have hloaded : loaded.model.Reachable _ := .load h hserial hload
  obtain ⟨-, -, -, -, hmodules⟩ := of_load_eq_ok hload
  exact ⟨hloaded.consistent, extendedBy_of_lookup (fun t ht => h.named_type ht)
    fun name t => lookup_of_lookup_base hloaded.sound hmodules⟩

/-- The tree of `module n \x7b expr = (int v) pair = (expr l, expr? r) \x7d`. -/
def Sample.pairTree : SchemaTree :=
  ⟨[⟨"n", ⟨1, 1⟩, [⟨"expr", ⟨1, 12⟩, .product [⟨"v", "int", .single, ⟨1, 20⟩⟩]⟩,
    ⟨"pair", ⟨1, 27⟩, .product [⟨"l", "expr", .single, ⟨1, 35⟩⟩,
      ⟨"r", "expr", .optional, ⟨1, 43⟩⟩]⟩]⟩]⟩

theorem Sample.parse_eq_pairTree :
    SchemaTree.parse "module n \x7b expr = (int v) pair = (expr l, expr? r) \x7d" =
      .ok pairTree := rfl

/-- A second type `expr` is loaded: the bare name goes on to mean the first one. -/
theorem Reachable.load_extends_pair : ∃ loaded, Sample.exprModel.load 1 none
      "module n \x7b expr = (int v) pair = (expr l, expr? r) \x7d" = .ok loaded ∧
    loaded.model.types.map TypeDef.id = ["m.expr", "n.expr", "n.pair"] ∧
    loaded.model.lookup "expr" = some Sample.expr ∧
    loaded.model.Consistent ∧ Sample.exprModel.ExtendedBy loaded.model := by
  have hbase : Sample.exprModel.Reachable 1 := .load .empty (Nat.zero_le 0) Sample.load_eq_exprModel
  have hload : ∃ loaded, Sample.exprModel.loadTree 1 none Sample.pairTree = .ok loaded ∧
      loaded.model.types.map TypeDef.id = ["m.expr", "n.expr", "n.pair"] := ⟨_, rfl, by decide⟩
  obtain ⟨loaded, htree, hids⟩ := hload
  have hload : Sample.exprModel.load 1 none
      "module n \x7b expr = (int v) pair = (expr l, expr? r) \x7d" = .ok loaded := by
    rw [Model.load, Sample.parse_eq_pairTree, Outcome.ok_bind, htree]
  obtain ⟨hconsistent, hextended⟩ := hbase.load_extends (Nat.le_refl 1) hload
  exact ⟨loaded, hload, hids, hextended.lookup_eq "expr" _ rfl, hconsistent, hextended⟩

end Model

end Schemata
