import Schemata.Proofs.Value.Building

/-!
# Models of types that have values

A text whose names all have a meaning over a model is loaded if and only if each of its types has a
finite value; otherwise the load fails with a cycle. In a model made by loads, calls of construction
make a value of every type, and of a sum with every constructor
(`Model.Reachable.load_iff_hasValue`).
-/

namespace Schemata

variable {base : Model} {next serial : Nat} {tree : SchemaTree} {source : String}
  {resolved : Resolved}

namespace Resolve

/-- Every declaration of a tree has one definition, which is named like it. -/
theorem typeNames_of_modules_eq_ok {modules : List Module} {text : List Scope}
    {ms : List ModuleDecl} (hms : ∀ m ∈ ms, m.Distinct)
    (h : Resolve.modules modules serial text ms = .ok resolved) :
    (resolved.modules.map fun M => (M.name, M.types.map TypeDef.name)) =
      ms.map fun m => (m.name, m.types.map TypeDecl.name) := by
  have hall := Outcome.forall₂_mem_and (forall₂_of_modules_eq_ok h)
  refine Outcome.map_eq_of_forall₂ hall fun m made ⟨hm, _, _, hmade⟩ => ?_
  rw [(module_sound hmade).2.2, typeNames_of_module_eq_ok (hms m hm).names hmade]

end Resolve

namespace Model

/-- Over a model made by loads, a text whose names all have a meaning is loaded if and only if all
types that it declares have finite values, and is refused with a cycle otherwise. In the model that
it is loaded into, calls of construction on qualified names make a value of every type, with any
constructor if it is a sum. -/
theorem Reachable.load_iff_hasValue (h : base.Reachable next) (hserial : next ≤ serial)
    (hparse : SchemaTree.parse source = .ok tree) (htree : tree.Resolvable base.modules)
    (limit : Option Number) :
    ∃ resolved, Resolve.modules base.modules serial [] tree.modules = .ok resolved ∧
      (resolved.modules.map fun M => (M.name, M.types.map TypeDef.name)) =
        (tree.modules.map fun m => (m.name, m.types.map TypeDecl.name)) ∧
      ((∃ loaded, base.load serial limit source = .ok loaded) ↔
        ∀ t ∈ resolved.modules.flatMap Module.types, (TypeRef.declared t.key).HasValue
          (base.types ++ resolved.modules.flatMap Module.types)) ∧
      ((¬∃ loaded, base.load serial limit source = .ok loaded) →
        ∃ e, base.load serial limit source = .error (.cycle e)) ∧
      ∀ loaded, base.load serial limit source = .ok loaded →
        loaded.model.modules = base.modules ++ resolved.modules ∧
        ∀ t ∈ loaded.model.types, ∀ c, t.Alternative c → ∀ s : Store,
          ∃ calls rs r s' fields, s.Builds loaded.model calls (rs ++ [r]) s' ∧
            s'.HasBuilt r ⟨t, c, fields⟩ := by
  have hdistinct := (SchemaTree.of_parse_eq_ok hparse).1
  obtain ⟨resolved, hresolved⟩ := (Resolve.exists_modules_eq_ok serial
    (fun m hm => (hdistinct.modules m hm).names) .nil).mpr htree
  have hload := load_of_modules_eq_ok hparse hresolved limit
  have hcheck := h.sound.check_eq_ok_iff hserial hdistinct hresolved
  refine ⟨resolved, hresolved, Resolve.typeNames_of_modules_eq_ok hdistinct.modules hresolved,
    ?_, fun hnone => ?_, fun loaded hloaded => ?_⟩
  · rw [← hcheck, hload]
    cases Representable.check (resolved.modules.flatMap Module.types) with
    | ok => exact ⟨fun _ => rfl, fun _ => ⟨_, rfl⟩⟩
    | error e => simp
  · rw [hload] at hnone ⊢
    cases hverdict : Representable.check (resolved.modules.flatMap Module.types) with
    | ok =>
      rw [hverdict] at hnone
      exact absurd ⟨_, rfl⟩ hnone
    | error e => exact ⟨e, rfl⟩
  · refine ⟨?_, fun t ht c hc s => ((h.sound.load hserial hloaded).exists_calls ht hc s)⟩
    obtain ⟨tree', hparse', hresolved', -, hmodules⟩ := of_load_eq_ok hloaded
    obtain rfl := Except.ok.inj (hparse.symm.trans hparse')
    obtain rfl := Except.ok.inj (hresolved.symm.trans hresolved')
    exact hmodules

/-- The tree of `module m \x7b expr = Lit(int v) | Neg(expr e, expr* others) \x7d`. -/
def Sample.exprTree : SchemaTree :=
  ⟨[⟨"m", ⟨1, 1⟩, [⟨"expr", ⟨1, 12⟩, .sum
    [⟨"Lit", ⟨1, 19⟩, [⟨"v", "int", .single, ⟨1, 23⟩⟩]⟩,
      ⟨"Neg", ⟨1, 32⟩, [⟨"e", "expr", .single, ⟨1, 36⟩⟩, ⟨"others", "expr", .repeated, ⟨1, 44⟩⟩]⟩]
    []⟩]⟩]⟩

/-- The constructor of `expr` that has the type itself as a single field. -/
def Sample.neg : Constructor :=
  ⟨⟨0, "m", "expr"⟩, "Neg", 1, [⟨"e", 0, .declared ⟨0, "m", "expr"⟩, .single, false, ⟨1, 36⟩⟩,
    ⟨"others", 1, .declared ⟨0, "m", "expr"⟩, .repeated, false, ⟨1, 44⟩⟩], ⟨1, 32⟩⟩

def Sample.expr : TypeDef :=
  ⟨⟨0, "m", "expr"⟩, ⟨1, 12⟩, .sum [⟨⟨0, "m", "expr"⟩, "Lit", 0,
    [⟨"v", 0, .primitive .int, .single, false, ⟨1, 23⟩⟩], ⟨1, 19⟩⟩, neg] []⟩

def Sample.exprModel : Model := ⟨[⟨0, "m", [expr]⟩], defaultMaxDepth⟩

theorem Sample.parse_eq_exprTree :
    SchemaTree.parse "module m \x7b expr = Lit(int v) | Neg(expr e, expr* others) \x7d" =
      .ok exprTree := rfl

theorem Sample.loadTree_exprTree :
    (Model.empty none).loadTree 0 none exprTree = .ok ⟨exprModel, exprModel.modules, []⟩ := rfl

theorem Sample.load_eq_exprModel :
    (Model.empty none).load 0 none
      "module m \x7b expr = Lit(int v) | Neg(expr e, expr* others) \x7d" =
        .ok ⟨exprModel, exprModel.modules, []⟩ := by
  rw [load, parse_eq_exprTree, Outcome.ok_bind, loadTree_exprTree]

theorem Sample.resolvable_exprTree : exprTree.Resolvable (Model.empty none).modules :=
  (Resolve.exists_modules_eq_ok 0 (by decide) .nil).mp ⟨_, rfl⟩

theorem Reachable.load_iff_hasValue_expr :
    ∃ loaded, (Model.empty none).load 0 none
        "module m \x7b expr = Lit(int v) | Neg(expr e, expr* others) \x7d" = .ok loaded ∧
      ∃ calls rs r s' fields, Store.empty.Builds loaded.model calls (rs ++ [r]) s' ∧
        s'.HasBuilt r ⟨Sample.expr, some Sample.neg, fields⟩ := by
  have hbase : (Model.empty none).Reachable 0 := .empty
  obtain ⟨resolved, -, -, -, -, hbuilds⟩ := hbase.load_iff_hasValue (Nat.zero_le 0)
    Sample.parse_eq_exprTree Sample.resolvable_exprTree none
  obtain ⟨-, hbuilds⟩ := hbuilds _ Sample.load_eq_exprModel
  refine ⟨_, Sample.load_eq_exprModel, hbuilds _ ?_ _ (.sum rfl ?_) _⟩
  · exact List.mem_cons_self
  · exact List.mem_cons_of_mem _ List.mem_cons_self

end Model

end Schemata
