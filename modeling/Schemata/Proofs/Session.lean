import Schemata.Load
import Schemata.Proofs.Model.Lookup
import Schemata.Proofs.Model.Resolution
import Schemata.Proofs.Value.Construction

/-!
# Sessions

A session is what a program has made of the library so far: models, by loading trees on top of
models and by joining modules of several ones, and data in one store, by writing down lists and
plain objects, by constructing values, and by writing to lists, the contents of values among them.
Lists may have holes. A step may use all models and data of the session, in any order
(`Session.Step`).

`Session.Sound` holds in every session that can be reached (`Session.Reachable.sound`): the store
refers only to what is there, every value made by construction has its contents in a frozen list,
and a key belongs to one definition in all models (`Session.Sound.eq_of_key_eq`), so comparing keys
is comparing definitions.
-/

namespace Schemata

/-- All data, the number of the next module and all models there are. -/
structure Session where
  store : Store
  serial : Nat
  models : List Model

namespace Session

def initial : Session := ⟨.empty, 0, []⟩

/-- The modules of all models. -/
def modules (σ : Session) : List Module := σ.models.flatMap Model.modules

/-- The types of all models. -/
def types (σ : Session) : List TypeDef := σ.modules.flatMap Module.types

/-- `d` is something that the session has: a scalar, a definition of a model, a reference to a
node. -/
def Has (σ : Session) : Datum → Prop
  | .object r => r.index < σ.store.size
  | .typeDef t => t ∈ σ.types
  | .constructor c => ∃ t ∈ σ.types, c ∈ t.constructors
  | _ => True

instance (σ : Session) (d : Datum) : Decidable (σ.Has d) :=
  match d with
  | .object r => inferInstanceAs (Decidable (r.index < σ.store.size))
  | .typeDef t => inferInstanceAs (Decidable (t ∈ σ.types))
  | .constructor c => inferInstanceAs (Decidable (∃ t ∈ σ.types, c ∈ t.constructors))
  | .missing | .null | .absent | .bool _ | .number _ | .text _ => .isTrue trivial

/-- A call that succeeds leaves the given store behind. -/
inductive Call (σ : Session) : Store → Prop
  | list {items : List (Option Datum)} :
    (∀ d ∈ present items, σ.Has d) → σ.Call (σ.store.add (.list false items)).2
  | record {properties : Record Datum} :
    (∀ d ∈ properties.entries.map Prod.snd, σ.Has d) →
    σ.Call (σ.store.add (.record properties)).2
  | construct {m : Model} {typeName : String} {constructorName : Option String}
      {inputs : Inputs} {r : Ref} {s' : Store} :
    m ∈ σ.models → (∀ d ∈ inputs.data, σ.Has d) →
    σ.store.construct m typeName constructorName inputs = .ok (r, s') → σ.Call s'
  | push {list d : Datum} {s' : Store} :
    σ.Has d → σ.store.push list d = some s' → σ.Call s'
  | setField {value d : Datum} {index : Nat} {s' : Store} :
    σ.Has d → σ.store.setField value index d = some s' → σ.Call s'
  | setFieldCount {value : Datum} {count : Nat} {s' : Store} :
    σ.store.setFieldCount value count = some s' → σ.Call s'

/-- One more model, or a call. -/
inductive Step : Session → Session → Prop
  | load {σ : Session} {base : Model} {limit : Option Number} {tree : SchemaTree}
      {loaded : Loaded} :
    base ∈ σ.models ∨ base = .empty limit → base.loadTree σ.serial limit tree = .ok loaded →
    Step σ { σ with serial := σ.serial + loaded.modules.length
                    models := loaded.model :: σ.models }
  | join {σ : Session} {parts : List Model} {limit : Option Number} :
    parts ⊆ σ.models →
    Step σ { σ with models := .ofModules (parts.flatMap Model.modules) limit :: σ.models }
  | call {σ : Session} {s' : Store} : σ.Call s' → Step σ { σ with store := s' }

/-- What steps lead to from the beginning. -/
def Reachable (σ : Session) : Prop := Relation.ReflTransGen Step initial σ

/-- The modules are those of loads, each load has numbers of its own, and the store refers only to
what the session has. -/
structure Sound (σ : Session) : Prop where
  modules : ∀ m ∈ σ.modules, m.Sound ∧ m.serial < σ.serial
  serials : ∀ m ∈ σ.modules, ∀ m' ∈ σ.modules, m.serial = m'.serial → m = m'
  data : ∀ r n, σ.store.get? r = some n → ∀ d ∈ n.data, σ.Has d

variable {σ σ' : Session} {s' : Store} {d : Datum}

theorem types_eq_flatMap (σ : Session) : σ.types = σ.models.flatMap Model.types := by
  unfold types modules Model.types
  rw [List.flatMap_assoc]

theorem mem_types {m : Model} {t : TypeDef} (hm : m ∈ σ.models) (ht : t ∈ m.types) :
    t ∈ σ.types := by
  rw [types_eq_flatMap]
  exact List.mem_flatMap.mpr ⟨m, hm, ht⟩

theorem types_subset_of_models (h : σ.models ⊆ σ'.models) : σ.types ⊆ σ'.types := by
  intro t ht
  rw [types_eq_flatMap] at *
  obtain ⟨m, hm, ht⟩ := List.mem_flatMap.mp ht
  exact List.mem_flatMap.mpr ⟨m, h hm, ht⟩

theorem Has.holds (h : σ.Has d) : σ.store.Holds d := by
  rintro r rfl
  exact h

theorem Has.mono (h : σ.Has d) (htypes : σ.types ⊆ σ'.types)
    (hsize : σ.store.size ≤ σ'.store.size) : σ'.Has d := by
  cases d with
  | object r => exact Nat.lt_of_lt_of_le h hsize
  | typeDef t => exact htypes h
  | constructor c =>
    obtain ⟨t, ht, hc⟩ := h
    exact ⟨t, htypes ht, hc⟩
  | _ => trivial

namespace Sound

/-- A key belongs to one definition. -/
theorem eq_of_key_eq (h : σ.Sound) {t t' : TypeDef} (ht : t ∈ σ.types) (ht' : t' ∈ σ.types)
    (hkey : t.key = t'.key) : t = t' := by
  obtain ⟨m, hm, htm⟩ := List.mem_flatMap.mp ht
  obtain ⟨m', hm', htm'⟩ := List.mem_flatMap.mp ht'
  have hsound := (h.modules m hm).1
  have hserial : m.serial = m'.serial := by
    rw [← (hsound.key t htm).1, ← ((h.modules m' hm').1.key t' htm').1, hkey]
  obtain rfl := h.serials m hm m' hm' hserial
  exact hsound.unique t htm t' htm' hkey

theorem numbered (h : σ.Sound) {t : TypeDef} (ht : t ∈ σ.types) : t.Numbered := by
  obtain ⟨m, hm, htm⟩ := List.mem_flatMap.mp ht
  exact (h.modules m hm).1.numbered t htm

theorem has_of_mentions (h : σ.Sound) {x y : Datum} (hxy : σ.store.Mentions x y) : σ.Has y := by
  obtain ⟨n, hn, hy⟩ := hxy
  cases x with
  | object r => exact h.data r n hn y hy
  | _ => cases hn

theorem holds_of_mentions (h : σ.Sound) (x y : Datum) (hxy : σ.store.Mentions x y) :
    σ.store.Holds y :=
  (h.has_of_mentions hxy).holds

/-- The type of a value is one of a model. -/
theorem type_mem (h : σ.Sound) {v : ValueView} {t : TypeDef} (hv : σ.store.view? d = some v)
    (ht : v.type = .typeDef t) : t ∈ σ.types := by
  have hhas := h.has_of_mentions (Store.mentions_type_of_view? hv)
  rw [ht] at hhas
  exact hhas

end Sound

/-! ## Steps keep sessions sound -/

theorem sound_initial : initial.Sound where
  modules m hm := by cases hm
  serials m hm := by cases hm
  data r n hn := by cases hn

theorem has_of_settles {f : Field} {d d' : Datum} (hd : σ.Has d)
    (hsize : σ.store.size ≤ s'.size) (h : Construct.Settles σ.store s' f d d') :
    Has { σ with store := s' } d' := by
  have hmono : Has { σ with store := s' } d := hd.mono (List.Subset.refl _) hsize
  unfold Construct.Settles at h
  cases hm : f.multiplicity <;> simp only [hm] at h
  case single => rwa [h]
  case optional =>
    rw [h]
    split
    · trivial
    · exact hmono
  case repeated =>
    obtain ⟨r, rfl, hr⟩ := h
    exact Store.lt_size_of_get? hr

/-- A store may have more nodes or other ones if they refer only to what the session has. -/
theorem Sound.withStore (h : σ.Sound) (hsize : σ.store.size ≤ s'.size)
    (hnodes : ∀ r n, s'.get? r = some n →
      σ.store.get? r = some n ∨ ∀ d ∈ n.data, Has { σ with store := s' } d) :
    Sound { σ with store := s' } where
  modules := h.modules
  serials := h.serials
  data r n hn d hd := by
    rcases hnodes r n hn with hn | hall
    · exact (h.data r n hn d hd).mono (List.Subset.refl _) hsize
    · exact hall d hd

theorem Sound.add (h : σ.Sound) {n : Node} (hn : ∀ d ∈ n.data, σ.Has d) :
    Sound { σ with store := (σ.store.add n).2 } := by
  have hsize : σ.store.size ≤ (σ.store.add n).2.size := (Store.Extends.add σ.store n).size_le
  refine h.withStore hsize fun r m hm => ?_
  rcases Store.of_get?_add hm with hm | ⟨-, rfl⟩
  · exact .inl hm
  · exact .inr fun d hd => (hn d hd).mono (List.Subset.refl _) hsize

theorem Sound.writes (h : σ.Sound) {r : Ref} (hd : σ.Has d) (hs : σ.store.Writes s' r d) :
    Sound { σ with store := s' } := by
  have hsize : σ.store.size ≤ s'.size := Nat.le_of_eq hs.size_eq.symm
  obtain ⟨items, items', hr, rfl, hitems⟩ := hs
  refine h.withStore hsize fun r' n hn => ?_
  rcases Store.of_get?_set hn with hn | ⟨-, rfl⟩
  · exact .inl hn
  · refine .inr fun x hx => ?_
    have hhas : σ.Has x := by
      rcases hitems x (mem_present.mp hx) with hx | rfl
      · exact h.data r _ hr x (mem_present.mpr hx)
      · exact hd
    exact hhas.mono (List.Subset.refl _) hsize

theorem has_constructor {t : TypeDef} {c : Option Constructor} (hc : t.Alternative c)
    (ht : t ∈ σ.types) : σ.Has ((c.map Datum.constructor).getD .missing) := by
  cases hc with
  | product _ => trivial
  | sum hshape hc => exact ⟨t, ht, by rwa [TypeDef.constructors, hshape]⟩

/-- The node of a new value refers to a type of a model, its contents are inputs or lists. -/
theorem Sound.made (h : σ.Sound) {data : List Datum} {r : Ref} {b : Built}
    (htype : b.type ∈ σ.types) (hdata : ∀ d ∈ data, σ.Has d) (hs : σ.store.Made s' data r b) :
    Sound { σ with store := s' } := by
  refine h.withStore hs.grows.size_le fun r' n hn => ?_
  rcases hs.nodes r' n hn with
    hn | ⟨rfl, fields, rfl⟩ | ⟨-, rfl⟩ | rfl | ⟨d, hd, items, hitems, rfl⟩
  · exact .inl hn
  · obtain ⟨fields', hr, hfields⟩ := hs.built
    obtain ⟨-, -, rfl⟩ := Node.value.inj (Option.some.inj (hn.symm.trans hr))
    refine .inr fun x hx => ?_
    simp only [Node.data, List.mem_cons, List.not_mem_nil, or_false] at hx
    rcases hx with rfl | rfl | rfl
    · exact htype
    · exact has_constructor hs.alternative htype
    · exact Store.lt_size_of_get? hfields
  · refine .inr fun x hx => ?_
    have hx : x ∈ b.fields := present_map_some b.fields ▸ hx
    obtain ⟨f, -, d, hfills, hsettles⟩ := Outcome.exists_of_mem_right hs.contents hx
    refine has_of_settles ?_ hs.grows.size_le hsettles
    rcases hfills.mem_or with hd | rfl
    · exact hdata d hd
    · trivial
  · exact .inr fun x hx => by cases hx
  · refine .inr fun x hx => ?_
    have hmentions := Store.mentions_of_list? hitems (mem_present.mp hx)
    exact (h.has_of_mentions hmentions).mono (List.Subset.refl _) hs.grows.size_le

theorem Sound.call (h : σ.Sound) (hs : σ.Call s') : Sound { σ with store := s' } := by
  cases hs with
  | list hitems => exact h.add hitems
  | record hproperties => exact h.add hproperties
  | construct hm hdata hs =>
    obtain ⟨b, ht, -, hmade⟩ := Store.of_construct_eq_ok hs fun d hd => (hdata d hd).holds
    exact h.made (mem_types hm (Model.mem_of_getType_eq_ok ht)) hdata hmade
  | push hd hs =>
    obtain ⟨r, hs⟩ := Store.writes_of_push hs
    exact h.writes hd hs
  | setField hd hs =>
    obtain ⟨r, hs⟩ := Store.writes_of_setField hs
    exact h.writes hd hs
  | setFieldCount hs =>
    obtain ⟨r, hs⟩ := Store.writes_of_setFieldCount hs
    exact h.writes (d := .missing) trivial hs

/-- Joining modules of models adds no module. -/
theorem Sound.join (h : σ.Sound) {parts : List Model} (hparts : parts ⊆ σ.models)
    (limit : Option Number) :
    Sound { σ with models := .ofModules (parts.flatMap Model.modules) limit :: σ.models } := by
  have hmem {m : Module}
      (hm : m ∈ Session.modules { σ with models := .ofModules (parts.flatMap Model.modules) limit ::
        σ.models }) : m ∈ σ.modules := by
    rcases List.mem_append.mp hm with hm | hm
    · obtain ⟨M, hM, hm⟩ := List.mem_flatMap.mp hm
      exact List.mem_flatMap.mpr ⟨M, hparts hM, hm⟩
    · exact hm
  refine ⟨fun m hm => h.modules m (hmem hm),
    fun m hm m' hm' => h.serials m (hmem hm) m' (hmem hm'), fun r n hn d hd => ?_⟩
  exact (h.data r n hn d hd).mono (types_subset_of_models (List.subset_cons_self _ _))
    (Nat.le_refl _)

/-- The modules of a load have numbers that were not used before. -/
theorem Sound.load (h : σ.Sound) {base : Model} {limit : Option Number} {tree : SchemaTree}
    {loaded : Loaded} (hbase : base ∈ σ.models ∨ base = .empty limit)
    (hload : base.loadTree σ.serial limit tree = .ok loaded) :
    Sound { σ with serial := σ.serial + loaded.modules.length
                   models := loaded.model :: σ.models } := by
  obtain ⟨hresolve, hmodules⟩ := Model.of_loadTree_eq_ok hload
  have hresolved := (SchemaTree.resolve_eq_ok.mp hresolve).1
  obtain ⟨hsound, hserials⟩ := Resolve.modules_sound hresolved
  have hnew : ∀ m ∈ loaded.modules,
      σ.serial ≤ m.serial ∧ m.serial < σ.serial + loaded.modules.length :=
    fun m hm => Resolve.serial_of_modules_eq_ok hresolved hm
  have hunique : ∀ m ∈ loaded.modules, ∀ m' ∈ loaded.modules, m.serial = m'.serial → m = m' := by
    have hnodup : (loaded.modules.map Module.serial).Nodup := hserials ▸ List.nodup_range'
    exact fun m hm m' hm' => List.inj_on_of_nodup_map hnodup hm hm'
  have hmem {m : Module} (hm : m ∈ (loaded.model :: σ.models).flatMap Model.modules) :
      m ∈ σ.modules ∨ m ∈ loaded.modules := by
    rcases List.mem_append.mp hm with hm | hm
    · rw [hmodules] at hm
      rcases List.mem_append.mp hm with hm | hm
      · rcases hbase with hbase | rfl
        · exact .inl (List.mem_flatMap.mpr ⟨base, hbase, hm⟩)
        · cases hm
      · exact .inr hm
    · exact .inl hm
  refine ⟨fun m hm => ?_, fun m hm m' hm' hserial => ?_, fun r n hn d hd => ?_⟩
  · rcases hmem hm with hm | hm
    · obtain ⟨hsound, hserial⟩ := h.modules m hm
      exact ⟨hsound, Nat.lt_add_right _ hserial⟩
    · exact ⟨hsound m hm, (hnew m hm).2⟩
  · rcases hmem hm with hm | hm <;> rcases hmem hm' with hm' | hm'
    · exact h.serials m hm m' hm' hserial
    · have hold := (h.modules m hm).2
      have hfresh := (hnew m' hm').1
      omega
    · have hold := (h.modules m' hm').2
      have hfresh := (hnew m hm).1
      omega
    · exact hunique m hm m' hm' hserial
  · exact (h.data r n hn d hd).mono (types_subset_of_models (List.subset_cons_self _ _))
      (Nat.le_refl _)

theorem Sound.step (h : σ.Sound) (hstep : Step σ σ') : σ'.Sound := by
  cases hstep with
  | load hbase hload => exact h.load hbase hload
  | join hparts => exact h.join hparts _
  | call hs => exact h.call hs

theorem Reachable.call (h : σ.Reachable) (hs : σ.Call s') :
    Reachable { σ with store := s' } :=
  h.tail (.call hs)

theorem Reachable.sound (h : σ.Reachable) : σ.Sound := by
  induction h with
  | refl => exact sound_initial
  | tail _ hstep ih => exact ih.step hstep

/-! ## A session with one type -/

namespace Sample

/-- The tree of `module m \x7b node = (int v, node? next) \x7d`. -/
def tree : SchemaTree :=
  ⟨[⟨"m", ⟨1, 1⟩, [⟨"node", ⟨1, 12⟩, .product [⟨"v", "int", .single, ⟨1, 20⟩⟩,
    ⟨"next", "node", .optional, ⟨1, 27⟩⟩]⟩]⟩]⟩

def node : TypeDef :=
  ⟨⟨0, "m", "node"⟩, ⟨1, 12⟩, .product [⟨"v", 0, .primitive .int, .single, false, ⟨1, 20⟩⟩,
    ⟨"next", 1, .declared ⟨0, "m", "node"⟩, .optional, false, ⟨1, 27⟩⟩]⟩

def model : Model := ⟨[⟨0, "m", [node]⟩], defaultMaxDepth⟩

/-- The properties of a node that is not made by construction; its fields are the list at `r`. -/
def properties (r : Ref) : Record Datum :=
  ⟨[("kind", .text "product"), ("type", .typeDef node), ("fields", .object r)]⟩

theorem loadTree_tree :
    (Model.empty none).loadTree 0 none tree = .ok ⟨model, model.modules, []⟩ := rfl

theorem step_load : Step initial ⟨.empty, 1, [model]⟩ := by
  have hstep : Step initial _ := .load (.inr rfl) loadTree_tree
  exact hstep

theorem reachable : Reachable ⟨.empty, 1, [model]⟩ := .single step_load

end Sample

end Session

end Schemata
