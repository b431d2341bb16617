import Schemata.Proofs.Declarations.Meaning
import Schemata.Proofs.Session.Permanence
import Schemata.Proofs.Session.Readability

/-!
# The plain views of constructed values

In a model made by loads of texts the plain view of a constructed value has the shape that the
declaration file of its module describes, at every depth (`Session.Reachable.plain_describes`). A
constructor whose own field has the name of the tag hides the tag. Where one does not get to such a
constructor (`Model.Untagged`) two values of one type with the same plain view are alike.

Where the declarations of all types that one gets to say what is meant (`Model.Declares`), and no
list has a hole (`Store.Whole`), the view is of the type that is declared under the name of its
type.
-/

namespace Schemata

open Declarations

/-- One gets from the type, going from types to those of their fields, to a constructor with a field
that takes the place of the tag. -/
def Model.Untagged (m : Model) (t : TypeDef) : Prop :=
  ∃ u, Relation.ReflTransGen m.Refers t u ∧ ∃ c ∈ u.constructors, ∃ f ∈ c.fields, f.name = "_type"

/-- Whether a node is no list with a hole. -/
def Node.isGapless : Node → Bool
  | list _ items => items.all Option.isSome
  | _ => true

/-- No list that one gets to from the datum has a hole. -/
def Store.Whole (s : Store) (d : Datum) : Prop :=
  ∀ x, s.Reaches d x → ∀ items, s.list? x = some items → none ∉ items

theorem Store.Whole.of_all {s : Store} (h : ∀ n ∈ s.nodes.toList, n.isGapless = true) (d : Datum) :
    s.Whole d := by
  intro x _ items hitems hnone
  unfold list? node? at hitems
  cases x with
  | object r =>
    dsimp only at hitems
    cases hr : s.get? r with
    | none => simp only [hr, reduceCtorEq] at hitems
    | some n =>
      have hgapless := h n (Array.mem_toList_iff.mpr (Array.mem_of_getElem? hr))
      cases n with
      | list frozen items' =>
        simp only [hr, Option.some.injEq] at hitems
        subst hitems
        exact Bool.noConfusion (List.all_eq_true.mp hgapless none hnone)
      | record | value => simp only [hr, reduceCtorEq] at hitems
  | _ => cases hitems

theorem Store.Whole.of_reaches {s : Store} {d x : Datum} (h : s.Whole d) (hx : s.Reaches d x) :
    s.Whole x := fun y hy => h y (hx.trans hy)

/-- No content of a value without holes is a list with a hole. -/
theorem Store.Whole.content {s : Store} {r : Ref} {b : Built} (h : s.Whole (.object r))
    (hb : s.HasBuilt r b) (index : Nat) {items : List (Option Datum)}
    (hitems : s.list? (contentAt b.fields index) = some items) : none ∉ items := by
  rcases contentAt_mem_or b.fields index with hmem | hmissing
  · exact h _ (hb.reaches hmem) items hitems
  · rw [hmissing] at hitems
    cases hitems

/-- A reference to a declared type leads to a type that the module uses; the declarations of this
type and of all that one gets to from it say what is meant. -/
def Model.Means (m : Model) (M : Module) (type : TypeRef) : Prop :=
  ∀ k, type = .declared k → M.Uses k ∧
    ∃ t ∈ m.types, t.key = k ∧ ∀ u, Relation.ReflTransGen m.Refers t u → m.Declares u

/-- A reference to a declared type leads to a type of the model from which all constructors that one
gets to are told by the tag. -/
def Model.Tags (m : Model) (type : TypeRef) : Prop :=
  ∀ k, type = .declared k → ∃ t ∈ m.types, t.key = k ∧ ¬ m.Untagged t

theorem Model.Sound.tags {m : Model} {next : Nat} {t : TypeDef} {c : Option Constructor} {f : Field}
    (h : m.Sound next) (ht : t ∈ m.types) (htags : ¬ m.Untagged t) (hc : t.Alternative c)
    (hf : f ∈ Construct.declared t c) : m.Tags f.type := by
  intro k hk
  obtain ⟨u, hu, hkey⟩ := h.covers ht hc hf k hk
  have hrefers : m.Refers t u := ⟨hu, c, hc, f, hf, hk.trans (congrArg TypeRef.declared hkey.symm)⟩
  exact ⟨u, hu, hkey, fun ⟨w, hway, hw⟩ => htags ⟨w, .head hrefers hway, hw⟩⟩

theorem Model.Sound.means {m : Model} {next : Nat} {M : Module} {t : TypeDef}
    {c : Option Constructor} {f : Field} (h : m.Sound next) (hM : M ∈ m.modules) (ht : t ∈ M.types)
    (hall : ∀ u, Relation.ReflTransGen m.Refers t u → m.Declares u) (hc : t.Alternative c)
    (hf : f ∈ Construct.declared t c) : m.Means M f.type := by
  intro k hk
  have hrefers : t.RefersTo k := ⟨c, hc, f, hf, hk⟩
  obtain ⟨u, hu, rfl⟩ := h.covers (List.mem_flatMap.mpr ⟨M, hM, ht⟩) hc hf k hk
  exact ⟨⟨t, ht, .inr hrefers.mentions⟩, u, hu, rfl, fun w hway =>
    hall w (.head ⟨hu, hrefers⟩ hway)⟩

/-- Of alternatives that are both told by the tag, the tag tells which it is. -/
theorem Built.HasProperties.constructor_eq {b b' : Built} {view view' : Field → Plain}
    {es es' : List (String × Plain)} (h : b.HasProperties view es) (h' : b'.HasProperties view' es')
    (htype : b'.type = b.type) (hc : b.type.Alternative b.constructor)
    (hc' : b'.type.Alternative b'.constructor) (hdistinct : b.type.Distinct)
    (htags : ∀ c ∈ b.type.constructors, ∀ f ∈ c.fields, f.name ≠ "_type")
    (hsame : ∀ name p p', (name, p) ∈ es → (name, p') ∈ es' → Plain.Same p p') :
    b.constructor = b'.constructor := by
  rw [htype] at hc'
  cases hcase : b.constructor with
  | none =>
    cases hcase' : b'.constructor with
    | none => rfl
    | some c' =>
      rw [hcase] at hc
      rw [hcase'] at hc'
      exact absurd hc hc'.not_none_of_some
  | some c =>
    rw [hcase] at hc
    cases hcase' : b'.constructor with
    | none =>
      rw [hcase'] at hc'
      exact absurd hc' hc.not_none_of_some
    | some c' =>
      rw [hcase'] at hc'
      have htag := hsame _ _ _ (h.tag c hcase (htags c hc.mem_constructors))
        (h'.tag c' hcase' (htags c' hc'.mem_constructors))
      have hname : c.name = c'.name := by
        generalize c.name = name, c'.name = name' at htag
        cases htag
        rfl
      rw [List.inj_on_of_nodup_map hdistinct.constructors hc.mem_constructors
        hc'.mem_constructors hname]

namespace Session

variable {σ : Session} {m : Model} {next : Nat} {type : TypeRef} {r r' : Ref} {b b' : Built}
  {d d' : Datum} {p p' : Plain}

/-- The plain datum that is taken of an element is its view. -/
theorem Sound.elementView (h : σ.Sound) (hsealed : σ.store.Sealed) (hmem : m ∈ σ.models)
    (hm : m.Reachable next) (hcovers : m.Covers type) (hd : σ.store.HasType type d)
    (hmade : σ.store.Constructed d) {room : Nat} (hp : Plain.ofDatum? σ.store room d = some p) :
    σ.store.ElementView type d p := by
  suffices hall : m.Covers type → ∀ room p, Plain.ofDatum? σ.store room d = some p →
      σ.store.ElementView type d p from hall hcovers room p hp
  refine hsealed.element_induct (P := fun type d => m.Covers type → ∀ room p,
    Plain.ofDatum? σ.store room d = some p → σ.store.ElementView type d p)
    (fun p d hp => ?_) (fun r b hb _ hcontents => ?_) hd hmade
  · intro _ room q hq
    cases room with
    | zero => cases hq
    | succ room =>
      rcases Primitive.of_accepts hp with ⟨rfl, t, rfl⟩ | ⟨rfl, x, rfl, hx⟩ | ⟨rfl, b, rfl⟩ <;>
        obtain rfl := Option.some.inj hq
      · exact .text t
      · exact .number hx
      · exact .bool b
  · intro hcovers room p hp
    have hc := hsealed.alternative hb
    have ht := h.type_mem_model hmem hb hcovers
    cases room with
    | zero => cases hp
    | succ room =>
      rw [Plain.ofDatum?_of_view? hb.view? hc.shape?_view] at hp
      obtain ⟨views, hviews, hp⟩ := Option.bind_eq_some_iff.mp hp
      obtain rfl := Option.some.inj hp
      have hviews := Outcome.mapM_eq_some.mp hviews
      let view (f : Field) : Plain :=
        (Plain.ofDatum? σ.store room (b.shape.content f)).getD .missing
      have hview : views = b.shape.declared.map view := by
        rw [← List.map_id views]
        refine Outcome.map_eq_of_forall₂ hviews fun f p hp => ?_
        simp only [view, hp, Option.getD_some, id]
      obtain ⟨es, hes, hproperties⟩ := Plain.exists_properties hc (hm.named_type ht)
        (hm.sound.distinct _ ht) view
      rw [hview, hes]
      refine .value hb hproperties fun f hf => ?_
      obtain ⟨p, -, hp⟩ := Outcome.exists_of_mem_left hviews hf
      have hpview : view f = p := by simp only [view, hp, Option.getD_some]
      rw [hpview]
      refine Plain.contentView_of_fits (h.of_contents hsealed hb hcontents hf)
        (fun e ⟨htype, hview⟩ => ⟨htype, hview (hm.sound.covers ht hc hf)⟩) hp

/-- The view of an element without holes is of the type that is written for its type. -/
theorem Sound.has_of_view (h : σ.Sound) (hsealed : σ.store.Sealed) (hmem : m ∈ σ.models)
    (hm : m.Reachable next) {M : Module} (hM : M ∈ m.modules)
    (hnodup : (SourceFile.ofText (moduleText M)).names.Nodup) (hmeans : m.Means M type)
    (hd : σ.store.HasType type d) (hmade : σ.store.Constructed d) (hwhole : σ.store.Whole d)
    (hview : σ.store.ElementView type d p) :
    Plain.Has m.files M.name (.named (typeText type) .single) p := by
  suffices hall : σ.store.Whole d → ∀ M ∈ m.modules,
      (SourceFile.ofText (moduleText M)).names.Nodup → m.Means M type → ∀ p,
        σ.store.ElementView type d p →
          Plain.Has m.files M.name (.named (typeText type) .single) p from
    hall hwhole M hM hnodup hmeans p hview
  refine hsealed.element_induct (P := fun type d => σ.store.Whole d → ∀ M ∈ m.modules,
    (SourceFile.ofText (moduleText M)).names.Nodup → m.Means M type → ∀ p,
      σ.store.ElementView type d p → Plain.Has m.files M.name (.named (typeText type) .single) p)
    (fun p d _ => ?_) (fun r b hb _ hcontents => ?_) hd hmade
  · intro _ M _ _ _ q hview
    cases hview with
    | text => exact .string
    | number => exact .number
    | bool => exact .boolean
  · intro hwhole M hM hnodup hmeans p hview
    obtain ⟨_, b₁, view, es, ⟨⟩, rfl, hb₁, -, hes, hviews⟩ := hview.of_declared
    obtain rfl := hb.unique hb₁
    obtain ⟨huses, t, ht, hkey, hall⟩ := hmeans _ rfl
    -- a key belongs to one definition, so the value is of the type of the model
    have hbtype := h.type_mem hb.view? (Built.view_type b)
    obtain rfl : t = b.type := h.eq_of_key_eq (mem_types hmem ht) hbtype hkey
    obtain ⟨M', hM', htM'⟩ := List.mem_flatMap.mp ht
    have hdeclares := hall _ .refl
    have hnodup' := hdeclares.names M' hM' htM'
    have hc := hsealed.alternative hb
    refine hm.has_of_interface hM' htM' hc
      (hm.resolves hM huses hM' htM' hdeclares.name hnodup hnodup') hnodup' hes.nodup hes.names
      fun key type p htype hp => hes.has (fun c hconstructor => ?_) (fun f hf => ?_) htype hp
    · rw [hconstructor] at hc
      exact hdeclares.tag c hc.mem_constructors
    · exact (hviews f hf).has (h.of_contents hsealed hb (Store.fits_reaches hb hcontents) hf)
        (fun _ => hwhole.content hb f.index) fun e ⟨⟨_, he⟩, hway⟩ =>
          he (hwhole.of_reaches hway) M' hM' hnodup' (hm.sound.means hM' htM' hall hc hf)

/-- Elements of one type, from which one gets to no constructor that hides its tag, are alike if
their views are the same. -/
theorem Sound.alike_of_same (h : σ.Sound) (hsealed : σ.store.Sealed) (hmem : m ∈ σ.models)
    (hm : m.Reachable next) (htags : m.Tags type) (hd : σ.store.HasType type d)
    (hmade : σ.store.Constructed d) (hview : σ.store.ElementView type d p)
    (hview' : σ.store.ElementView type d' p') (hsame : Plain.Same p p') : σ.store.Alike d d' := by
  suffices hall : m.Tags type → ∀ d' p p', σ.store.ElementView type d p →
      σ.store.ElementView type d' p' → Plain.Same p p' → σ.store.Alike d d' from
    hall htags d' p p' hview hview' hsame
  refine hsealed.element_induct (P := fun type d => m.Tags type → ∀ d' p p',
    σ.store.ElementView type d p → σ.store.ElementView type d' p' → Plain.Same p p' →
      σ.store.Alike d d')
    (fun p d hp => ?_) (fun r b hb _ hcontents => ?_) hd hmade
  · exact fun _ d' q q' hview hview' hsame => hview.alike_of_primitive hview' hsame
  · intro htags d' p p' hview hview' hsame
    obtain ⟨_, b₁, view, es, ⟨⟩, rfl, hb₁, -, hes, hviews⟩ := hview.of_declared
    obtain rfl := hb.unique hb₁
    obtain ⟨r', b', view', es', rfl, rfl, hb', hkey, hes', hviews'⟩ := hview'.of_declared
    obtain ⟨t, ht, hkey_t, htags⟩ := htags _ rfl
    -- a key belongs to one definition, so both values are of the type of the model
    have hbtype := h.type_mem hb.view? (Built.view_type b)
    have hbtype' := h.type_mem hb'.view? (Built.view_type b')
    obtain rfl : t = b.type := h.eq_of_key_eq (mem_types hmem ht) hbtype hkey_t
    have htype : b'.type = b.type := h.eq_of_key_eq hbtype' hbtype hkey
    have hc := hsealed.alternative hb
    obtain ⟨_, ⟨⟩, hsames⟩ := hsame.of_record hes.nodup
    have htagged : ∀ c ∈ b.type.constructors, ∀ f ∈ c.fields, f.name ≠ "_type" :=
      fun c hc f hf hname => htags ⟨b.type, .refl, c, hc, f, hf, hname⟩
    have hconstructor := hes.constructor_eq hes' htype hc (hsealed.alternative hb')
      (hm.sound.distinct _ ht) htagged hsames
    refine h.alike_of_contents hsealed hb hb' htype hconstructor fun f hf => ?_
    have hf' : f ∈ Construct.declared b'.type b'.constructor := htype ▸ hconstructor ▸ hf
    refine (hviews f hf).alike (hviews' f hf') (hsames _ _ _ (hes.fields f hf) (hes'.fields f hf'))
      (h.of_contents hsealed hb hcontents hf) fun e he e' q q' hview hview' hsame => ?_
    exact he.2 (hm.sound.tags ht htags hc hf) e' q q' hview hview' hsame

/-- A value of a type of a model made by loads, all values in it being made by construction, has a
plain view. It is that of an element of its type: its properties are those of the interface that the
declaration file has for its constructor, or for a product type for the type itself; the property
`_type` of a sum value names the constructor, unless a field of it is named so too; and the property
of each field is the view of the content of the field, at every depth. If there are no holes, and
the declarations of all types that one gets to say what is meant, the view is of the type that the
file declares under the name of its type. If from the type one gets to no constructor with a field
that is named `_type`, values of the type with the same plain view are alike. -/
theorem Reachable.plain_describes (h : σ.Reachable) (hmem : m ∈ σ.models) (hm : m.Reachable next)
    (hb : σ.store.HasBuilt r b) (ht : b.type ∈ m.types)
    (hmade : σ.store.Constructed (.object r)) :
    ∃ v p, σ.store.shape? (.object r) = some v ∧ σ.store.plain? v = some p ∧
      (∃ M ∈ m.modules, interfaceOf b.type b.constructor ∈
        (SourceFile.ofText (moduleText M)).interfaces) ∧
      (∀ c, b.constructor = some c →
        ("_type", .literal c.name) ∈ (interfaceOf b.type b.constructor).properties) ∧
      σ.store.ElementView (.declared b.type.key) (.object r) p ∧
      (σ.store.Whole (.object r) →
        (∀ u, Relation.ReflTransGen m.Refers b.type u → m.Declares u) →
        ∀ M ∈ m.modules, b.type ∈ M.types →
          Plain.Has m.files M.name (.named b.type.name .single) p) ∧
      (¬ m.Untagged b.type → ∀ r' b' v' p', σ.store.HasBuilt r' b' →
        b'.type = b.type → σ.store.Constructed (.object r') →
        σ.store.shape? (.object r') = some v' → σ.store.plain? v' = some p' →
        Plain.Same p p' → σ.store.Alike (.object r) (.object r')) := by
  have hview {r : Ref} {b : Built} {v : Shape} {p : Plain} (hb : σ.store.HasBuilt r b)
      (ht : b.type ∈ m.types) (hmade : σ.store.Constructed (.object r))
      (hv : σ.store.shape? (.object r) = some v) (hp : σ.store.plain? v = some p) :
      σ.store.ElementView (.declared b.type.key) (.object r) p := by
    have hcovers : m.Covers (.declared b.type.key) := fun k hk => ⟨_, ht, TypeRef.declared.inj hk⟩
    exact h.sound.elementView h.sealed hmem hm hcovers (h.sealed.hasType_of_hasBuilt hb) hmade
      ((Plain.plain?_eq_ofDatum? hv).symm.trans hp)
  obtain ⟨v, p, hv, hp⟩ := (h.sound.told h.sealed hb hmade).plain
  refine ⟨v, p, hv, hp, ?_, fun c hc => ?_, hview hb ht hmade hv hp, ?_, ?_⟩
  · obtain ⟨M, hM, htM⟩ := List.mem_flatMap.mp ht
    exact ⟨M, hM, hm.interface_mem hM htM (h.sealed.alternative hb)⟩
  · rw [hc]
    exact List.mem_cons_self
  · intro hwhole hall M hM htM
    have hmeans : m.Means M (.declared b.type.key) := by
      rintro _ ⟨⟩
      exact ⟨⟨b.type, htM, .inl rfl⟩, b.type, ht, rfl, hall⟩
    exact h.sound.has_of_view h.sealed hmem hm hM ((hall _ .refl).names M hM htM) hmeans
      (h.sealed.hasType_of_hasBuilt hb) hmade hwhole (hview hb ht hmade hv hp)
  · intro htags r' b' v' p' hb' htype hmade' hv' hp' hsame
    have htags : m.Tags (.declared b.type.key) := fun k hk =>
      ⟨_, ht, TypeRef.declared.inj hk, htags⟩
    have hview' := hview hb' (htype ▸ ht) hmade' hv' hp'
    rw [htype] at hview'
    exact h.sound.alike_of_same h.sealed hmem hm htags (h.sealed.hasType_of_hasBuilt hb) hmade
      (hview hb ht hmade hv hp) hview' hsame

theorem Sample.declares_expr {u : TypeDef}
    (hway : Relation.ReflTransGen Model.Sample.exprModel.Refers Model.Sample.expr u) :
    Model.Sample.exprModel.Declares u := by
  have hm : Model.Sample.exprModel.Reachable 1 :=
    .load .empty (Nat.zero_le 0) Model.Sample.load_eq_exprModel
  obtain rfl : u = Model.Sample.expr := by
    rcases hway.cases_tail with heq | ⟨_, -, hu, -⟩
    · exact heq
    · exact List.mem_singleton.mp hu
  refine ⟨by decide, by decide, fun M hM _ => ?_⟩
  refine (hm.nodup_names_iff hM).mpr (hm.not_collides hM fun k hk => ?_)
  obtain rfl := List.mem_singleton.mp hM
  exact Model.Sample.separable_of_uses_expr hk

theorem Sample.not_untagged_expr : ¬ Model.Sample.exprModel.Untagged Model.Sample.expr :=
  fun ⟨_, hway, c, hc, f, hf, hname⟩ => (declares_expr hway).tag c hc f hf hname

/-- The plain view of a value, from those of its contents. -/
theorem plain?_of_contents {s : Store} {v : Shape} {contents : List Plain}
    (h : (v.declared.mapM fun f => Plain.ofDatum? s (s.size + 1) (v.content f)) = some contents) :
    s.plain? v = some (Plain.ofShape v contents) := by
  rw [Store.plain?, h]
  rfl

/-- The view of a constructor with fields of all kinds, and that of another value made in the same
way. -/
theorem Reachable.plain_describes_neg : ∃ (σ : Session) (r r' : Ref) (v : Shape) (p : Plain),
    σ.Reachable ∧ r ≠ r' ∧ σ.store.shape? (.object r) = some v ∧ σ.store.plain? v = some p ∧
    p = .record [("_type", .text "Neg"),
      ("e", .record [("_type", .text "Lit"), ("v", .number (.ofNat 1))]), ("others", .list [])] ∧
    σ.store.ElementView (.declared Model.Sample.expr.key) (.object r) p ∧
    Plain.Has Model.Sample.exprModel.files "m" (.named "expr" .single) p ∧
    σ.store.Alike (.object r) (.object r') := by
  let one : Datum := .number (.ofNat 1)
  let lit : Constructor := Model.Sample.expr.constructors.head (by decide)
  -- a leaf takes two nodes, and a tree three, its contents being the leaf at `r` and an empty list
  let leaf (r : Nat) : List Node := [.list true [some one], .value Model.Sample.expr (some lit) ⟨r⟩]
  let tree (r : Nat) : List Node :=
    [.list true [], .list true [some (.object ⟨r⟩), some (.object ⟨r + 1⟩)],
      .value Model.Sample.expr (some Model.Sample.neg) ⟨r + 2⟩]
  let s₁ : Store := ⟨⟨leaf 0⟩⟩
  let s₂ : Store := ⟨⟨leaf 0 ++ tree 1⟩⟩
  let s₃ : Store := ⟨⟨leaf 0 ++ tree 1 ++ leaf 5⟩⟩
  let s₄ : Store := ⟨⟨leaf 0 ++ tree 1 ++ leaf 5 ++ tree 6⟩⟩
  let m := Model.Sample.exprModel
  have hm : m.Reachable 1 := .load .empty (Nat.zero_le 0) Model.Sample.load_eq_exprModel
  have hload : Step initial ⟨.empty, 1, [m]⟩ := by
    have hstep : Step initial _ := .load (.inr rfl) Model.Sample.loadTree_exprTree
    exact hstep
  have hleaf : Store.empty.construct m "expr" (some "Lit") (.positional [one]) =
    .ok (⟨1⟩, s₁) := rfl
  have h₁ : Reachable ⟨s₁, 1, [m]⟩ :=
    Reachable.call (.single hload) (.construct List.mem_cons_self (by decide) hleaf)
  have htree : s₁.construct m "expr" (some "Neg") (.named ⟨[("e", .object ⟨1⟩)]⟩) =
    .ok (⟨4⟩, s₂) := rfl
  have h₂ : Reachable ⟨s₂, 1, [m]⟩ := h₁.call (.construct List.mem_cons_self (by decide) htree)
  have hleaf' : s₂.construct m "expr" (some "Lit") (.positional [one]) = .ok (⟨6⟩, s₃) := rfl
  have h₃ : Reachable ⟨s₃, 1, [m]⟩ := h₂.call (.construct List.mem_cons_self (by decide) hleaf')
  have htree' : s₃.construct m "expr" (some "Neg") (.named ⟨[("e", .object ⟨6⟩)]⟩) =
    .ok (⟨9⟩, s₄) := rfl
  have h₄ : Reachable ⟨s₄, 1, [m]⟩ := h₃.call (.construct List.mem_cons_self (by decide) htree')
  have hmade : ∀ d, s₄.Constructed d := .of_all (by decide)
  let built (r : Nat) : Built :=
    ⟨Model.Sample.expr, some Model.Sample.neg, [.object ⟨r⟩, .object ⟨r + 1⟩]⟩
  have hb : s₄.HasBuilt ⟨4⟩ (built 1) := ⟨⟨3⟩, rfl, rfl⟩
  have hb' : s₄.HasBuilt ⟨9⟩ (built 6) := ⟨⟨8⟩, rfl, rfl⟩
  let p : Plain := .record [("_type", .text "Neg"),
    ("e", .record [("_type", .text "Lit"), ("v", .number (.ofNat 1))]), ("others", .list [])]
  have hv : s₄.shape? (.object ⟨4⟩) = some (built 1).shape := rfl
  let contents : List Plain :=
    [.record [("_type", .text "Lit"), ("v", .number (.ofNat 1))], .list []]
  have hp : s₄.plain? (built 1).shape = some p :=
    plain?_of_contents (show _ = some contents from rfl)
  have hp' : s₄.plain? (built 6).shape = some p :=
    plain?_of_contents (show _ = some contents from rfl)
  obtain ⟨v, q, hv', hq, -, -, hview, hhas, halike⟩ :=
    h₄.plain_describes List.mem_cons_self hm hb List.mem_cons_self (hmade _)
  obtain rfl := Option.some.inj (hv.symm.trans hv')
  obtain rfl := Option.some.inj (hp.symm.trans hq)
  have hwhole : s₄.Whole (.object ⟨4⟩) := .of_all (by decide) _
  exact ⟨⟨s₄, 1, [m]⟩, ⟨4⟩, ⟨9⟩, _, _, h₄, by decide, hv, hp, rfl, hview,
    hhas hwhole (fun _ => Sample.declares_expr) _ List.mem_cons_self List.mem_cons_self,
    halike Sample.not_untagged_expr ⟨9⟩ _ _ _ hb' rfl (hmade _) rfl hp' (.refl p)⟩

/-- The tree of `module m \x7b t = A(string _type) | B(string _type) \x7d`. -/
def Sample.hiddenTree : SchemaTree :=
  ⟨[⟨"m", ⟨1, 1⟩, [⟨"t", ⟨1, 12⟩, .sum
    [⟨"A", ⟨1, 16⟩, [⟨"_type", "string", .single, ⟨1, 18⟩⟩]⟩,
      ⟨"B", ⟨1, 34⟩, [⟨"_type", "string", .single, ⟨1, 36⟩⟩]⟩] []⟩]⟩]⟩

/-- A constructor with a field that takes the place of the tag. -/
def Sample.masking (name : String) (tag column : Nat) : Constructor :=
  ⟨⟨0, "m", "t"⟩, name, tag,
    [⟨"_type", 0, .primitive .string, .single, false, ⟨1, column + 2⟩⟩], ⟨1, column⟩⟩

def Sample.hidden : TypeDef :=
  ⟨⟨0, "m", "t"⟩, ⟨1, 12⟩, .sum [masking "A" 0 16, masking "B" 1 34] []⟩

def Sample.hiddenModel : Model := ⟨[⟨0, "m", [hidden]⟩], defaultMaxDepth⟩

theorem Sample.parse_eq_hiddenTree :
    SchemaTree.parse "module m \x7b t = A(string _type) | B(string _type) \x7d" =
      .ok hiddenTree := rfl

theorem Sample.loadTree_hiddenTree : (Model.empty none).loadTree 0 none hiddenTree =
    .ok ⟨hiddenModel, hiddenModel.modules, []⟩ := rfl

/-- The view of a value does not tell its constructor, and two values with different constructors
have the same view. -/
theorem exists_plain_without_tag : ∃ (σ : Session) (m : Model) (r r' : Ref) (b b' : Built)
    (v v' : Shape) (p : Plain), σ.Reachable ∧ m ∈ σ.models ∧ m.Reachable 1 ∧
    σ.store.HasBuilt r b ∧ σ.store.HasBuilt r' b' ∧
    b.type ∈ m.types ∧ b'.type = b.type ∧
    σ.store.Constructed (.object r) ∧ σ.store.Constructed (.object r') ∧
    σ.store.shape? (.object r) = some v ∧ σ.store.shape? (.object r') = some v' ∧
    σ.store.plain? v = some p ∧ σ.store.plain? v' = some p ∧
    b.constructor.map Constructor.name = some "A" ∧ p = .record [("_type", .text "x")] ∧
    ¬ σ.store.Alike (.object r) (.object r') := by
  let a : Built := ⟨Sample.hidden, some (Sample.masking "A" 0 16), [.text "x"]⟩
  let b : Built := ⟨Sample.hidden, some (Sample.masking "B" 1 34), [.text "x"]⟩
  let m := Sample.hiddenModel
  let contents : Node := .list true [some (.text "x")]
  let s₁ : Store := ⟨#[contents, .value a.type a.constructor ⟨0⟩]⟩
  let s₂ : Store :=
    ⟨#[contents, .value a.type a.constructor ⟨0⟩, contents, .value b.type b.constructor ⟨2⟩]⟩
  have hsource : (Model.empty none).load 0 none
      "module m \x7b t = A(string _type) | B(string _type) \x7d" = .ok ⟨m, m.modules, []⟩ := by
    rw [Model.load, Sample.parse_eq_hiddenTree, Outcome.ok_bind, Sample.loadTree_hiddenTree]
  have hm : m.Reachable 1 := .load .empty (Nat.zero_le 0) hsource
  have hload : Step initial ⟨.empty, 1, [m]⟩ := by
    have hstep : Step initial _ := .load (.inr rfl) Sample.loadTree_hiddenTree
    exact hstep
  have ha : Store.empty.construct m "t" (some "A") (.positional [.text "x"]) = .ok (⟨1⟩, s₁) := rfl
  have h₁ : Reachable ⟨s₁, 1, [m]⟩ :=
    Reachable.call (.single hload) (.construct List.mem_cons_self (by decide) ha)
  have hb : s₁.construct m "t" (some "B") (.positional [.text "x"]) = .ok (⟨3⟩, s₂) := rfl
  have h₂ : Reachable ⟨s₂, 1, [m]⟩ := h₁.call (.construct List.mem_cons_self (by decide) hb)
  have hmade : ∀ d, s₂.Constructed d := .of_all (by decide)
  have hplain : s₂.plain? a.shape = some (.record [("_type", .text "x")]) := rfl
  have hplain' : s₂.plain? b.shape = some (.record [("_type", .text "x")]) := rfl
  have hr : s₂.HasBuilt ⟨1⟩ a := ⟨⟨0⟩, rfl, rfl⟩
  have hr' : s₂.HasBuilt ⟨3⟩ b := ⟨⟨2⟩, rfl, rfl⟩
  refine ⟨⟨s₂, 1, [m]⟩, m, ⟨1⟩, ⟨3⟩, a, b, a.shape, b.shape, _, h₂, List.mem_cons_self, hm, hr, hr',
    List.mem_cons_self, rfl, hmade _, hmade _, rfl, rfl, hplain, hplain', rfl, rfl,
    fun halike => ?_⟩
  exact absurd (halike.constructor_eq hr hr') (by decide)

end Session

end Schemata
