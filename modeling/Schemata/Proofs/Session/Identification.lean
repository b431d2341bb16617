import Schemata.Proofs.Session.Collision

/-!
# When a text identifies a value

For the types of a model made by loads of texts it is known which values can be told apart by their
texts: those of a type that is not ambiguous are alike if they are printed alike, and an ambiguous
type has values that are printed alike but are not (`Model.Reachable.textIdentifies_iff`). This is
about values in which no list is nothing but a hole. One that is can be told from an empty list in
no type (`Session.exists_print_eq_of_hole`).
-/

namespace Schemata

/-- Values of the type in which all values are constructed and no list is nothing but a hole are
alike if under some depth limit both have the same text, wherever the model is. -/
def Model.TextIdentifies (m : Model) (t : TypeDef) : Prop :=
  ∀ σ : Session, σ.Reachable → m ∈ σ.models → ∀ r r' b b',
    σ.store.HasBuilt r b → b.type = t → σ.store.Constructed (.object r) →
    σ.store.Solid (.object r) →
    σ.store.HasBuilt r' b' → b'.type = t → σ.store.Constructed (.object r') →
    σ.store.Solid (.object r') →
    ∀ limit text, σ.store.print limit (.object r) = .ok text →
      σ.store.print limit (.object r') = .ok text → σ.store.Alike (.object r) (.object r')

namespace Store

variable {s : Store} {d : Datum} {limit : Number} {text : String}

/-- A value with a text has it under the limit that is the number of nodes. -/
theorem ElementText.print_eq_ok {r : Ref} (h : s.ElementText (.object r) text) :
    s.print (.ofNat s.size) (.object r) = .ok text := by
  obtain ⟨_, v, _, -, hshape, -⟩ := Print.value_eq_ok.mp (h (fun _ => .malformed) (.ofRoot ""))
  unfold print
  rw [hshape]
  exact h _ _

end Store

namespace Session

variable {σ : Session} {m : Model} {next : Nat} {t : TypeDef}

/-- A value of a type that is not ambiguous is identified by its text. -/
theorem textIdentifies_of_not_ambiguous (hm : m.Reachable next) (ht : t ∈ m.types)
    (hclear : ¬ m.Ambiguous t) : m.TextIdentifies t := by
  intro σ hσ hmem r r' b b' hb htype hmade hsolid hb' htype' hmade' hsolid' limit text htext htext'
  have hshows {r : Ref} {b : Built} (hb : σ.store.HasBuilt r b) (htype : b.type = t)
      (hmade : σ.store.Constructed (.object r)) (hsolid : σ.store.Solid (.object r))
      (htext : σ.store.print limit (.object r) = .ok text) :
      σ.store.Shows (.declared t.key) (.object r) text :=
    ⟨htype ▸ hσ.sealed.hasType_of_hasBuilt hb, hmade, hsolid, Store.exists_value_of_print htext⟩
  have htclear : m.Clear (.declared t.key) := fun k hk =>
    ⟨t, ht, TypeRef.declared.inj hk, hclear⟩
  exact hσ.sound.alike_of_shows hσ.sealed hmem hm htclear (hshows hb htype hmade hsolid htext)
    (hshows hb' htype' hmade' hsolid' htext')

/-- What the session offers of a type of the model is a constructed value of that type. -/
theorem Offers.exists_built {d : Datum} (h : σ.Offers (.declared t.key) d) (hσ : σ.Reachable)
    (hmem : m ∈ σ.models) (ht : t ∈ m.types) :
    ∃ r b, d = .object r ∧ σ.store.HasBuilt r b ∧ b.type = t := by
  obtain ⟨r, b, rfl, hb, hkey⟩ := hσ.sealed.exists_built h.hasType h.constructed
  have hbtype := hσ.sound.type_mem hb.view? (Built.view_type b)
  exact ⟨r, b, rfl, hb, hσ.sound.eq_of_key_eq hbtype (mem_types hmem ht) hkey⟩

/-- Where the text identifies values there are no two that could be confused. -/
theorem not_confusable_of_textIdentifies (hσ : σ.Reachable) (hmem : m ∈ σ.models)
    (ht : t ∈ m.types) (h : m.TextIdentifies t) : ¬ Confusable m (.declared t.key) := by
  intro hconfusable
  obtain ⟨σ', x, y, hgrown, hrivals⟩ := hconfusable σ hσ hmem
  have hmem' : m ∈ σ'.models := hgrown.models ▸ hmem
  obtain ⟨r, b, rfl, hb, htype⟩ := hrivals.left.exists_built hgrown.reachable hmem' ht
  obtain ⟨r', b', rfl, hb', htype'⟩ := hrivals.right.exists_built hgrown.reachable hmem' ht
  obtain ⟨text, htext, htext'⟩ := hrivals.text
  exact hrivals.differ _ (.refl _) (h σ' hgrown.reachable hmem' r r' b b' hb htype
    hrivals.left.constructed hrivals.left.solid hb' htype' hrivals.right.constructed
    hrivals.right.solid _ text htext.print_eq_ok htext'.print_eq_ok)

end Session

namespace Model

variable {m : Model} {next : Nat} {t : TypeDef}

/-- The text of a value in which no list is nothing but a hole, whatever depth limit allows for it,
identifies the value up to equality of structure if and only if from its type one does not get to an
optional field of a type that has a constructor with the name `_` and without fields. -/
theorem Reachable.textIdentifies_iff (h : m.Reachable next) (ht : t ∈ m.types) :
    m.TextIdentifies t ↔ ¬ m.Ambiguous t := by
  refine ⟨fun hidentifies hambiguous => ?_, Session.textIdentifies_of_not_ambiguous h ht⟩
  obtain ⟨σ, hσ, hmem⟩ := Session.exists_reachable h
  exact Session.not_confusable_of_textIdentifies hσ hmem ht hidentifies
    (Session.confusable_of_ambiguous h.sound ht hambiguous)

/-- The tree of `module m \x7b mark = _ | X box = (mark? m, int n) \x7d`. -/
def Sample.boxTree : SchemaTree :=
  ⟨[⟨"m", ⟨1, 1⟩, [⟨"mark", ⟨1, 12⟩, .sum [⟨"_", ⟨1, 19⟩, []⟩, ⟨"X", ⟨1, 23⟩, []⟩] []⟩,
    ⟨"box", ⟨1, 25⟩, .product
      [⟨"m", "mark", .optional, ⟨1, 32⟩⟩, ⟨"n", "int", .single, ⟨1, 41⟩⟩]⟩]⟩]⟩

/-- The constructor that is written like an absent content. -/
def Sample.blank : Constructor := ⟨⟨0, "m", "mark"⟩, "_", 0, [], ⟨1, 19⟩⟩

def Sample.mark : TypeDef :=
  ⟨⟨0, "m", "mark"⟩, ⟨1, 12⟩, .sum [blank, ⟨⟨0, "m", "mark"⟩, "X", 1, [], ⟨1, 23⟩⟩] []⟩

/-- The optional field of `box`. -/
def Sample.boxMark : Field := ⟨"m", 0, .declared ⟨0, "m", "mark"⟩, .optional, false, ⟨1, 32⟩⟩

def Sample.box : TypeDef :=
  ⟨⟨0, "m", "box"⟩, ⟨1, 25⟩, .product [boxMark, ⟨"n", 1, .primitive .int, .single, false, ⟨1, 41⟩⟩]⟩

def Sample.boxModel : Model := ⟨[⟨0, "m", [mark, box]⟩], defaultMaxDepth⟩

theorem Sample.parse_eq_boxTree :
    SchemaTree.parse "module m \x7b mark = _ | X box = (mark? m, int n) \x7d" = .ok boxTree := rfl

theorem Sample.exists_load_boxModel : ∃ loaded,
    (Model.empty none).load 0 none "module m \x7b mark = _ | X box = (mark? m, int n) \x7d" =
      .ok loaded ∧ loaded.model = boxModel := by
  have htree : ∃ loaded, (Model.empty none).loadTree 0 none boxTree = .ok loaded ∧
      loaded.model = boxModel := ⟨_, rfl, rfl⟩
  rwa [load, parse_eq_boxTree, Outcome.ok_bind]

theorem Sample.not_ambiguous_mark : ¬ boxModel.Ambiguous mark := by
  have hnone (c : Option Constructor) (hc : mark.Alternative c) (f : Field) :
      f ∉ Construct.declared mark c := by
    cases hc with
    | product hshape => cases hshape
    | sum hshape hc =>
      obtain ⟨rfl, rfl⟩ := TypeShape.sum.inj hshape
      have hfields : ∀ k ∈ mark.constructors, k.fields = [] := by decide
      rw [Construct.declared, hfields _ hc]
      exact List.not_mem_nil
  rintro ⟨u, hway, c, hc, f, hf, -⟩
  rcases hway.cases_head with rfl | ⟨_, ⟨-, c', hc', f', hf', -⟩, -⟩
  · exact hnone c hc f hf
  · exact hnone c' hc' f' hf'

theorem Sample.ambiguous_box : boxModel.Ambiguous box := by
  refine ⟨box, .refl, none, .product rfl, boxMark, by decide, rfl, mark, by decide, rfl, blank, ?_⟩
  decide

/-- The text `(_, 1)` is that of two boxes, while marks are told apart. -/
theorem Reachable.textIdentifies_iff_box : ∃ loaded,
    (Model.empty none).load 0 none "module m \x7b mark = _ | X box = (mark? m, int n) \x7d" =
      .ok loaded ∧ loaded.model.types = [Sample.mark, Sample.box] ∧
    loaded.model.TextIdentifies Sample.mark ∧ ¬ loaded.model.TextIdentifies Sample.box := by
  obtain ⟨loaded, hload, hmodel⟩ := Sample.exists_load_boxModel
  have hreached : loaded.model.Reachable _ := .load .empty (Nat.zero_le 0) hload
  rw [hmodel] at hreached
  have hmark := hreached.textIdentifies_iff (t := Sample.mark) (by decide)
  have hbox := hreached.textIdentifies_iff (t := Sample.box) (by decide)
  refine ⟨loaded, hload, ?_⟩
  rw [hmodel]
  exact ⟨by decide, hmark.mpr Sample.not_ambiguous_mark,
    fun h => hbox.mp h Sample.ambiguous_box⟩

end Model

namespace Session

theorem Sample.not_ambiguous_lists : ¬ Sample.listsModel.Ambiguous Sample.lists := by
  have hdeclared (c : Option Constructor) (hc : Sample.lists.Alternative c) :
      Construct.declared Sample.lists c = [Sample.listsField] := by
    cases hc with
    | product hshape => rfl
    | sum hshape _ => cases hshape
  rintro ⟨u, hway, c, hc, f, hf, hoptional, -⟩
  rcases hway.cases_head with rfl | ⟨_, ⟨-, c', hc', f', hf', hkey⟩, -⟩
  · rw [hdeclared c hc, List.mem_singleton] at hf
    simp [hf, Sample.listsField] at hoptional
  · rw [hdeclared c' hc', List.mem_singleton] at hf'
    simp [hf', Sample.listsField] at hkey

/-- A value made of a list that is nothing but a hole and one made of an empty list are not alike,
and both have the text `([])`, although their type is not ambiguous. -/
theorem exists_print_eq_of_hole : ¬ Sample.listsModel.Ambiguous Sample.lists ∧
    ∃ (σ : Session) (r r' : Ref) (b b' : Built), σ.Reachable ∧ Sample.listsModel ∈ σ.models ∧
      σ.store.HasBuilt r b ∧ b.type = Sample.lists ∧ σ.store.Constructed (.object r) ∧
      σ.store.HasBuilt r' b' ∧ b'.type = Sample.lists ∧ σ.store.Constructed (.object r') ∧
      σ.store.print defaultMaxDepth (.object r) = .ok "([])" ∧
      σ.store.print defaultMaxDepth (.object r') = .ok "([])" ∧
      ¬ σ.store.Alike (.object r) (.object r') := by
  let hole : Node := .list false [none]
  let made (items : List (Option Datum)) (l : Nat) : List Node :=
    [.list true items, .list true [some (.object ⟨l⟩)], .value Sample.lists none ⟨l + 1⟩]
  let s₁ : Store := ⟨⟨hole :: made [none] 1⟩⟩
  let s₂ : Store := ⟨⟨hole :: made [none] 1 ++ [.list false []]⟩⟩
  let s₃ : Store := ⟨⟨hole :: made [none] 1 ++ .list false [] :: made [] 5⟩⟩
  have hfirst : Store.construct ⟨#[hole]⟩ Sample.listsModel "t" none (.positional [.object ⟨0⟩]) =
      .ok (⟨3⟩, s₁) := rfl
  have h₁ : Reachable ⟨s₁, 1, [Sample.listsModel]⟩ :=
    Sample.reachable_hole.call (.construct List.mem_cons_self (by decide) hfirst)
  have h₂ : Reachable ⟨s₂, 1, [Sample.listsModel]⟩ := h₁.call (.list (by decide))
  have hsecond : s₂.construct Sample.listsModel "t" none (.positional [.object ⟨4⟩]) =
      .ok (⟨7⟩, s₃) := rfl
  have h₃ : Reachable ⟨s₃, 1, [Sample.listsModel]⟩ :=
    h₂.call (.construct List.mem_cons_self (by decide) hsecond)
  have hall : ∀ d, s₃.Constructed d := .of_all (by decide)
  have hlist : s₃.get? ⟨1⟩ = some (.list true [none]) := rfl
  have hlist' : s₃.get? ⟨5⟩ = some (.list true []) := rfl
  have hr : s₃.HasBuilt ⟨3⟩ ⟨Sample.lists, none, [.object ⟨1⟩]⟩ := ⟨⟨2⟩, rfl, rfl⟩
  have hr' : s₃.HasBuilt ⟨7⟩ ⟨Sample.lists, none, [.object ⟨5⟩]⟩ := ⟨⟨6⟩, rfl, rfl⟩
  refine ⟨Sample.not_ambiguous_lists, _, ⟨3⟩, ⟨7⟩, _, _, h₃, List.mem_cons_self, hr, rfl,
    hall _, hr', rfl, hall _, rfl, rfl, fun halike => ?_⟩
  obtain ⟨hlists, -⟩ := List.forall₂_cons.mp (halike.contents hr hr')
  cases hlists.items hlist hlist'

end Session

end Schemata
