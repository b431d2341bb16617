import Schemata.Proofs.Model.Loads
import Schemata.Proofs.Session.Agreement
import Schemata.Proofs.Session.Appearance
import Schemata.Proofs.Value.Supplying

/-!
# Reading contents back

A value that is made of contents in order gives them back, by the names of its fields and by their
places (`Shape.get_name`, `Shape.get_index`), in the final forms that construction gives them
(`Store.ReadsBack`). Every other name and number is refused.

The final form of a content is a content of the same field, with the same elements
(`Construct.Finishes.elements?_eq`), and its own final form is the same again, but for a copy of a
list (`Construct.Finishes.copies`). So a value can be made of what is read, by place or by name, and
neither its contents nor its text nor its plain view tell it from the first one
(`Session.Reachable.gives_back`).
-/

namespace Schemata

variable {s s' : Store} {f : Field} {x y z : Datum} {t : TypeDef} {c : Option Constructor}
  {xs ys : List Datum} {r : Ref}

/-- What is read of a field that was given `x`: the absent marker if the field is optional and `x`
stands for no content, a frozen list with the items and holes of `x` if it is repeated, and else `x`
itself. -/
inductive Store.ReadsBack (s : Store) (f : Field) (x : Datum) : Datum → Prop
  | absent : f.multiplicity = .optional → s.isEmpty x = true → s.ReadsBack f x .absent
  | list {l : Ref} {items : List (Option Datum)} :
    f.multiplicity = .repeated → s.list? x = some items →
    s.get? l = some (.list true items) → s.ReadsBack f x (.object l)
  | same : f.multiplicity ≠ .repeated → (f.multiplicity = .optional → s.isEmpty x = false) →
    s.ReadsBack f x x

/-- The fields of `v` were given the data `xs`. Each is read by its name and by its place, with the
same outcome, and nothing else can be read. -/
structure Store.GivesBack (s : Store) (xs : List Datum) (v : Shape) : Prop where
  length_eq : xs.length = v.declared.length
  field : ∀ (i : Nat) f x, v.declared[i]? = some f → xs[i]? = some x → ∃ y,
    v.get (.name f.name) = .ok y ∧
    (∀ n : Number, n.toInt? = some (i : Int) → v.get (.index n) = .ok y) ∧ s.ReadsBack f x y
  name : ∀ name, name ∉ v.fieldNames → ∃ e, v.get (.name name) = .error e
  index : ∀ n : Number, (∀ i : Nat, i < v.declared.length → n.toInt? ≠ some (i : Int)) →
    ∃ e, v.get (.index n) = .error e

/-- The same datum, or frozen lists of the same items and holes. -/
inductive Store.Copies (s : Store) : Datum → Datum → Prop
  | same (x : Datum) : s.Copies x x
  | list {l l' : Ref} {items : List (Option Datum)} : s.get? l = some (.list true items) →
    s.get? l' = some (.list true items) → s.Copies (.object l) (.object l')

/-- Two constructed values of one type and constructor whose contents are the same, field by field,
but for copies of lists; they have the same text, whatever the limit of depth, and the same plain
view. -/
structure Store.Twins (s : Store) (r r' : Ref) : Prop where
  contents : ∃ t c ys zs, s.HasBuilt r ⟨t, c, ys⟩ ∧ s.HasBuilt r' ⟨t, c, zs⟩ ∧
    List.Forall₂ s.Copies ys zs
  text : ∀ limit, s.print limit (.object r') = s.print limit (.object r)
  plain : ∃ v v', s.shape? (.object r) = some v ∧ s.shape? (.object r') = some v' ∧
    s.plain? v' = s.plain? v

/-! ## Reading fields -/

namespace Shape

variable {v : Shape} {i : Nat} {n : Number}

theorem get_name (hnames : v.fieldNames.Nodup) (hf : f ∈ v.declared) :
    v.get (.name f.name) = .ok (v.content f) := by
  have hfind : v.declared.find? (·.name = f.name) = some f := by
    refine Outcome.find?_eq_some_of_unique hf (decide_eq_true rfl) fun g hg hname => ?_
    exact List.inj_on_of_nodup_map hnames hg hf (of_decide_eq_true hname)
  simp only [get, hfind]

theorem get_index (hnumbered : Field.Numbered v.declared) (hf : v.declared[i]? = some f)
    (hn : n.toInt? = some (i : Int)) : v.get (.index n) = .ok (v.content f) := by
  have hi : n.toNat? = some i := by rw [Number.toNat?, hn]
  have hlt : i < v.declared.length := (List.getElem?_eq_some_iff.mp hf).1
  simp only [get, hi, if_pos hlt, content, hnumbered.index_eq hf]

theorem get_name_eq_error {name : String} (h : name ∉ v.fieldNames) :
    v.get (.name name) = .error (.unknownField name v.label v.fieldNames) := by
  have hfind : v.declared.find? (·.name = name) = none := by
    rw [List.find?_eq_none]
    exact fun g hg hname => h (of_decide_eq_true hname ▸ List.mem_map_of_mem hg)
  simp only [get, hfind]

theorem get_index_eq_error
    (h : ∀ i : Nat, i < v.declared.length → n.toInt? ≠ some (i : Int)) :
    v.get (.index n) = .error (.outOfRange n v.label v.declared.length) := by
  cases hi : n.toNat? with
  | none => simp only [get, hi]
  | some i =>
    have hn : n.toInt? = some (i : Int) := by
      unfold Number.toNat? at hi
      split at hi
      next hn => exact hn.trans (congrArg _ (congrArg Int.ofNat (Option.some.inj hi)))
      next => cases hi
    have hge : ¬ i < v.declared.length := fun hlt => h i hlt hn
    simp only [get, hi, if_neg hge]

end Shape

/-! ## Final forms as contents -/

namespace Construct.Finishes

theorem readsBack (h : Finishes s f x y) : s.ReadsBack f x y := by
  have hformed := h.formed
  have hsettles := h.settles
  unfold Settles at hsettles
  unfold Store.elements? at hformed
  cases hm : f.multiplicity <;> simp only [hm] at hsettles hformed
  case single =>
    rw [hsettles]
    exact .same (by simp [hm]) (by simp [hm])
  case optional =>
    split_ifs at hsettles with hempty
    · rw [hsettles]
      exact .absent hm hempty
    · rw [hsettles]
      exact .same (by simp [hm]) fun _ => Bool.eq_false_iff.mpr hempty
  case repeated =>
    obtain ⟨l, rfl, hl⟩ := hsettles
    obtain ⟨items, hitems⟩ := Option.isSome_iff_exists.mp (Option.isSome_map.symm.trans hformed)
    rw [hitems] at hl
    exact .list hm hitems hl

/-- A content and its final form have the same elements. -/
theorem elements?_eq (h : Finishes s f x y) (hx : s.Holds x) :
    s.elements? f y = s.elements? f x := by
  obtain ⟨ds, hds⟩ := Option.isSome_iff_exists.mp h.formed
  rw [h.settles.elements?_eq (.refl s) hx, hds, Option.getD_some]

theorem ne_missing (h : Finishes s f x y) : y ≠ .missing := by
  have hpresent := h.present
  cases h.readsBack with
  | absent => simp
  | list => simp
  | same _ hempty =>
    by_cases hm : f.multiplicity = .optional
    · rintro rfl
      exact absurd (hempty hm) (by simp [Store.isEmpty])
    · exact hpresent hm

/-- The final form of a final form is the same, or a copy of the list. -/
theorem copies (h : Finishes s f x y) (h' : Finishes s f y z) : s.Copies y z := by
  cases h'.readsBack with
  | same => exact .same _
  | absent hm hempty =>
    cases h.readsBack with
    | absent => exact .same _
    | list hm' => exact absurd (hm'.symm.trans hm) (by simp)
    | same _ hempty' => exact absurd (hempty.symm.trans (hempty' hm)) (by simp)
  | list hm hitems hl =>
    cases h.readsBack with
    | absent hm' => exact absurd (hm'.symm.trans hm) (by simp)
    | same hm' => exact absurd hm hm'
    | list _ _ hl' =>
      obtain rfl := Option.some.inj ((Store.list?_of_get? hl').symm.trans hitems)
      exact .list hl' hl

end Construct.Finishes

/-- A content has the same final form in a store with more nodes. -/
theorem Construct.Finishes.extends (h : Finishes s f x y) (hs : s.Extends s') (hx : s.Holds x)
    (hmentions : ∀ x y, s.Mentions x y → s.Holds y) : Finishes s' f x y where
  formed := by
    rw [(hs.sameBelow hmentions hx).elements?_eq]
    exact h.formed
  present := h.present
  settles := (h.settles.extends hs).forward hs hx

/-! ## Contents of values -/

/-- Contents that construction takes are as many as the fields, and their elements conform. -/
theorem Construct.of_contents_positional {label : String} {declared : List Field} {ds : List Datum}
    (hnumbered : Field.Numbered declared)
    (h : contents s label declared (.positional xs) = .ok ds) :
    xs.length = declared.length ∧ ∀ f ∈ declared, ∃ ds,
      s.elements? f (contentAt xs f.index) = some ds ∧
        ∀ e ∈ ds, s.Conforms (Check.isBuilt s) f.type e := by
  have hlength : xs.length = declared.length := by
    by_contra hne
    rw [contents, if_pos hne] at h
    cases h
  have hchecked := contents_positional s label hnumbered hlength
  rw [h] at hchecked
  refine ⟨hlength, fun f hf => ?_⟩
  obtain ⟨ds, hds, hall⟩ := Check.of_fields_eq_ok (checked_eq_ok.mp hchecked.symm) f hf
  refine ⟨ds, hds, fun e he => ?_⟩
  obtain ⟨place, hplace⟩ := hall e he
  exact Store.element_eq_ok_iff.mp hplace

/-- A value that holds the final forms of contents gives them back. -/
theorem Store.givesBack_of_finishes (hnames : ((Construct.declared t c).map Field.name).Nodup)
    (hnumbered : Field.Numbered (Construct.declared t c))
    (hlength : xs.length = (Construct.declared t c).length)
    (h : ∀ f ∈ Construct.declared t c,
      Construct.Finishes s f (contentAt xs f.index) (contentAt ys f.index)) :
    s.GivesBack xs (Built.shape ⟨t, c, ys⟩) where
  length_eq := hlength
  field i f x hf hx := by
    have hmem := List.mem_of_getElem? hf
    have hcontent : contentAt xs f.index = x := by
      rw [hnumbered.index_eq hf, contentAt, hx, Option.getD_some]
    refine ⟨_, Shape.get_name hnames hmem, fun n hn => Shape.get_index hnumbered hf hn, ?_⟩
    rw [← hcontent]
    exact (h f hmem).readsBack
  name _ hname := ⟨_, Shape.get_name_eq_error hname⟩
  index _ hn := ⟨_, Shape.get_index_eq_error hn⟩

/-- A value and another one that holds the final forms of its contents are told apart by neither
their contents nor their texts nor their plain views. -/
theorem Store.twins_of_finishes {r' : Ref} {zs : List Datum} (hc : t.Alternative c)
    (hnumbered : Field.Numbered (Construct.declared t c))
    (hr : s.HasBuilt r ⟨t, c, ys⟩) (hr' : s.HasBuilt r' ⟨t, c, zs⟩)
    (hys : ys.length = (Construct.declared t c).length)
    (hzs : zs.length = (Construct.declared t c).length)
    (hfirst : ∀ f ∈ Construct.declared t c,
      Construct.Finishes s f (contentAt xs f.index) (contentAt ys f.index))
    (hsecond : ∀ f ∈ Construct.declared t c,
      Construct.Finishes s f (contentAt ys f.index) (contentAt zs f.index)) :
    s.Twins r r' := by
  have hshape : s.shape? (.object r) = some (Built.shape ⟨t, c, ys⟩) := by
    rw [shape?, hr.view?]
    exact TypeDef.Alternative.shape?_view hc
  have hshape' : s.shape? (.object r') = some (Built.shape ⟨t, c, zs⟩) := by
    rw [shape?, hr'.view?]
    exact TypeDef.Alternative.shape?_view hc
  refine ⟨⟨t, c, ys, zs, hr, hr', ?_⟩, ?_, _, _, hshape, hshape', ?_⟩
  · rw [← hnumbered.map_contentAt hys, ← hnumbered.map_contentAt hzs]
    refine List.forall₂_map_left_iff.mpr (List.forall₂_map_right_iff.mpr ?_)
    exact List.forall₂_same.mpr fun f hf => (hfirst f hf).copies (hsecond f hf)
  · exact print_eq_of_contents hshape hshape' fun f hf => (hsecond f hf).print_content
  · exact plain?_eq_of_contents (v := Built.shape ⟨t, c, ys⟩) fun f hf =>
      (hsecond f hf).ofDatum?_eq (hfirst f hf).ne_missing _

/-- Inputs by name that give each field its content do the same as the contents in order. -/
theorem Store.construct_named_of_get? {m : Model} {typeName : String} {name : Option String}
    (ht : m.getType typeName = .ok t) (hc : Construct.constructor t name = .ok c)
    {inputs : Record Datum}
    (hkeys : ∀ key ∈ inputs.keys, key ∈ (Construct.declared t c).map Field.name)
    (hget : List.Forall₂ (fun f y => inputs.get? f.name = some y) (Construct.declared t c) ys) :
    s.construct m typeName name (.named inputs) =
      s.construct m typeName name (.positional ys) := by
  have hsupplied : (Construct.declared t c).map (Construct.supplied inputs .absent) = ys := by
    refine List.forall₂_eq_eq_eq ▸ List.forall₂_map_left_iff.mpr (hget.imp fun f y hy => ?_)
    rw [Construct.supplied, hy]
  have hkey : ∀ f ∈ Construct.declared t c, f.name ∈ inputs.keys := by
    intro f hf
    obtain ⟨y, -, hy⟩ := Outcome.exists_of_mem_left hget hf
    by_contra hnot
    rw [Record.get?_eq_none_iff.mpr hnot] at hy
    cases hy
  have hsupply : ∀ f ∈ Construct.declared t c, Construct.CanSupply s inputs .absent f :=
    fun f hf => ⟨fun _ => hkey f hf, fun _ hnot => absurd (hkey f hf) hnot⟩
  rw [construct_eq_map ht hc, construct_eq_map ht hc, Construct.contents_named_eq hkeys,
    Construct.settleAll_named_eq hsupply (.refl s), hsupplied, Construct.contents,
    if_neg (not_not.mpr hget.length_eq.symm)]

namespace Session

variable {σ : Session} {m : Model} {next : Nat} {typeName : String} {name : Option String}

/-- A value that is made of contents in order, of a type of a model loaded from texts, gives them
back. Of what is read, in order or by name, a value of the same alternative can be made that is not
told from it. -/
theorem Reachable.gives_back (h : σ.Reachable) (hm : m ∈ σ.models) (hloaded : m.Reachable next)
    (hdata : ∀ x ∈ xs, σ.Has x)
    (hmade : σ.store.construct m typeName name (.positional xs) = .ok (r, s')) :
    ∃ v, s'.shape? (.object r) = some v ∧ s'.GivesBack xs v ∧
      ∀ ys, List.Forall₂ (fun f y => v.get (.name f.name) = .ok y) v.declared ys →
        ∃ r' s'', s'.construct m typeName name (.positional ys) = .ok (r', s'') ∧
          (∀ inputs : Record Datum, (∀ key ∈ inputs.keys, key ∈ v.fieldNames) →
            List.Forall₂ (fun f y => inputs.get? f.name = some y) v.declared ys →
            s'.construct m typeName name (.named inputs) = .ok (r', s'')) ∧
          s'.SameBelow s'' (.object r) ∧ s''.Twins r r' := by
  have hholds : ∀ x ∈ xs, σ.store.Holds x := fun x hx => (hdata x hx).holds
  obtain ⟨⟨t, c, _⟩, ht, hc, -⟩ := Store.of_construct_eq_ok hmade hholds
  dsimp only at ht hc
  have hmem := Model.mem_of_getType_eq_ok ht
  have halternative := TypeDef.Alternative.of_constructor_eq_ok hc
  have hnumbered := halternative.numbered (h.sound.numbered (mem_types hm hmem))
  have hnames := (hloaded.sound.distinct t hmem).fields c halternative
  obtain ⟨_, hread⟩ := Outcome.exists_eq_ok_iff.mpr
    ((Store.construct_eq ht hc _).symm.trans (Outcome.exists_eq_ok_iff.mp ⟨_, hmade⟩))
  obtain ⟨hlength, hcontents⟩ := Construct.of_contents_positional hnumbered hread
  obtain ⟨r, s', zs, hmade', hgrows, hr, hzs, hfirst⟩ :=
    h.exists_construct_of_contents hm ht hc hlength hholds hcontents
  obtain ⟨rfl, rfl⟩ := Prod.mk.inj (Except.ok.inj (hmade'.symm.trans hmade))
  have hshape : s'.shape? (.object r) = some (Built.shape ⟨t, c, zs⟩) := by
    rw [Store.shape?, hr.view?]
    exact TypeDef.Alternative.shape?_view halternative
  refine ⟨_, hshape, Store.givesBack_of_finishes hnames hnumbered hlength hfirst, fun ys hys => ?_⟩
  -- what is read are the contents of the value
  obtain rfl : zs = ys := by
    rw [← hnumbered.map_contentAt hzs]
    refine List.forall₂_eq_eq_eq ▸ List.forall₂_map_left_iff.mpr ?_
    refine (Outcome.forall₂_mem_and hys).imp fun f y hy => ?_
    obtain ⟨hf, hy⟩ := hy
    have hread := Shape.get_name (v := Built.shape ⟨t, c, zs⟩) hnames hf
    exact Except.ok.inj (hread.symm.trans hy)
  have hinputs : ∀ x ∈ (Inputs.positional xs).data, σ.Has x := hdata
  have h' : Reachable { σ with store := s' } := h.call (.construct hm hinputs hmade)
  have hmentions := h.sound.holds_of_mentions
  have hheld (f : Field) : σ.store.Holds (contentAt xs f.index) :=
    Store.holds_contentAt hholds f.index
  have hcontents' : ∀ f ∈ Construct.declared t c, ∃ ds,
      s'.elements? f (contentAt zs f.index) = some ds ∧
        ∀ e ∈ ds, s'.Conforms (Check.isBuilt s') f.type e := by
    intro f hf
    obtain ⟨ds, hds, hall⟩ := hcontents f hf
    refine ⟨ds, ?_, fun e he => (hall e he).extends hgrows hmentions
      (Store.holds_of_reaches hmentions (hheld f) (Store.reaches_of_elements? hds he))⟩
    rw [(hfirst f hf).elements?_eq (hgrows.holds (hheld f)),
      (hgrows.sameBelow hmentions (hheld f)).elements?_eq, hds]
  have hzs' : ∀ z ∈ zs, s'.Holds z := fun z hz =>
    Store.holds_of_reaches h'.sound.holds_of_mentions (fun _ heq => Datum.object.inj heq ▸ hr.lt_size)
      (hr.reaches hz)
  obtain ⟨r', s'', ws, hmade', hgrows', hr', hws, hsecond⟩ :=
    h'.exists_construct_of_contents hm ht hc hzs hzs' hcontents'
  refine ⟨r', s'', hmade', fun inputs hkeys hget => ?_, ?_, ?_⟩
  · rw [Store.construct_named_of_get? ht hc hkeys hget, hmade']
  · refine hgrows'.sameBelow h'.sound.holds_of_mentions ?_
    rintro _ ⟨⟩
    exact hr.lt_size
  · have hfirst' : ∀ f ∈ Construct.declared t c,
        Construct.Finishes s'' f (contentAt xs f.index) (contentAt zs f.index) := fun f hf =>
      (hfirst f hf).extends hgrows' (hgrows.holds (hheld f)) h'.sound.holds_of_mentions
    exact Store.twins_of_finishes halternative hnumbered (hgrows'.hasBuilt hr) hr' hzs hws hfirst'
      hsecond

/-- The tree of `module m \x7b entry = (string key, int? count, string* tags) \x7d`. -/
def Sample.entryTree : SchemaTree :=
  ⟨[⟨"m", ⟨1, 1⟩, [⟨"entry", ⟨1, 12⟩, .product [⟨"key", "string", .single, ⟨1, 21⟩⟩,
    ⟨"count", "int", .optional, ⟨1, 33⟩⟩, ⟨"tags", "string", .repeated, ⟨1, 45⟩⟩]⟩]⟩]⟩

theorem Sample.parse_eq_entryTree :
    SchemaTree.parse "module m \x7b entry = (string key, int? count, string* tags) \x7d" =
      .ok entryTree := rfl

theorem Sample.loadTree_entryTree : (Model.empty none).loadTree 0 none entryTree =
    .ok ⟨Store.Sample.entryModel, Store.Sample.entryModel.modules, []⟩ := rfl

/-- An entry with null for its optional field, and a list of one tag. -/
theorem Reachable.gives_back_entry : ∃ (σ : Session) (r r' : Ref) (s' s'' : Store) (v : Shape),
    σ.Reachable ∧
    σ.store.construct Store.Sample.entryModel "entry" none
      (.positional [.text "a", .null, .object ⟨0⟩]) = .ok (r, s') ∧
    s'.shape? (.object r) = some v ∧
    s'.GivesBack [.text "a", .null, .object ⟨0⟩] v ∧
    v.get (.name "key") = .ok (.text "a") ∧ v.get (.name "count") = .ok .absent ∧
    v.get (.name "tags") = .ok (.object ⟨1⟩) ∧
    s'.get? ⟨1⟩ = some (.list true [some (.text "x")]) ∧
    s'.construct Store.Sample.entryModel "entry" none
      (.positional [.text "a", .absent, .object ⟨1⟩]) = .ok (r', s'') ∧
    s'.construct Store.Sample.entryModel "entry" none
      (.named ⟨[("tags", .object ⟨1⟩), ("count", .absent), ("key", .text "a")]⟩) = .ok (r', s'') ∧
    s''.Twins r r' := by
  let tags : Node := .list false [some (.text "x")]
  let copied : Node := .list true [some (.text "x")]
  let fields : Node := .list true [some (.text "a"), some .absent, some (.object ⟨1⟩)]
  let made : Node := .value Store.Sample.entry none ⟨2⟩
  have hload : (Model.empty none).load 0 none
      "module m \x7b entry = (string key, int? count, string* tags) \x7d" =
        .ok ⟨Store.Sample.entryModel, Store.Sample.entryModel.modules, []⟩ := by
    rw [Model.load, Sample.parse_eq_entryTree, Outcome.ok_bind, Sample.loadTree_entryTree]
  have hloaded : Store.Sample.entryModel.Reachable 1 := .load .empty (Nat.zero_le 0) hload
  have hstep : Step initial _ := .load (.inr rfl) Sample.loadTree_entryTree
  have hempty : Reachable ⟨.empty, 1, [Store.Sample.entryModel]⟩ := .single hstep
  have hσ : Reachable ⟨⟨#[tags]⟩, 1, [Store.Sample.entryModel]⟩ :=
    hempty.call (.list (by decide))
  have hmade : Store.construct ⟨#[tags]⟩ Store.Sample.entryModel "entry" none
      (.positional [.text "a", .null, .object ⟨0⟩]) = .ok (⟨3⟩, ⟨#[tags, copied, fields, made]⟩) := rfl
  obtain ⟨v, hv, hgives, hrebuild⟩ :=
    hσ.gives_back List.mem_cons_self hloaded (by decide) hmade
  obtain rfl : _ = v := Option.some.inj hv
  obtain ⟨r', s'', hpositional, hnamed, -, htwins⟩ := hrebuild
    [.text "a", .absent, .object ⟨1⟩] (.cons rfl (.cons rfl (.cons rfl .nil)))
  exact ⟨_, _, r', _, s'', _, hσ, hmade, hv, hgives, rfl, rfl, rfl, rfl, hpositional,
    hnamed _ (by decide) (.cons rfl (.cons rfl (.cons rfl .nil))), htwins⟩

end Session

end Schemata
