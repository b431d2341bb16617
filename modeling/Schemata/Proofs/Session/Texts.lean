import Schemata.Proofs.Session.Sealing
import Schemata.Proofs.Value.Spelling

/-!
# Texts and plain views of constructed values

Where all values in a datum are constructed, printing it comes to an end with a text, and so does
taking its plain view; as sealed nodes refer to older ones, the age of a node bounds how deep it is
nested (`Session.Sound.exists_text`, `Session.Sound.exists_plain`).

In a hole of a list nothing is written, so that a list with a single hole and no item is written
like an empty one. `Store.Solid` says that there is no such list.
-/

namespace Schemata

namespace Store

variable {s : Store} {r : Ref} {b : Built}

theorem Sealed.shape?_of_hasBuilt (h : s.Sealed) (hb : s.HasBuilt r b) :
    s.shape? (.object r) = some b.shape := by
  rw [shape?, hb.view?]
  exact (h.alternative hb).shape?_view

/-- The content of a field has a plain view if its elements have one. -/
theorem Sealed.exists_plain_of_fits (h : s.Sealed) {P : TypeRef → Datum → Prop}
    {f : Field} {d : Datum} (hd : s.Fits P f d) (hP : ∀ e, P f.type e → ∀ room, e.rank < room →
      ∃ p, Plain.ofDatum? s room e = some p) {room : Nat} (hroom : d.rank < room) :
    ∃ p, Plain.ofDatum? s room d = some p := by
  unfold Store.Fits at hd
  cases hm : f.multiplicity <;> simp only [hm] at hd
  case single => exact hP d hd room hroom
  case optional =>
    rcases hd with rfl | hd
    · obtain ⟨n, rfl⟩ : ∃ n, room = n + 1 := ⟨room - 1, by omega⟩
      exact ⟨_, rfl⟩
    · exact hP d hd room hroom
  case repeated =>
    obtain ⟨l, items, rfl, hl, hall⟩ := hd
    obtain ⟨n, rfl⟩ : ∃ n, room = n + 1 := ⟨room - 1, by omega⟩
    have hlist := list?_of_get? hl
    have hitem : ∀ item ∈ items, ∃ p, Plain.ofItem? (Plain.ofDatum? s n) item = some p := by
      intro item hitem
      cases item with
      | none => exact ⟨none, rfl⟩
      | some e =>
        have hrank := h.older l _ hl rfl e (mem_present.mpr hitem)
        obtain ⟨p, hp⟩ := hP e (hall e hitem) n
          (Nat.lt_of_le_of_lt hrank (Nat.lt_of_succ_lt_succ hroom))
        exact ⟨some p, by rw [Plain.ofItem?, hp, Option.map_some]⟩
    obtain ⟨views, hviews⟩ := Outcome.exists_mapM_eq_some hitem
    exact ⟨.list views, by rw [Plain.ofDatum?_of_list? hlist, hviews, Option.map_some]⟩

end Store

/-! ## Lists that are nothing but a hole -/

/-- A list without holes is not nothing but a hole. -/
theorem map_some_ne_hole (ds : List Datum) : ds.map some ≠ [none] := by
  intro heq
  have hnone : none ∈ ds.map some := heq ▸ List.mem_singleton_self none
  simp at hnone

namespace Store

/-- No list that one gets to from the datum is nothing but a hole. -/
def Solid (s : Store) (d : Datum) : Prop := ∀ x, s.Reaches d x → s.list? x ≠ some [none]

namespace Solid

variable {s s' : Store} {d x : Datum} {r : Ref}

theorem of_reaches (h : s.Solid d) (hx : s.Reaches d x) : s.Solid x :=
  fun y hy => h y (hx.trans hy)

theorem sameBelow (h : s.Solid d) (hs : s.SameBelow s' d) : s'.Solid d := by
  intro x hx
  have hway := hs.reaches hx
  rw [(hs.of_reaches hway).list?_eq]
  exact h x hway

theorem of_ne_object (h : ∀ r, d ≠ .object r) : s.Solid d := by
  intro x hx
  cases x with
  | object r => exact absurd hx (not_reaches_of_ne_object h r)
  | _ => simp [list?, node?]

theorem of_get? {n : Node} (hr : s.get? r = some n) (hn : ∀ frozen, n ≠ .list frozen [none])
    (hdata : ∀ d ∈ n.data, s.Solid d) : s.Solid (.object r) := by
  intro x hx
  rcases hx.cases_head with rfl | ⟨y, ⟨m, hm, hy⟩, hway⟩
  · intro hlist
    simp only [list?, node?, hr] at hlist
    split at hlist
    next heq => exact hn _ ((Option.some.inj hlist) ▸ Option.some.inj heq)
    next => cases hlist
  · obtain rfl := Option.some.inj (hr.symm.trans hm)
    exact hdata y hy x hway

theorem of_hasBuilt {b : Built} (hb : s.HasBuilt r b) (hcontents : ∀ d ∈ b.fields, s.Solid d) :
    s.Solid (.object r) := by
  obtain ⟨fields, hvalue, hfields⟩ := hb
  have hlist : s.Solid (.object fields) := by
    refine .of_get? hfields (fun frozen heq => ?_) fun d hd =>
      hcontents d (present_map_some b.fields ▸ hd)
    exact map_some_ne_hole b.fields (Node.list.inj heq).2
  refine .of_get? hvalue (fun frozen heq => by cases heq) fun d hd => ?_
  rcases Node.of_mem_value hd with rfl | hd
  · exact hlist
  · exact .of_ne_object hd

/-- No content of a value in which there is no such list is one. -/
theorem content {b : Built} (h : s.Solid (.object r)) (hb : s.HasBuilt r b) (index : Nat) :
    s.list? (contentAt b.fields index) ≠ some [none] := by
  rcases contentAt_mem_or b.fields index with hmem | hmissing
  · exact h _ (hb.reaches hmem)
  · rw [hmissing]
    simp [list?, node?]

end Solid

end Store

namespace Session

variable {σ : Session} {type : TypeRef} {d : Datum}

/-- An element in which all values are constructed is printed if nesting to its age is allowed. -/
theorem Sound.exists_text (h : σ.Sound) (hsealed : σ.store.Sealed) (hd : σ.store.HasType type d)
    (hmade : σ.store.Constructed d) (tooDeep : Path → PrintError) :
    ∀ levels, d.rank ≤ levels → ∀ place,
      ∃ text, Print.element (Print.value σ.store tooDeep levels) d place = .ok text := by
  refine hsealed.element_induct (P := fun _ d => ∀ levels, d.rank ≤ levels → ∀ place,
    ∃ text, Print.element (Print.value σ.store tooDeep levels) d place = .ok text)
    (fun p d hp => ?_) (fun r b hb _ hcontents => ?_) hd hmade
  · intro levels _ place
    rcases Primitive.of_accepts hp with ⟨-, t, rfl⟩ | ⟨-, x, rfl, -⟩ | ⟨-, b, rfl⟩ <;>
      exact ⟨_, rfl⟩
  · intro levels hlevels place
    obtain ⟨n, rfl⟩ : ∃ n, levels = n + 1 := ⟨levels - 1, by rw [Datum.rank] at hlevels; omega⟩
    have hcontent : ∀ f ∈ b.shape.declared, ∀ place, ∃ text,
        Print.content σ.store (Print.value σ.store tooDeep n) (b.shape.content f) place =
          .ok text := by
      intro f hf place
      have hfits := h.of_contents hsealed hb (hsealed.contents_rank hb hcontents) hf
      refine Print.exists_content_eq_ok hfits (fun e ⟨⟨htype, htext⟩, hrank⟩ => ?_) place
      exact ⟨htype, htext n (Nat.le_trans hrank (Nat.le_of_succ_le_succ hlevels))⟩
    obtain ⟨texts, htexts⟩ := Print.exists_fields_eq_ok hcontent place
    exact ⟨_, Print.value_eq_ok.mpr ⟨n, _, texts, rfl, hsealed.shape?_of_hasBuilt hb, htexts, rfl⟩⟩

/-- An element in which all values are constructed has a plain view if nesting beyond its age is
allowed. -/
theorem Sound.exists_plain (h : σ.Sound) (hsealed : σ.store.Sealed) (hd : σ.store.HasType type d)
    (hmade : σ.store.Constructed d) :
    ∀ room, d.rank < room → ∃ p, Plain.ofDatum? σ.store room d = some p := by
  refine hsealed.element_induct (P := fun _ d => ∀ room, d.rank < room →
    ∃ p, Plain.ofDatum? σ.store room d = some p)
    (fun p d hp => ?_) (fun r b hb _ hcontents => ?_) hd hmade
  · intro room hroom
    obtain ⟨n, rfl⟩ : ∃ n, room = n + 1 := ⟨room - 1, by omega⟩
    rcases Primitive.of_accepts hp with ⟨-, t, rfl⟩ | ⟨-, x, rfl, -⟩ | ⟨-, b, rfl⟩ <;>
      exact ⟨_, rfl⟩
  · intro room hroom
    obtain ⟨n, rfl⟩ : ∃ n, room = n + 1 := ⟨room - 1, by omega⟩
    have hcontent : ∀ f ∈ b.shape.declared, ∃ p,
        Plain.ofDatum? σ.store n (b.shape.content f) = some p := by
      intro f hf
      obtain ⟨hfits, hc⟩ := h.of_contents hsealed hb (Outcome.forall₂_and_mem hcontents) hf
      have hage := hsealed.rank_le_of_mem_fields hb hc
      refine hsealed.exists_plain_of_fits hfits (fun e he => he.2) ?_
      exact Nat.lt_of_le_of_lt hage (Nat.lt_of_succ_lt_succ hroom)
    obtain ⟨contents, hcontents⟩ := Outcome.exists_mapM_eq_some hcontent
    refine ⟨Plain.ofShape b.shape contents, ?_⟩
    rw [Plain.ofDatum?_of_view? hb.view? (hsealed.alternative hb).shape?_view, hcontents]
    rfl

/-! ## A session with a type of lists -/

namespace Sample

/-- The tree of `module m \x7b t = (int* xs) \x7d`. -/
def listsTree : SchemaTree :=
  ⟨[⟨"m", ⟨1, 1⟩, [⟨"t", ⟨1, 12⟩, .product [⟨"xs", "int", .repeated, ⟨1, 17⟩⟩]⟩]⟩]⟩

def listsField : Field := ⟨"xs", 0, .primitive .int, .repeated, false, ⟨1, 17⟩⟩

def lists : TypeDef := ⟨⟨0, "m", "t"⟩, ⟨1, 12⟩, .product [listsField]⟩

def listsModel : Model := ⟨[⟨0, "m", [lists]⟩], defaultMaxDepth⟩

/-- A list that is nothing but a hole is written down. -/
theorem reachable_hole : Reachable ⟨⟨#[.list false [none]]⟩, 1, [listsModel]⟩ := by
  have hload : (Model.empty none).loadTree 0 none listsTree =
      .ok ⟨listsModel, listsModel.modules, []⟩ := rfl
  have hstep : Step initial _ := .load (.inr rfl) hload
  have hloaded : Reachable ⟨.empty, 1, [listsModel]⟩ := .single hstep
  exact hloaded.call (.list (by decide))

end Sample

end Session

end Schemata
