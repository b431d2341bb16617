import Schemata.Proofs.Value.Conformance
import Schemata.Proofs.Outcome
import Schemata.Value.Plain
import Schemata.Value.Print

/-!
# Reading values

What is printed of a value, and what its plain view is, depends on nothing but what is below it
(`Print.value_sameBelow`, `Plain.ofDatum?_sameBelow`). Where there is enough room for the nesting,
more of it makes no difference (`Print.value_mono`, `Plain.ofDatum?_mono`).
-/

namespace Schemata

variable {s s' : Store} {d e : Datum}

theorem Store.SameBelow.shape?_eq (h : s.SameBelow s' d) : s'.shape? d = s.shape? d := by
  rw [Store.shape?, Store.shape?, h.view?_eq]

/-- The contents that a shape shows are those of the value. -/
theorem ValueView.contents_of_shape? {v : ValueView} {shape : Shape} (h : v.shape? = some shape) :
    shape.contents = v.fields := by
  unfold shape? at h
  split at h
  next => rw [← Option.some.inj h]
  next => rw [← Option.some.inj h]
  next => cases h

theorem Store.SameBelow.shape_content {shape : Shape} (h : s.SameBelow s' d)
    (hd : s.shape? d = some shape) (f : Field) : s.SameBelow s' (shape.content f) := by
  obtain ⟨v, hv, hshape⟩ := Option.bind_eq_some_iff.mp hd
  rw [Shape.content, ValueView.contents_of_shape? hshape]
  exact h.content hv f.index

/-! ## Printed text -/

namespace Print

variable {inner inner' : Datum → Path → Except PrintError String} {place place' : Path}
  {ds : List (Option Datum)} {index index' : Nat} {v : Shape} {fs : List Field} {text : String}
  {texts : List String}

section Congruence

theorem element_congr (h : ∀ place, inner d place = inner' d place) :
    element inner d place = element inner' d place := by
  cases d <;> first | rfl | exact h place

theorem items_congr (h : ∀ d ∈ present ds, ∀ place, inner d place = inner' d place) :
    items inner place index ds = items inner' place index ds := by
  induction ds generalizing index with
  | nil => rfl
  | cons item ds ih =>
    cases item with
    | none => rw [items, items, ih h]
    | some d =>
      obtain ⟨hd, hds⟩ := List.forall_mem_cons.mp h
      rw [items, items, element_congr hd, ih hds]

theorem content_congr (hs : s.SameBelow s' d)
    (h : ∀ e, s.Reaches d e → ∀ place, inner' e place = inner e place) :
    content s' inner' d place = content s inner d place := by
  unfold content
  rw [hs.isEmpty_eq, hs.list?_eq]
  cases hlist : s.list? d with
  | none => rw [element_congr (h d .refl)]
  | some ds =>
    dsimp only
    rw [items_congr fun e he => h e (.single (Store.mentions_of_list? hlist (mem_present.mp he)))]

theorem fields_congr (hs : ∀ f : Field, s.SameBelow s' (v.content f))
    (h : ∀ f e, s.Reaches (v.content f) e → ∀ place, inner' e place = inner e place) :
    fields s' inner' v place fs = fields s inner v place fs := by
  induction fs with
  | nil => rfl
  | cons f fs ih => rw [fields, fields, content_congr (hs f) (h f), ih]

end Congruence

theorem value_eq_ok {tooDeep : Path → PrintError} {levels : Nat} :
    value s tooDeep levels d place = .ok text ↔ ∃ n v texts, levels = n + 1 ∧
      s.shape? d = some v ∧ fields s (value s tooDeep n) v place v.declared = .ok texts ∧
      assemble v texts = text := by
  cases levels with
  | zero =>
    unfold value
    simp
  | succ n =>
    unfold value
    cases s.shape? d with
    | none => simp
    | some v =>
      constructor
      · intro h
        obtain ⟨texts, htexts, h⟩ := Outcome.bind_eq_ok.mp h
        exact ⟨n, v, texts, rfl, rfl, htexts, Outcome.pure_eq_ok.mp h⟩
      · rintro ⟨_, _, texts, ⟨⟩, ⟨⟩, htexts, rfl⟩
        dsimp only
        rw [htexts]
        rfl

/-- The text of a value is the same in stores that are the same below it. -/
theorem value_sameBelow {tooDeep : Path → PrintError} {levels : Nat} (h : s.SameBelow s' d) :
    value s' tooDeep levels d place = value s tooDeep levels d place := by
  induction levels generalizing d place with
  | zero =>
    unfold value
    rfl
  | succ levels ih =>
    unfold value
    rw [h.shape?_eq]
    cases hshape : s.shape? d with
    | none => rfl
    | some v =>
      dsimp only
      rw [fields_congr (h.shape_content hshape) fun f e he place =>
        ih ((h.shape_content hshape f).of_reaches he)]

section Monotone

variable (h : ∀ e place place' text, inner e place = .ok text → inner' e place' = .ok text)

include h

theorem element_mono (hd : element inner d place = .ok text) :
    element inner' d place' = .ok text := by
  cases d <;> first | exact hd | exact h _ _ _ _ hd

theorem items_mono (hds : items inner place index ds = .ok texts) :
    items inner' place' index' ds = .ok texts := by
  induction ds generalizing index index' texts with
  | nil => exact hds
  | cons item ds ih =>
    cases item with
    | none =>
      obtain ⟨rest, hrest, hds⟩ := Outcome.bind_eq_ok.mp hds
      rw [items, ih hrest]
      exact hds
    | some d =>
      obtain ⟨text, htext, hds⟩ := Outcome.bind_eq_ok.mp hds
      obtain ⟨rest, hrest, hds⟩ := Outcome.bind_eq_ok.mp hds
      rw [items, element_mono h htext, Outcome.ok_bind, ih hrest]
      exact hds

theorem content_mono (hd : content s inner d place = .ok text) :
    content s inner' d place' = .ok text := by
  unfold content at hd ⊢
  split_ifs at hd ⊢ with hempty
  · exact hd
  · cases hlist : s.list? d with
    | none =>
      rw [hlist] at hd
      exact element_mono h hd
    | some ds =>
      rw [hlist] at hd
      obtain ⟨texts, htexts, hd⟩ := Outcome.bind_eq_ok.mp hd
      dsimp only
      rw [items_mono h htexts]
      exact hd

theorem fields_mono (hfs : fields s inner v place fs = .ok texts) :
    fields s inner' v place' fs = .ok texts := by
  induction fs generalizing texts with
  | nil => exact hfs
  | cons f fs ih =>
    obtain ⟨text, htext, hfs⟩ := Outcome.bind_eq_ok.mp hfs
    obtain ⟨rest, hrest, hfs⟩ := Outcome.bind_eq_ok.mp hfs
    rw [fields, content_mono h htext, Outcome.ok_bind, ih hrest]
    exact hfs

end Monotone

/-- A value that is printed is printed in the same way where deeper nesting is allowed. -/
theorem value_mono {tooDeep tooDeep' : Path → PrintError} {levels more : Nat}
    (hle : levels ≤ more) (h : value s tooDeep levels d place = .ok text) :
    value s tooDeep' more d place' = .ok text := by
  induction levels generalizing more d place place' text with
  | zero =>
    obtain ⟨_, _, _, ⟨⟩, -⟩ := value_eq_ok.mp h
  | succ levels ih =>
    obtain ⟨_, v, texts, ⟨⟩, hshape, htexts, rfl⟩ := value_eq_ok.mp h
    refine value_eq_ok.mpr ⟨more - 1, v, texts, by omega, hshape, ?_, rfl⟩
    exact fields_mono (fun _ _ _ _ he => ih (Nat.le_sub_one_of_lt hle) he) htexts

end Print

/-- A text of a value is one with some number of levels. -/
theorem Store.exists_value_of_print {limit : Number} {text : String} (h : s.print limit d = .ok text) :
    ∃ tooDeep levels place, Print.value s tooDeep levels d place = .ok text := by
  unfold print at h
  cases hshape : s.shape? d with
  | none => simp [hshape] at h
  | some v =>
    cases hlevels : limit.levels with
    | none => exact ⟨_, _, _, by simpa only [hshape, hlevels] using h⟩
    | some n => exact ⟨_, _, _, by simpa only [hshape, hlevels] using h⟩

/-! ## Plain views -/

namespace Plain

variable {inner inner' : Datum → Option Plain} {room more : Nat} {p : Plain}

/-- View of what is no scalar, given the views of what it holds. -/
def ofHolder? (s : Store) (inner : Datum → Option Plain) (d : Datum) : Option Plain :=
  if s.isAbsent d then some null
  else
    match s.list? d with
    | some items => (items.mapM (ofItem? inner)).map list
    | none =>
      match s.view? d with
      | none => some other
      | some view => do
        let v ← view.shape?
        let contents ← v.declared.mapM fun f => inner (v.content f)
        pure (ofShape v contents)

/-- A list has a view if its items do, which keeps the holes. -/
theorem mapM_ofItem?_eq_some {items : List (Option Datum)} {ps : List (Option Plain)} :
    items.mapM (ofItem? inner) = some ps ↔
      List.Forall₂ (Option.Rel fun d p => inner d = some p) items ps := by
  rw [Outcome.mapM_eq_some]
  refine ⟨List.Forall₂.imp fun item p h => ?_, List.Forall₂.imp fun item p h => ?_⟩
  · cases item with
    | none =>
      obtain rfl := Option.some.inj h
      exact .none
    | some d =>
      obtain ⟨p, hp, rfl⟩ := Option.map_eq_some_iff.mp h
      exact .some hp
  · cases h with
    | none => rfl
    | some hp => exact congrArg (Option.map some) hp

/-- The view of a datum is that of a scalar or of what holds other data. -/
theorem ofDatum?_succ (d : Datum) :
    (∃ p, ∀ s room, ofDatum? s (room + 1) d = some p) ∨
      ∀ s room, ofDatum? s (room + 1) d = ofHolder? s (ofDatum? s room) d := by
  cases d with
  | missing | null | bool | number | text => exact .inl ⟨_, fun _ _ => rfl⟩
  | _ => exact .inr fun _ _ => rfl

/-- The plain view of a datum is the same in stores that are the same below it. -/
theorem ofDatum?_sameBelow (h : s.SameBelow s' d) : ofDatum? s' room d = ofDatum? s room d := by
  induction room generalizing d with
  | zero =>
    unfold ofDatum?
    rfl
  | succ room ih =>
    rcases ofDatum?_succ d with ⟨p, hp⟩ | hholder
    · rw [hp, hp]
    rw [hholder, hholder]
    unfold ofHolder?
    rw [h.isAbsent_eq, h.list?_eq, h.view?_eq]
    split
    next => rfl
    next =>
      split
      next items hitems =>
        have hitem (item : Option Datum) (he : item ∈ items) :
            ofItem? (ofDatum? s' room) item = ofItem? (ofDatum? s room) item := by
          cases item with
          | none => rfl
          | some e =>
            have he := h.of_reaches (.single (Store.mentions_of_list? hitems he))
            exact congrArg (Option.map some) (ih he)
        rw [Outcome.mapM_congr hitem]
      next =>
        cases hview : s.view? d with
        | none => rfl
        | some view =>
          dsimp only
          cases hshape : view.shape? with
          | none => rfl
          | some v =>
            have hcontent (f : Field) : s.SameBelow s' (v.content f) :=
              h.shape_content (Option.bind_eq_some_iff.mpr ⟨view, hview, hshape⟩) f
            simp only [Option.bind_eq_bind, Option.bind_some, ih (hcontent _)]

theorem ofHolder?_mono (h : ∀ e p, inner e = some p → inner' e = some p)
    (hd : ofHolder? s inner d = some p) : ofHolder? s inner' d = some p := by
  unfold ofHolder? at hd ⊢
  split at hd
  next hempty =>
    rw [if_pos hempty]
    exact hd
  next hempty =>
    rw [if_neg hempty]
    split at hd
    next items hitems =>
      obtain ⟨views, hviews, rfl⟩ := Option.map_eq_some_iff.mp hd
      rw [mapM_ofItem?_eq_some.mpr ((mapM_ofItem?_eq_some.mp hviews).imp fun item p hrel => ?_)]
      · rfl
      · cases hrel with
        | none => exact .none
        | some hp => exact .some (h _ _ hp)
    next =>
      split at hd
      next => exact hd
      next view hview =>
        obtain ⟨v, hv, hd⟩ := Option.bind_eq_some_iff.mp hd
        obtain ⟨views, hviews, hd⟩ := Option.bind_eq_some_iff.mp hd
        simp only [hv, Option.bind_eq_bind, Option.bind_some]
        rw [Outcome.mapM_eq_some.mpr ((Outcome.mapM_eq_some.mp hviews).imp fun f p => h _ p)]
        exact hd

/-- The plain view of a datum is the same where deeper nesting is allowed. -/
theorem ofDatum?_mono (hle : room ≤ more) (h : ofDatum? s room d = some p) :
    ofDatum? s more d = some p := by
  induction room generalizing more d p with
  | zero =>
    unfold ofDatum? at h
    cases h
  | succ room ih =>
    obtain ⟨more, rfl⟩ : ∃ n, more = n + 1 := ⟨more - 1, by omega⟩
    rcases ofDatum?_succ d with ⟨q, hq⟩ | hholder
    · rw [hq] at h ⊢
      exact h
    · rw [hholder] at h ⊢
      exact ofHolder?_mono (fun e p => ih (Nat.le_of_succ_le_succ hle)) h

theorem ofDatum?_of_list? {items : List (Option Datum)} (hd : s.list? d = some items) :
    ofDatum? s (room + 1) d = (items.mapM (ofItem? (ofDatum? s room))).map list := by
  obtain ⟨r, rfl⟩ : ∃ r, d = .object r := by
    cases d <;> first | exact ⟨_, rfl⟩ | cases hd
  have hempty : s.isAbsent (.object r) = false := Store.isEmpty_of_list? hd
  show ofHolder? s (ofDatum? s room) (.object r) = _
  rw [ofHolder?, hempty, hd]
  simp only [Bool.false_eq_true, if_false]

theorem ofDatum?_of_view? {view : ValueView} {v : Shape} (hd : s.view? d = some view)
    (hv : view.shape? = some v) : ofDatum? s (room + 1) d = (do
      let contents ← v.declared.mapM fun f => ofDatum? s room (v.content f)
      pure (ofShape v contents)) := by
  obtain ⟨r, rfl, -⟩ := Store.eq_object_of_view? hd
  have hempty : s.isAbsent (.object r) = false := Store.isEmpty_of_view? hd
  have hlist : s.list? (.object r) = none := by
    cases hlist : s.list? (.object r) with
    | none => rfl
    | some items => cases hd.symm.trans (Store.view?_eq_none_of_list? hlist)
  show ofHolder? s (ofDatum? s room) (.object r) = _
  rw [ofHolder?, hempty, hlist, hd]
  simp only [hv, Option.bind_eq_bind, Option.bind_some, Bool.false_eq_true, if_false]

/-- The plain view of a value is that of a datum. -/
theorem plain?_eq_ofDatum? {v : Shape} (hd : s.shape? d = some v) :
    s.plain? v = ofDatum? s (s.size + 2) d := by
  obtain ⟨view, hview, hv⟩ := Option.bind_eq_some_iff.mp hd
  exact (ofDatum?_of_view? hview hv).symm

end Plain

end Schemata
