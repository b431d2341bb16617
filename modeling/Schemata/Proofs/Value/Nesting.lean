import Schemata.Proofs.Session
import Schemata.Proofs.Value.Faults
import Schemata.Proofs.Value.Reading
import Mathlib.Algebra.Order.Field.Rat
import Mathlib.Tactic.Linarith
import Mathlib.Tactic.Positivity

/-!
# The depth limit of printing

The depth of a value is the number of members of the chain of nested values that leads to it
(`Store.Chain`). A store may hold values that contain themselves, and then chains of any length.
Whether a value is printed with a finite limit is decided by the lengths of these chains alone, and
otherwise the value that is reported is the first one that is too deep while those around it are not
(`Store.print_limited`).
-/

namespace Schemata

/-! ## Limits -/

/-- The rational number that a number is, if it is finite. -/
def Number.toRat? : Number → Option ℚ
  | nan => none
  | infinite _ => none
  | integral n => some n
  | negativeZero => some 0
  | fractional negative significand places =>
    let magnitude : ℚ := (significand : ℚ) / (2 : ℚ) ^ places
    some (if negative then -magnitude else magnitude)

/-- A finite number has as many levels as there are positive integers up to it. -/
theorem Number.exists_levels {limit : Number} {q : ℚ} (h : limit.toRat? = some q) :
    ∃ m, limit.levels = some m ∧ ∀ k : ℕ, 0 < k → ((k : ℚ) ≤ q ↔ k ≤ m) := by
  cases limit with
  | nan => cases h
  | infinite negative => cases h
  | integral n =>
    obtain rfl := Option.some.inj h
    refine ⟨n.toNat, rfl, fun k hk => ?_⟩
    have hcast : (k : ℚ) ≤ (n : ℚ) ↔ (k : ℤ) ≤ n := by exact_mod_cast Iff.rfl
    rw [hcast]
    omega
  | negativeZero =>
    obtain rfl := Option.some.inj h
    refine ⟨0, rfl, fun k hk => ?_⟩
    exact_mod_cast Iff.rfl
  | fractional negative significand places =>
    have hpos : (0 : ℚ) < 2 ^ places := by positivity
    cases negative with
    | true =>
      obtain rfl := Option.some.inj h
      refine ⟨0, rfl, fun k hk => iff_of_false ?_ (by omega)⟩
      have hmagnitude : (0 : ℚ) ≤ (significand : ℚ) / 2 ^ places := by positivity
      have hk' : (0 : ℚ) < k := by exact_mod_cast hk
      simp only [if_true]
      linarith
    | false =>
      obtain rfl := Option.some.inj h
      refine ⟨significand / 2 ^ places, rfl, fun k _ => ?_⟩
      simp only [Bool.false_eq_true, if_false]
      rw [le_div_iff₀ hpos, Nat.le_div_iff_mul_le (by positivity)]
      exact_mod_cast Iff.rfl

/-! ## Chains of nested values -/

/-- Scalars, which are printed in any case. -/
inductive Datum.IsScalar : Datum → Prop
  | bool (value : Bool) : IsScalar (.bool value)
  | number (value : Number) : IsScalar (.number value)
  | text (value : String) : IsScalar (.text value)

namespace Store

variable {s : Store} {d e e' : Datum} {v : Shape} {f : Field} {items : List (Option Datum)}
  {n m k i : ℕ} {way way' : List ℕ} {steps steps' : List PathStep}

/-- A scalar or a value. -/
def IsElement (s : Store) (d : Datum) : Prop := d.IsScalar ∨ (s.shape? d).isSome

/-- Nothing, an element, or a list of elements, which may have holes. -/
inductive IsContent (s : Store) (d : Datum) : Prop
  | empty : s.isEmpty d = true → s.IsContent d
  | element : s.IsElement d → s.IsContent d
  | list {items : List (Option Datum)} : s.list? d = some items →
    (∀ e, some e ∈ items → s.IsElement e) → s.IsContent d

/-- The value `e` stands directly in the value `d`: it is the content of a field, or an item of
that. -/
inductive Contains (s : Store) (d : Datum) : List ℕ → List PathStep → Datum → Prop
  | content {v : Shape} {k : ℕ} {f : Field} : s.shape? d = some v → v.declared[k]? = some f →
    (s.shape? (v.content f)).isSome → s.Contains d [k] [.field f.name] (v.content f)
  | item {v : Shape} {k i : ℕ} {f : Field} {items : List (Option Datum)} {e : Datum} :
    s.shape? d = some v → v.declared[k]? = some f → s.list? (v.content f) = some items →
    items[i]? = some (some e) → (s.shape? e).isSome →
    s.Contains d [k, i] [.field f.name, .item i] e

/-- A chain of nested values that begins with the first value and ends with the second one, with the
number of its members, and the way from one to the other. -/
inductive Chain (s : Store) : ℕ → Datum → List ℕ → List PathStep → Datum → Prop
  | one (d : Datum) : s.Chain 1 d [] [] d
  | cons {n : ℕ} {d e e' : Datum} {way way' : List ℕ} {steps steps' : List PathStep} :
    s.Contains d way steps e → s.Chain n e way' steps' e' →
    s.Chain (n + 1) d (way ++ way') (steps ++ steps') e'

/-- All values in the value, at any depth, have contents in all their fields. -/
def IsGraph (s : Store) (d : Datum) : Prop :=
  ∀ n way steps e v, s.Chain n d way steps e → s.shape? e = some v →
    ∀ f ∈ v.declared, s.IsContent (v.content f)

theorem IsGraph.of_contains (h : s.IsGraph d) (he : s.Contains d way steps e) : s.IsGraph e :=
  fun _ _ _ _ _ hchain hv => h _ _ _ _ _ (.cons he hchain) hv

theorem Chain.pos (h : s.Chain n d way steps e) : 0 < n := by
  cases h <;> omega

/-- A longer chain goes on from a shorter one. -/
theorem Chain.exists_init (h : s.Chain n d way steps e) (hpos : 0 < m) (hle : m ≤ n) :
    ∃ way₁ way₂ steps₁ e₁, s.Chain m d way₁ steps₁ e₁ ∧ way = way₁ ++ way₂ := by
  induction h generalizing m with
  | one d =>
    obtain rfl : m = 1 := by omega
    exact ⟨[], [], [], d, .one d, rfl⟩
  | @cons n d e e' way way' steps steps' hcontains _ ih =>
    by_cases hm : m = 1
    · exact ⟨[], way ++ way', [], d, hm ▸ .one d, rfl⟩
    · obtain ⟨way₁, way₂, steps₁, e₁, hchain, rfl⟩ := ih (m := m - 1) (by omega) (by omega)
      refine ⟨way ++ way₁, way₂, steps ++ steps₁, e₁, ?_, (List.append_assoc _ _ _).symm⟩
      have := Chain.cons hcontains hchain
      rwa [Nat.sub_add_cancel hpos] at this

theorem isEmpty_of_shape? (h : s.shape? d = some v) : s.isEmpty d = false := by
  obtain ⟨view, hview, -⟩ := Option.bind_eq_some_iff.mp h
  exact isEmpty_of_view? hview

theorem shape?_eq_none_of_list? (h : s.list? d = some items) : s.shape? d = none := by
  rw [shape?, view?_eq_none_of_list? h]
  rfl

theorem shape?_eq_none_of_isScalar (h : d.IsScalar) : s.shape? d = none := by
  cases h <;> rfl

theorem list?_eq_none_of_isScalar (h : d.IsScalar) : s.list? d = none := by
  cases h <;> rfl

end Store

/-! ## Printing with levels -/

namespace Print

open Faults

variable {s : Store} {tooDeep : Path → PrintError} {n : ℕ} {d : Datum} {v : Shape}
  {inner : Datum → Path → Except PrintError String} {place : Path}

/-- Values in a value that more than `n` levels lead to, but not those around them. -/
def beyond (s : Store) (tooDeep : Path → PrintError) (n : ℕ) (d : Datum) : Faults PrintError :=
  fun way steps report => report = tooDeep ∧ ∃ e, s.Chain (n + 1) d way steps e

/-- Those in an element. -/
def elementBeyond (s : Store) (tooDeep : Path → PrintError) (n : ℕ) (d : Datum) :
    Faults PrintError :=
  fun way steps report => (s.shape? d).isSome ∧ beyond s tooDeep n d way steps report

/-- Those in a content. -/
def contentBeyond (s : Store) (tooDeep : Path → PrintError) (n : ℕ) (d : Datum) :
    Faults PrintError :=
  fun way steps report => elementBeyond s tooDeep n d way steps report ∨
    ∃ items, s.list? d = some items ∧
      among (fun i _ => .item i) (ofItem (elementBeyond s tooDeep n)) 0 items way steps report

/-- One more level leads into the contents. -/
theorem beyond_succ (hd : s.shape? d = some v) {way : List ℕ} {steps : List PathStep}
    {report : Path → PrintError} : beyond s tooDeep (n + 1) d way steps report ↔
      among (fun _ f => .field f.name) (fun f => contentBeyond s tooDeep n (v.content f)) 0
        v.declared way steps report := by
  constructor
  · rintro ⟨rfl, e, hchain⟩
    cases hchain with
    | cons hcontains hchain =>
      cases hcontains with
      | content hd' hk hv =>
        obtain rfl := Option.some.inj (hd.symm.trans hd')
        exact ⟨_, _, _, _, hk, by simp, rfl, .inl ⟨hv, rfl, e, hchain⟩⟩
      | item hd' hk hitems hi hv =>
        obtain rfl := Option.some.inj (hd.symm.trans hd')
        exact ⟨_, _, _, _, hk, by simp; rfl, rfl,
          .inr ⟨_, hitems, _, _, _, _, hi, by simp, by simp, hv, rfl, e, hchain⟩⟩
  · rintro ⟨k, f, _, _, hk, rfl, rfl, ⟨hv, rfl, e, hchain⟩ |
      ⟨items, hitems, i, item, _, _, hi, rfl, rfl, hitem⟩⟩
    · exact ⟨rfl, e, by simpa using Store.Chain.cons (.content hd hk hv) hchain⟩
    · cases item with
      | none => exact hitem.elim
      | some x =>
        obtain ⟨hv, rfl, e, hchain⟩ := hitem
        exact ⟨rfl, e, by simpa using Store.Chain.cons (.item hd hk hitems hi hv) hchain⟩

theorem items_findsFirst {faults : Datum → Faults PrintError} {ds : List (Option Datum)} {index : ℕ}
    (h : ∀ d, some d ∈ ds → ∀ place, (faults d).FindsFirst place (element inner d place)) :
    (among (fun i _ => .item i) (ofItem faults) index ds).FindsFirst place
      (items inner place index ds) := by
  induction ds generalizing index with
  | nil => exact .nil []
  | cons item ds ih =>
    have hds := @ih (index + 1) fun d hd => h d (List.mem_cons_of_mem _ hd)
    cases item with
    | none => exact .cons_none (hds.map ("" :: ·))
    | some d =>
      exact .cons (h d List.mem_cons_self (place.item index)) fun text _ => hds.map (text :: ·)

theorem fields_findsFirst {faults : Field → Faults PrintError} {fs : List Field} {k : ℕ}
    (h : ∀ f ∈ fs, ∀ place, (faults f).FindsFirst place (content s inner (v.content f) place)) :
    (among (fun _ f => .field f.name) faults k fs).FindsFirst place (fields s inner v place fs) := by
  induction fs generalizing k with
  | nil => exact .nil []
  | cons f fs ih =>
    obtain ⟨hf, hfs⟩ := List.forall_mem_cons.mp h
    exact .cons (hf (place.field f.name)) fun text _ => (ih hfs).map (text :: ·)

theorem element_findsFirst (hd : s.IsElement d)
    (h : (s.shape? d).isSome → (beyond s tooDeep n d).FindsFirst place (inner d place)) :
    (elementBeyond s tooDeep n d).FindsFirst place (element inner d place) := by
  rcases hd with hscalar | hvalue
  · have hfaults : ∀ way steps report, ¬ elementBeyond s tooDeep n d way steps report := by
      rintro _ _ _ ⟨hvalue, -⟩
      rw [Store.shape?_eq_none_of_isScalar hscalar] at hvalue
      cases hvalue
    cases hscalar <;> exact hfaults
  · have helement : element inner d place = inner d place := by
      obtain ⟨v, hv⟩ := Option.isSome_iff_exists.mp hvalue
      obtain ⟨view, hview, -⟩ := Option.bind_eq_some_iff.mp hv
      obtain ⟨r, rfl, -⟩ := Store.eq_object_of_view? hview
      rfl
    rw [helement]
    exact (h hvalue).congr fun way steps report => and_iff_right hvalue

theorem content_findsFirst (hd : s.IsContent d)
    (h : ∀ e, (e = d ∨ ∃ items, s.list? d = some items ∧ some e ∈ items) → (s.shape? e).isSome →
      ∀ place, (beyond s tooDeep n e).FindsFirst place (inner e place)) :
    (contentBeyond s tooDeep n d).FindsFirst place (content s inner d place) := by
  unfold content
  split_ifs with hempty
  · -- nothing stands in an empty content
    rintro way steps report (⟨hvalue, -⟩ | ⟨items, hitems, -⟩)
    · obtain ⟨v, hv⟩ := Option.isSome_iff_exists.mp hvalue
      rw [Store.isEmpty_of_shape? hv] at hempty
      cases hempty
    · rw [Store.isEmpty_of_list? hitems] at hempty
      cases hempty
  · cases hlist : s.list? d with
    | none =>
      have helement : s.IsElement d := by
        cases hd with
        | empty h => exact absurd h hempty
        | element h => exact h
        | list h => cases hlist.symm.trans h
      refine (element_findsFirst helement fun hvalue => h d (.inl rfl) hvalue place).congr ?_
      intro way steps report
      refine or_iff_left ?_
      rintro ⟨items, hitems, -⟩
      cases hlist.symm.trans hitems
    | some items =>
      have helements : ∀ e, some e ∈ items → s.IsElement e := by
        cases hd with
        | empty h => exact absurd h hempty
        | element h =>
          rcases h with hscalar | hvalue
          · cases hlist.symm.trans (Store.list?_eq_none_of_isScalar hscalar)
          · rw [Store.shape?_eq_none_of_list? hlist] at hvalue
            cases hvalue
        | list h hall =>
          obtain rfl := Option.some.inj (hlist.symm.trans h)
          exact hall
      have hitems : (among (fun i _ => .item i) (ofItem (elementBeyond s tooDeep n)) 0
          items).FindsFirst place (Print.items inner place 0 items) :=
        items_findsFirst fun e he place => element_findsFirst (helements e he) fun hvalue =>
          h e (.inr ⟨items, hlist, he⟩) hvalue place
      refine (hitems.congr fun way steps report => ?_).map
        fun texts => "[" ++ ", ".intercalate texts ++ "]"
      rw [contentBeyond, elementBeyond, Store.shape?_eq_none_of_list? hlist]
      simp [hlist]

/-- A value is printed if none in it lies deeper than there are levels, and else the first one that
does is reported. -/
theorem value_findsFirst (hd : (s.shape? d).isSome) (hgraph : s.IsGraph d) :
    (beyond s tooDeep n d).FindsFirst place (value s tooDeep n d place) := by
  induction n generalizing d place with
  | zero =>
    unfold value
    exact ⟨[], [], tooDeep, ⟨rfl, d, .one d⟩, by rw [Path.along_nil], fun _ _ _ _ => .around⟩
  | succ n ih =>
    obtain ⟨v, hv⟩ := Option.isSome_iff_exists.mp hd
    unfold value
    rw [hv]
    have hcontent : ∀ f ∈ v.declared, ∀ place, (contentBeyond s tooDeep n (v.content f)).FindsFirst
        place (content s (value s tooDeep n) (v.content f) place) := by
      intro f hf place
      refine content_findsFirst (hgraph 1 [] [] d v (.one d) hv f hf) fun e he hvalue place => ?_
      obtain ⟨k, hk⟩ := List.mem_iff_getElem?.mp hf
      refine ih hvalue ?_
      rcases he with rfl | ⟨items, hitems, he⟩
      · exact hgraph.of_contains (.content hv hk hvalue)
      · obtain ⟨i, hi⟩ := List.mem_iff_getElem?.mp he
        exact hgraph.of_contains (.item hv hk hitems hi hvalue)
    exact ((fields_findsFirst hcontent).congr fun _ _ _ => beyond_succ hv).map (assemble v)

end Print

namespace Store

variable {s : Store} {d : Datum} {v : Shape}

/-- The text of a value does not depend on the limit. -/
theorem eq_of_print_eq_ok {limit limit' : Number} {text text' : String}
    (h : s.print limit d = .ok text) (h' : s.print limit' d = .ok text') : text = text' := by
  obtain ⟨tooDeep, n, place, hvalue⟩ := exists_value_of_print h
  obtain ⟨tooDeep', n', place', hvalue'⟩ := exists_value_of_print h'
  have hmore : Print.value s tooDeep (max n n') d place = .ok text :=
    Print.value_mono (Nat.le_max_left n n') hvalue
  have hmore' : Print.value s tooDeep (max n n') d place = .ok text' :=
    Print.value_mono (Nat.le_max_right n n') hvalue'
  exact Except.ok.inj (hmore.symm.trans hmore')

/-- Printing with a finite limit, of a value whose contents at any depth are scalars, values, lists
of these, which may have holes, or nothing. There is a text exactly if no chain of nested values
that begins with the value has more members than the limit. Otherwise the error has the limit and
the path of a value that lies deeper, while all that it stands in do not, and every other value that
lies deeper is read later. Limits with which there is a text give the same text. -/
theorem print_limited {limit : Number} {q : ℚ} (hd : s.shape? d = some v) (hgraph : s.IsGraph d)
    (hq : limit.toRat? = some q) :
    ((∃ text, s.print limit d = .ok text) ↔
      ∀ n way steps e, s.Chain n d way steps e → (n : ℚ) ≤ q) ∧
    ((¬ ∃ text, s.print limit d = .ok text) → ∃ n way steps e, s.Chain n d way steps e ∧
      q < n ∧ (∀ m, 0 < m → m < n → (m : ℚ) ≤ q) ∧
      s.print limit d = .error (.depth ⟨limit, ⟨v.label, steps⟩⟩) ∧
      ∀ n' way' steps' e', s.Chain n' d way' steps' e' → q < n' → Precedes way way') ∧
    ∀ limit' text text', s.print limit d = .ok text → s.print limit' d = .ok text' →
      text = text' := by
  obtain ⟨levels, hlevels, hle⟩ := Number.exists_levels hq
  let tooDeep (place : Path) : PrintError := .depth ⟨limit, place⟩
  have hprint : s.print limit d = Print.value s tooDeep levels d (.ofRoot v.label) := by
    rw [print, hd, hlevels]
  have hfirst : (Print.beyond s tooDeep levels d).FindsFirst (.ofRoot v.label) (s.print limit d) :=
    hprint ▸ Print.value_findsFirst (hd ▸ rfl) hgraph
  have hdeeper {n : ℕ} {way : List ℕ} {steps : List PathStep} {e : Datum}
      (hchain : s.Chain n d way steps e) : q < n ↔ levels < n := by
    rw [← not_le, hle n hchain.pos, not_le]
  -- a chain that is too long goes on from one that is too long by one
  have hinit {n : ℕ} {way : List ℕ} {steps : List PathStep} {e : Datum}
      (hchain : s.Chain n d way steps e) (hn : q < n) : ∃ way₁ way₂ steps₁,
        Print.beyond s tooDeep levels d way₁ steps₁ tooDeep ∧ way = way₁ ++ way₂ := by
    obtain ⟨way₁, way₂, steps₁, e₁, hchain, hway⟩ :=
      hchain.exists_init (Nat.succ_pos levels) ((hdeeper hchain).mp hn)
    exact ⟨way₁, way₂, steps₁, ⟨rfl, e₁, hchain⟩, hway⟩
  refine ⟨⟨?_, fun hall => ?_⟩, fun hnone => ?_, fun limit' text text' htext htext' => ?_⟩
  · rintro ⟨text, htext⟩ n way steps e hchain
    rw [htext] at hfirst
    by_contra hn
    obtain ⟨_, _, _, hfault, -⟩ := hinit hchain (not_le.mp hn)
    exact hfirst _ _ _ hfault
  · cases hcase : s.print limit d with
    | ok text => exact ⟨text, rfl⟩
    | error e =>
      rw [hcase] at hfirst
      obtain ⟨_, _, _, ⟨-, _, hchain⟩, -⟩ := hfirst
      exact absurd (hall _ _ _ _ hchain) (not_le.mpr ((hdeeper hchain).mpr (Nat.lt_succ_self _)))
  · cases hcase : s.print limit d with
    | ok text => exact absurd ⟨text, hcase⟩ hnone
    | error e =>
      rw [hcase] at hfirst
      obtain ⟨way, steps, _, ⟨rfl, e, hchain⟩, rfl, hmin⟩ := hfirst
      refine ⟨levels + 1, way, steps, e, hchain, (hdeeper hchain).mpr (Nat.lt_succ_self _),
        fun m hpos hm => (hle m hpos).mpr (Nat.le_of_lt_succ hm), rfl, ?_⟩
      intro n' way' steps' e' hchain' hn'
      obtain ⟨way₁, way₂, _, hfault, rfl⟩ := hinit hchain' hn'
      exact (hmin _ _ _ hfault).append way₂
  · exact eq_of_print_eq_ok htext htext'

/-- A node that is its own next node. -/
def Sample.loop : Store :=
  ⟨#[.list false [some (.number (.ofNat 1)), some (.object ⟨1⟩)], .record (Session.Sample.properties ⟨0⟩)]⟩

/-- The node as a value. -/
def Sample.loopShape : Shape :=
  ⟨.product, "node", Session.Sample.node.fields, [.number (.ofNat 1), .object ⟨1⟩]⟩

theorem Sample.shape?_loop : loop.shape? (.object ⟨1⟩) = some loopShape := rfl

theorem Sample.content_loop {f : Field} (hf : f ∈ loopShape.declared) :
    loopShape.content f = .number (.ofNat 1) ∨ loopShape.content f = .object ⟨1⟩ := by
  revert f
  decide

theorem Sample.eq_of_chain_loop {n : ℕ} {d e : Datum} {way : List ℕ} {steps : List PathStep}
    (h : loop.Chain n d way steps e) (hd : d = .object ⟨1⟩) : e = .object ⟨1⟩ := by
  induction h with
  | one d => exact hd
  | cons hcontains _ ih =>
    refine ih ?_
    subst hd
    cases hcontains with
    | content hv hk hvalue =>
      obtain rfl := Option.some.inj (shape?_loop.symm.trans hv)
      rcases content_loop (List.mem_of_getElem? hk) with hcontent | hcontent
      · rw [hcontent] at hvalue
        cases hvalue
      · exact hcontent
    | item hv hk hitems =>
      obtain rfl := Option.some.inj (shape?_loop.symm.trans hv)
      rcases content_loop (List.mem_of_getElem? hk) with hcontent | hcontent <;>
      · rw [hcontent] at hitems
        cases hitems

theorem Sample.isGraph_loop : loop.IsGraph (.object ⟨1⟩) := by
  intro n way steps e v hchain hv f hf
  obtain rfl := eq_of_chain_loop hchain rfl
  obtain rfl := Option.some.inj (shape?_loop.symm.trans hv)
  rcases content_loop hf with hcontent | hcontent <;> rw [hcontent]
  · exact .element (.inl (.number _))
  · exact .element (.inr rfl)

/-- With the limit `5 / 2` the third node is too deep. -/
theorem print_limited_loop : Number.toRat? (.fractional false 5 1) = some (5 / 2) ∧
    Sample.loop.IsGraph (.object ⟨1⟩) ∧ ∃ n way steps e,
      Sample.loop.Chain n (.object ⟨1⟩) way steps e ∧ 5 / 2 < (n : ℚ) ∧
      (∀ m, 0 < m → m < n → (m : ℚ) ≤ 5 / 2) ∧
      Sample.loop.print (.fractional false 5 1) (.object ⟨1⟩) =
        .error (.depth ⟨.fractional false 5 1, ⟨"node", steps⟩⟩) ∧
      steps = [.field "next", .field "next"] := by
  have hq : Number.toRat? (.fractional false 5 1) = some (5 / 2) := by simp [Number.toRat?]
  have herror : Sample.loop.print (.fractional false 5 1) (.object ⟨1⟩) =
      .error (.depth ⟨.fractional false 5 1, ⟨"node", [.field "next", .field "next"]⟩⟩) := rfl
  obtain ⟨-, hdeep, -⟩ := print_limited Sample.shape?_loop Sample.isGraph_loop hq
  obtain ⟨n, way, steps, e, hchain, hn, hwithin, hprint, -⟩ := hdeep (by simp [herror])
  have hsteps : steps = [.field "next", .field "next"] := by
    have heq := hprint.symm.trans herror
    injection heq with heq
    injection heq with heq
    injection heq with _ heq
    injection heq
  exact ⟨hq, Sample.isGraph_loop, n, way, steps, e, hchain, hn, hwithin, hprint, hsteps⟩

end Store

end Schemata
