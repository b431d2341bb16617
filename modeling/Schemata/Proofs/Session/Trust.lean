import Schemata.Proofs.Session.Validity

/-!
# What trust in constructed values is worth

The check does not look into values made by construction. `Store.checkFully` does. The two agree
while no step writes to anything inside of such a value (`Session.Spares`): its contents were
checked when it was made, and are what they were (`Session.Intact`).

A value that is not made by construction can become part of one that is, and be written to
afterwards. The check then goes on to accept the whole, where `Store.checkFully` does not
(`Session.exists_check_ne_checkFully`). What the check accepts still is right up to the
values at which it stops (`Session.checkFully_eq_ok_iff_check`).
-/

namespace Schemata

namespace Session

variable {σ σ' : Session} {s' : Store}

/-- The values made by construction conform, with all contents. -/
def Intact (s : Store) : Prop :=
  ∀ r t c fields, s.get? r = some (.value t c fields) →
    s.ConformsFully (.declared t.key) (.object r)

/-- Nothing inside of a value made by construction is changed on the way from `σ` to `σ'`. -/
def Spares (σ σ' : Session) : Prop :=
  ∀ r, Check.isBuilt σ.store r = true → σ.store.SameBelow σ'.store (.object r)

/-- What steps lead to that change nothing inside of values made by construction. -/
def ReachableSparing (σ : Session) : Prop :=
  Relation.ReflTransGen (fun σ σ' => Step σ σ' ∧ Spares σ σ') initial σ

theorem ReachableSparing.reachable (h : σ.ReachableSparing) : σ.Reachable :=
  Relation.ReflTransGen.mono (fun _ _ hstep => hstep.1) _ _ h

/-- A call that only adds nodes changes nothing inside of any value. -/
theorem ReachableSparing.grow (h : σ.ReachableSparing) (hs : σ.Call s')
    (hgrows : σ.store.Extends s') : ReachableSparing { σ with store := s' } := by
  refine h.tail ⟨.call hs, fun r hr => ?_⟩
  refine hgrows.sameBelow h.reachable.sound.holds_of_mentions ?_
  rintro _ ⟨⟩
  obtain ⟨t, c, fields, hb⟩ := Check.isBuilt_eq_true.mp hr
  exact Store.lt_size_of_get? hb

namespace Intact

variable {s : Store}

/-- What the check trusts conforms, whatever it is taken for. -/
theorem conformsFully (h : Intact s) {r : Ref} {v : ValueView} {t : TypeDef}
    {declared : List Field} (hr : Check.isBuilt s r = true) (hv : s.view? (.object r) = some v)
    (ht : v.IsOf t declared) : s.ConformsFully (.declared t.key) (.object r) := by
  obtain ⟨t', c, fields, hb⟩ := Check.isBuilt_eq_true.mp hr
  exact (h r t' c fields hb).of_type_eq hv ht.type_eq

/-- The check and the one that trusts nothing agree where constructed values are intact. -/
theorem check_eq_checkFully (h : Intact s) (type : TypeRef) (d : Datum) :
    s.check type d = s.checkFully type d := by
  rw [Store.check_eq_elementTrusting s.size (Nat.le_refl _)]
  exact Check.elementTrusting_eq_of_conformsFully (fun r v t declared => h.conformsFully)
    (.start s) (by simp)

theorem of_conforms (h : Intact s) {type : TypeRef} {d : Datum}
    (hd : s.Conforms (Check.isBuilt s) type d) : s.ConformsFully type d := by
  refine (Store.conformsFully_iff (Check.isBuilt s)).mpr ⟨hd, fun r _ hr => ?_⟩
  obtain ⟨t, c, fields, hb⟩ := Check.isBuilt_eq_true.mp hr
  exact ⟨_, h r t c fields hb⟩

/-- A store in which nothing inside of a constructed value was changed is intact if its new values
conform. -/
theorem of_sameBelow (h : Intact s)
    (hspares : ∀ r, Check.isBuilt s r = true → s.SameBelow s' (.object r))
    (hnew : ∀ r t c fields, s'.get? r = some (.value t c fields) →
      s.get? r = some (.value t c fields) ∨
        s'.ConformsFully (.declared t.key) (.object r)) : Intact s' := by
  intro r t c fields hb
  rcases hnew r t c fields hb with hold | hfull
  · have hbuilt := Check.isBuilt_eq_true.mpr ⟨t, c, fields, hold⟩
    exact (h r t c fields hold).sameBelow (hspares r hbuilt)
  · exact hfull

end Intact

/-! ## Construction makes intact values -/

/-- The elements of a content that was checked, and so those of its final form, conform. -/
theorem conformsFully_of_fills (h : σ.Sound) (hintact : Intact σ.store) {data : List Datum}
    (hgrows : σ.store.Extends s') (hdata : ∀ d ∈ data, σ.store.Holds d) {f : Field} {d d' : Datum}
    (hfills : Construct.Fills σ.store data f d) (hsettles : Construct.Settles σ.store s' f d d') :
    ∃ ds, s'.elements? f d' = some ds ∧ ∀ e ∈ ds, s'.ConformsFully f.type e := by
  have hd : σ.store.Holds d := hfills.holds hdata
  refine ⟨_, hsettles.elements?_eq hgrows hd, ?_⟩
  rcases hfills with ⟨-, place, hcheck⟩ | ⟨rfl, hm⟩
  · obtain ⟨ds, hds, hall⟩ := Store.checkField_eq_ok_iff.mp hcheck
    rw [hds, Option.getD_some]
    intro e he
    have hfull := hintact.of_conforms (hall e he)
    have hheld : σ.store.Holds e :=
      Store.holds_of_reaches h.holds_of_mentions hd (Store.reaches_of_elements? hds he)
    exact hfull.sameBelow (hgrows.sameBelow h.holds_of_mentions hheld)
  · have hnone : (σ.store.elements? f .absent).getD [] = [] := by
      unfold Store.elements?
      cases hmult : f.multiplicity with
      | single => exact absurd hmult hm
      | optional => rfl
      | repeated => rfl
    rw [hnone]
    simp

/-- A new value conforms, with all contents. -/
theorem conformsFully_of_made (h : σ.Sound) (hintact : Intact σ.store) {data : List Datum}
    {r : Ref} {b : Built} (htype : b.type ∈ σ.types) (hdata : ∀ d ∈ data, σ.store.Holds d)
    (hmade : σ.store.Made s' data r b) :
    s'.ConformsFully (.declared b.type.key) (.object r) := by
  have hv : s'.view? (.object r) = some b.view := hmade.built.view?
  have hisOf := hmade.alternative.isOf b.fields
  have hnumbered := hisOf.numbered (h.numbered htype)
  have hlength := hmade.contents.length_eq
  have helements : ∀ f ∈ Construct.declared b.type b.constructor,
      ∃ ds, s'.elements? f (contentAt b.fields f.index) = some ds ∧
        ∀ e ∈ ds, s'.ConformsFully f.type e := by
    intro f hf
    obtain ⟨d, hfills, hsettles⟩ := hnumbered.contentAt_of_forall₂ hmade.contents hf
    exact conformsFully_of_fills h hintact hmade.grows hdata hfills hsettles
  refine .entered hv hisOf ?_ (fun f hf => ?_) fun f hf ds hds e he => ?_
  · rw [Built.view_fields, hlength]
  · obtain ⟨ds, hds, -⟩ := helements f hf
    rw [Built.view_fields, hds]
    rfl
  · obtain ⟨ds', hds', hall⟩ := helements f hf
    rw [Built.view_fields] at hds
    obtain rfl := Option.some.inj (hds.symm.trans hds')
    exact hall e he

/-! ## Steps that spare constructed values -/

theorem Intact.call (h : σ.Sound) (hintact : Intact σ.store) (hs : σ.Call s')
    (hspares : ∀ r, Check.isBuilt σ.store r = true → σ.store.SameBelow s' (.object r)) :
    Intact s' := by
  refine hintact.of_sameBelow hspares fun r t c fields hb => ?_
  cases hs with
  | list _ =>
    rcases Store.of_get?_add hb with hb | ⟨-, hb⟩
    · exact .inl hb
    · cases hb
  | record _ =>
    rcases Store.of_get?_add hb with hb | ⟨-, hb⟩
    · exact .inl hb
    · cases hb
  | construct hm hdata hs =>
    have hholds : ∀ d ∈ _, σ.store.Holds d := fun d hd => (hdata d hd).holds
    obtain ⟨b, ht, -, hmade⟩ := Store.of_construct_eq_ok hs hholds
    have htype := mem_types hm (Model.mem_of_getType_eq_ok ht)
    rcases hmade.nodes r _ hb with hb | ⟨rfl, _, hb⟩ | ⟨-, hb⟩ | hb | ⟨_, _, _, _, hb⟩
    · exact .inl hb
    · obtain ⟨rfl, -, -⟩ := Node.value.inj hb
      exact .inr (conformsFully_of_made h hintact htype hholds hmade)
    all_goals cases hb
  | push _ hs =>
    obtain ⟨r', hs⟩ := Store.writes_of_push hs
    exact .inl (hs.of_sealed hb (by simp))
  | setField _ hs =>
    obtain ⟨r', hs⟩ := Store.writes_of_setField hs
    exact .inl (hs.of_sealed hb (by simp))
  | setFieldCount hs =>
    obtain ⟨r', hs⟩ := Store.writes_of_setFieldCount hs
    exact .inl (hs.of_sealed hb (by simp))

theorem Intact.step (h : σ.Sound) (hintact : Intact σ.store) (hstep : Step σ σ')
    (hspares : Spares σ σ') : Intact σ'.store := by
  cases hstep with
  | load _ _ => exact hintact
  | join _ => exact hintact
  | call hs => exact hintact.call h hs hspares

theorem ReachableSparing.intact (h : σ.ReachableSparing) : Intact σ.store := by
  induction h with
  | refl => exact fun r t c fields hb => by cases hb
  | tail hreached hstep ih =>
    exact ih.step (ReachableSparing.reachable hreached).sound hstep.1 hstep.2

/-! ## The check with trust and without -/

/-- The check that trusts nothing accepts what the check accepts if it accepts all of the
constructed values at which the check stops. -/
theorem checkFully_eq_ok_iff_check (s : Store) (type : TypeRef) (d : Datum) :
    s.checkFully type d = .ok () ↔ s.check type d = .ok () ∧
      ∀ r t c fields, Relation.ReflTransGen (s.Nests (Check.isBuilt s)) d (.object r) →
        s.get? r = some (.value t c fields) →
        s.checkFully (.declared t.key) (.object r) = .ok () := by
  rw [Store.check_eq_ok_iff, Store.checkFully_eq_ok_iff, Store.conformsFully_iff (Check.isBuilt s)]
  refine and_congr_right fun _ => ⟨fun h r t c fields hway hb => ?_, fun h r hway hr => ?_⟩
  · obtain ⟨type', hr⟩ := h r hway (Check.isBuilt_eq_true.mpr ⟨t, c, fields, hb⟩)
    exact Store.checkFully_eq_ok_iff.mpr (hr.of_built hb)
  · obtain ⟨t, c, fields, hb⟩ := Check.isBuilt_eq_true.mp hr
    exact ⟨_, Store.checkFully_eq_ok_iff.mp (h r t c fields hway hb)⟩

/-- In a session that is reached without a change inside of a value made by construction, the check
and the one that trusts nothing give the same verdict; in any session, what is accepted differs by
nothing but the constructed values at which the check stops. -/
theorem check_eq_checkFully_of_spares (σ : Session) (type : TypeRef) (d : Datum) :
    (σ.ReachableSparing → σ.store.check type d = σ.store.checkFully type d) ∧
    (σ.store.checkFully type d = .ok () ↔ σ.store.check type d = .ok () ∧
      ∀ r t c fields, Relation.ReflTransGen (σ.store.Nests (Check.isBuilt σ.store)) d (.object r) →
        σ.store.get? r = some (.value t c fields) →
        σ.store.checkFully (.declared t.key) (.object r) = .ok ()) :=
  ⟨fun h => h.intact.check_eq_checkFully type d, checkFully_eq_ok_iff_check σ.store type d⟩

/-- A node is constructed, and then one that is no part of it is written to. -/
theorem check_eq_checkFully_of_spares_node : ∃ σ : Session, σ.ReachableSparing ∧
    σ.store.get? ⟨0⟩ = some (.list false [some (.text "x"), some .null]) ∧
    σ.store.check (.declared Sample.node.key) (.object ⟨3⟩) = .ok () ∧
    σ.store.checkFully (.declared Sample.node.key) (.object ⟨3⟩) = .ok () := by
  let one : Datum := .number (.ofNat 1)
  let numbers : Node := .list false [some one, some .null]
  let other : Node := .record (Sample.properties ⟨0⟩)
  let contents : Node := .list true [some one, some .absent]
  let made : Node := .value Sample.node none ⟨2⟩
  let s₁ : Store := ⟨#[numbers]⟩
  let s₂ : Store := ⟨#[numbers, other]⟩
  let s₃ : Store := ⟨#[numbers, other, contents, made]⟩
  let s₄ : Store := ⟨#[.list false [some (.text "x"), some .null], other, contents, made]⟩
  have h₀ : ReachableSparing ⟨.empty, 1, [Sample.model]⟩ :=
    .single ⟨Sample.step_load, fun _ _ _ _ => rfl⟩
  have h₁ : ReachableSparing ⟨s₁, 1, [Sample.model]⟩ :=
    h₀.grow (.list (by decide)) (.add _ _)
  have h₂ : ReachableSparing ⟨s₂, 1, [Sample.model]⟩ :=
    h₁.grow (.record (by decide)) (.add _ _)
  have hconstruct : s₂.construct Sample.model "node" none
      (.positional [one, .missing]) = .ok (⟨3⟩, s₃) := rfl
  have hgrows : s₂.Extends s₃ := (Store.Extends.add s₂ contents).trans (.add _ made)
  have h₃ : ReachableSparing ⟨s₃, 1, [Sample.model]⟩ :=
    h₂.grow (.construct List.mem_cons_self (by decide) hconstruct) hgrows
  have hset : s₃.setField (.object ⟨1⟩) 0 (.text "x") = some s₄ := rfl
  have hspares : Spares ⟨s₃, 1, [Sample.model]⟩ ⟨s₄, 1, [Sample.model]⟩ := by
    intro r hr
    obtain rfl : r = ⟨3⟩ := by
      match r with
      | ⟨0⟩ | ⟨1⟩ | ⟨2⟩ => cases hr
      | ⟨3⟩ => rfl
      | ⟨_ + 4⟩ => cases hr
    have hcontents : ∀ d ∈ contents.data, s₃.SameBelow s₄ d := by
      intro d hd r' hway
      obtain rfl | rfl : d = one ∨ d = .absent := by simpa [contents, Node.data] using hd
      all_goals exact absurd hway (Store.not_reaches_of_ne_object (by simp [one]) r')
    have hmade : ∀ d ∈ made.data, s₃.SameBelow s₄ d := by
      intro d hd
      obtain rfl | rfl | rfl : d = .typeDef Sample.node ∨ d = .missing ∨ d = .object ⟨2⟩ := by
        simpa [made, Node.data] using hd
      · exact fun r' hway => absurd hway (Store.not_reaches_of_ne_object (by simp) r')
      · exact fun r' hway => absurd hway (Store.not_reaches_of_ne_object (by simp) r')
      · exact .of_node rfl rfl hcontents
    exact .of_node rfl rfl hmade
  have h₄ : ReachableSparing ⟨s₄, 1, [Sample.model]⟩ :=
    h₃.tail ⟨.call (.setField (by decide) hset), hspares⟩
  have hcheck : s₄.check (.declared Sample.node.key) (.object ⟨3⟩) = .ok () := rfl
  obtain ⟨hequal, -⟩ :=
    check_eq_checkFully_of_spares ⟨s₄, 1, [Sample.model]⟩ (.declared Sample.node.key) (.object ⟨3⟩)
  exact ⟨_, h₄, rfl, hcheck, (hequal h₄).symm.trans hcheck⟩

/-- A node that is not made by construction becomes the next node of one that is, and its number is
replaced by a text: the check accepts the other node, and the check that trusts nothing does not. -/
theorem exists_check_ne_checkFully : ∃ σ : Session, σ.Reachable ∧
    σ.store.check (.declared Sample.node.key) (.object ⟨3⟩) = .ok () ∧
    σ.store.checkFully (.declared Sample.node.key) (.object ⟨3⟩) =
      .error ⟨.expected "int" "string", ⟨"node", [.field "next", .field "v"]⟩⟩ := by
  let one : Datum := .number (.ofNat 1)
  let two : Datum := .number (.ofNat 2)
  let numbers : Node := .list false [some one, some .null]
  let inner : Node := .record (Sample.properties ⟨0⟩)
  let contents : Node := .list true [some two, some (.object ⟨1⟩)]
  let outer : Node := .value Sample.node none ⟨2⟩
  have h₁ : Reachable ⟨⟨#[numbers]⟩, 1, [Sample.model]⟩ :=
    Sample.reachable.call (.list (by decide))
  let s₂ : Store := ⟨#[numbers, inner]⟩
  have h₂ : Reachable ⟨s₂, 1, [Sample.model]⟩ := h₁.call (.record (by decide))
  let s₃ : Store := ⟨#[numbers, inner, contents, outer]⟩
  have hconstruct : s₂.construct Sample.model "node" none
      (.positional [two, .object ⟨1⟩]) = .ok (⟨3⟩, s₃) := rfl
  have h₃ : Reachable ⟨s₃, 1, [Sample.model]⟩ :=
    h₂.call (.construct List.mem_cons_self (by decide) hconstruct)
  let s₄ : Store := ⟨#[.list false [some (.text "x"), some .null], inner, contents, outer]⟩
  have hwrite : s₃.setField (.object ⟨1⟩) 0 (.text "x") = some s₄ := rfl
  have h₄ : Reachable ⟨s₄, 1, [Sample.model]⟩ := h₃.call (.setField (by decide) hwrite)
  exact ⟨_, h₄, rfl, rfl⟩

end Session

end Schemata
