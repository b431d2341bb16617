import Schemata.Proofs.Session.Validity
import Schemata.Proofs.Value.Evolution

/-!
# Sealed values in sessions

In every session that can be reached, a value made by construction has its contents in a frozen
list, they have the types of its fields and the final form of contents, and sealed nodes refer only
to older nodes (`Store.Sealed`). Elements of lists and fields can be values that are not made by
construction; where none of them is (`Store.Constructed`), there is nothing else than sealed nodes,
each older than what refers to it. Induction on age then is induction on elements
(`Store.Sealed.element_induct`): such a datum is settled (`Store.Sealed.settled`), has no way back
to itself (`Store.Sealed.not_reaches_self`), and conforms with all contents
(`Session.Sound.conformsFully`).
-/

namespace Schemata

/-- A number that is greater for a node than for all older nodes, and least for what is no node. -/
def Datum.rank : Datum → Nat
  | object r => r.index + 1
  | _ => 0

theorem Datum.rank_le {d : Datum} {n : Nat} (h : ∀ r, d = .object r → r.index < n) :
    d.rank ≤ n := by
  cases d with
  | object r => exact h r rfl
  | _ => exact Nat.zero_le n

/-- A constructed value holds the list of its contents, and definitions. -/
theorem Node.of_mem_value {t : TypeDef} {c : Option Constructor} {fields : Ref} {d : Datum}
    (h : d ∈ (Node.value t c fields).data) : d = .object fields ∨ ∀ r, d ≠ .object r := by
  simp only [Node.data, List.mem_cons, List.not_mem_nil, or_false] at h
  rcases h with rfl | rfl | rfl
  · exact .inr fun r hr => by cases hr
  · cases c <;> exact .inr fun r hr => by cases hr
  · exact .inl rfl

/-- Whether a node is a plain object. -/
def Node.isRecord : Node → Bool
  | record _ => true
  | _ => false

/-- All values in the datum, at any depth, are made by construction. -/
def Store.Constructed (s : Store) (d : Datum) : Prop :=
  ∀ r, s.Reaches d (.object r) → s.isValue (.object r) = true → Check.isBuilt s r = true

/-- At `r` is a value made by construction; its contents stand in a frozen list and have their final
form. -/
structure Store.HasSealed (s : Store) (r : Ref) (b : Built) : Prop where
  built : s.HasBuilt r b
  alternative : b.type.Alternative b.constructor
  contents : List.Forall₂ (s.Fits s.HasType) (Construct.declared b.type b.constructor) b.fields

/-- Constructed values have contents in their final form, and sealed nodes refer to older ones. -/
structure Store.Sealed (s : Store) : Prop where
  values : ∀ r, Check.isBuilt s r = true → ∃ b, s.HasSealed r b
  older : ∀ r n, s.get? r = some n → n.isSealed = true → ∀ d ∈ n.data, d.rank ≤ r.index

/-! ## Construction seals values -/

namespace Construct

variable {s s' : Store} {data : List Datum} {f : Field} {d d' : Datum}

theorem Fills.hasType (h : Fills s data f d) {ds : List Datum} (hds : s.elements? f d = some ds) :
    ∀ e ∈ ds, s.HasType f.type e := by
  rcases h with ⟨-, place, hcheck⟩ | ⟨rfl, hm⟩
  · obtain ⟨ds', hds', hall⟩ := Store.checkField_eq_ok_iff.mp hcheck
    obtain rfl := Option.some.inj (hds.symm.trans hds')
    exact fun e he => Store.hasType_of_conforms (hall e he)
  · unfold Store.elements? at hds
    cases hmult : f.multiplicity <;> simp only [hmult] at hds
    case single => exact absurd hmult hm
    case optional =>
      obtain rfl := Option.some.inj hds
      simp [Store.isEmpty, Store.isAbsent, Store.kindName?]
    case repeated => cases hds

/-- The final form of a content has the type of the field. -/
theorem Fills.fits (h : Fills s data f d) (hs : s.Extends s') (hsettles : Settles s s' f d d') :
    s'.Fits s'.HasType f d' := by
  have helements {ds : List Datum} (hds : s.elements? f d = some ds) (e : Datum) (he : e ∈ ds) :
      s'.HasType f.type e := hs.evolves.hasType (h.hasType hds e he)
  unfold Settles at hsettles
  unfold Store.Fits
  unfold Store.elements? at helements
  cases hm : f.multiplicity <;> simp only [hm] at hsettles helements ⊢
  case single =>
    rw [hsettles]
    exact helements rfl d List.mem_cons_self
  case optional =>
    rw [hsettles]
    split_ifs at helements ⊢ with hempty
    · exact .inl rfl
    · exact .inr (helements rfl d List.mem_cons_self)
  case repeated =>
    obtain ⟨r, rfl, hr⟩ := hsettles
    refine ⟨r, _, rfl, hr, ?_⟩
    cases hlist : s.list? d with
    | none => simp
    | some items => exact fun e he => helements (by rw [hlist]; rfl) e (mem_present.mpr he)

end Construct

/-- A new value is the last node of its store. -/
theorem Store.size_of_construct_eq_ok {s s' : Store} {m : Model} {typeName : String}
    {constructorName : Option String} {inputs : Inputs} {r : Ref}
    (h : s.construct m typeName constructorName inputs = .ok (r, s')) : s'.size = r.index + 1 := by
  obtain ⟨t, c, contents, -, -, -, h⟩ := exists_of_construct_eq_ok h
  obtain ⟨rfl, rfl⟩ := Prod.mk.inj h
  exact Store.size_add _ _

namespace Store.Sealed

variable {s s' : Store} {data : List Datum} {r : Ref} {b : Built}

theorem alternative (h : s.Sealed) (hb : s.HasBuilt r b) :
    b.type.Alternative b.constructor := by
  obtain ⟨b', hb'⟩ := h.values r (Check.isBuilt_of_hasBuilt hb)
  exact hb.unique hb'.built ▸ hb'.alternative

theorem contents (h : s.Sealed) (hb : s.HasBuilt r b) :
    List.Forall₂ (s.Fits s.HasType) (Construct.declared b.type b.constructor) b.fields := by
  obtain ⟨b', hb'⟩ := h.values r (Check.isBuilt_of_hasBuilt hb)
  exact hb.unique hb'.built ▸ hb'.contents

/-- A later store is sealed if its new sealed nodes are in order. -/
theorem of_evolves (h : s.Sealed) (hs : s.Evolves s')
    (hnew : ∀ r n, s'.get? r = some n → n.isSealed = true → s.get? r = some n ∨
      (∀ t c fields, n = .value t c fields → ∃ b, s'.HasSealed r b) ∧
      ∀ d ∈ n.data, d.rank ≤ r.index) : s'.Sealed where
  values r hr := by
    obtain ⟨t, c, fields, hr⟩ := Check.isBuilt_eq_true.mp hr
    rcases hnew r _ hr rfl with hold | ⟨hvalue, -⟩
    · obtain ⟨b, hb⟩ := h.values r (Check.isBuilt_eq_true.mpr ⟨t, c, fields, hold⟩)
      exact ⟨b, hs.hasBuilt hb.built, hb.alternative,
        hb.contents.imp fun _ _ hfits => hfits.mono hs fun _ => hs.hasType⟩
    · exact hvalue t c fields rfl
  older r n hn hsealed := by
    rcases hnew r n hn hsealed with hold | ⟨-, holder⟩
    · exact h.older r n hold hsealed
    · exact holder

/-- A store with a new value is sealed. -/
theorem made (h : s.Sealed) (hs : ∀ x y, s.Mentions x y → s.Holds y)
    (hmade : s.Made s' data r b) (hlast : s'.size = r.index + 1) : s'.Sealed := by
  have hnew : s'.HasSealed r b := ⟨hmade.built, hmade.alternative,
    hmade.contents.imp fun f d' ⟨d, hfills, hsettles⟩ => hfills.fits hmade.grows hsettles⟩
  refine h.of_evolves hmade.grows.evolves fun r' n hn hsealed => ?_
  rcases hmade.nodes r' n hn with
    hn | ⟨rfl, fields, rfl⟩ | ⟨hr', rfl⟩ | rfl | ⟨d, -, items, hitems, rfl⟩
  · exact .inl hn
  · refine .inr ⟨fun _ _ _ _ => ⟨b, hnew⟩, fun d hd => Datum.rank_le fun l hl => ?_⟩
    subst hl
    obtain rfl := Datum.object.inj ((Node.of_mem_value hd).resolve_right fun h => h l rfl)
    obtain ⟨fields, hvalue, hlist⟩ := hmade.built
    obtain ⟨-, -, rfl⟩ := Node.value.inj (Option.some.inj (hn.symm.trans hvalue))
    -- the list of the contents stands before the value, as this is the last node
    have hlt := lt_size_of_get? hlist
    have hne : l.index ≠ r'.index := by
      intro heq
      obtain rfl : l = r' := congrArg Ref.mk heq
      rw [hvalue] at hlist
      cases hlist
    omega
  · refine .inr ⟨fun _ _ _ hvalue => by (cases hvalue), fun d hd => Datum.rank_le fun l hl => ?_⟩
    subst hl
    have holder := hmade.older l (present_map_some b.fields ▸ hd)
    omega
  · exact .inr ⟨fun _ _ _ hvalue => by (cases hvalue), fun d hd => by (cases hd)⟩
  · by_cases hlt : r'.index < s.size
    · exact .inl ((hmade.grows.get?_eq r' hlt).symm.trans hn)
    · refine .inr ⟨fun _ _ _ hvalue => by (cases hvalue), fun e he => Datum.rank_le fun l hl => ?_⟩
      have hheld := hs _ _ (mentions_of_list? hitems (mem_present.mp he)) l hl
      omega

end Store.Sealed

namespace Session

variable {σ σ' : Session} {s' : Store} {d : Datum}

theorem evolves_of_call (hs : σ.Call s') : σ.store.Evolves s' := by
  cases hs with
  | list _ => exact (Store.Extends.add _ _).evolves
  | record _ => exact (Store.Extends.add _ _).evolves
  | construct _ hdata hs =>
    obtain ⟨b, -, -, hmade⟩ := Store.of_construct_eq_ok hs fun d hd => (hdata d hd).holds
    exact hmade.grows.evolves
  | push _ hs =>
    obtain ⟨r, hs⟩ := Store.writes_of_push hs
    exact hs.evolves
  | setField _ hs =>
    obtain ⟨r, hs⟩ := Store.writes_of_setField hs
    exact hs.evolves
  | setFieldCount hs =>
    obtain ⟨r, hs⟩ := Store.writes_of_setFieldCount hs
    exact hs.evolves

theorem evolves_of_steps (h : σ.Sound) (hsteps : Relation.ReflTransGen Step σ σ') :
    σ'.Sound ∧ σ.store.Evolves σ'.store := by
  induction hsteps with
  | refl => exact ⟨h, .refl _⟩
  | tail _ hstep ih =>
    obtain ⟨hsound, hevolves⟩ := ih
    refine ⟨hsound.step hstep, hevolves.trans ?_⟩
    cases hstep with
    | load _ _ => exact .refl _
    | join _ => exact .refl _
    | call hs => exact evolves_of_call hs

/-- Writing to a list adds no sealed node. -/
theorem sealed_of_writes {r : Ref} (hsealed : σ.store.Sealed) (hs : σ.store.Writes s' r d) :
    s'.Sealed := by
  refine hsealed.of_evolves hs.evolves fun r' n hn hfrozen => .inl (hs.of_sealed hn ?_)
  rintro items rfl
  cases hfrozen

/-- Calls other than construction add no sealed node. -/
theorem Sound.sealed_call (h : σ.Sound) (hsealed : σ.store.Sealed) (hs : σ.Call s') :
    s'.Sealed := by
  have hevolves := evolves_of_call hs
  cases hs with
  | list _ =>
    refine hsealed.of_evolves hevolves fun r n hn hfrozen => ?_
    rcases Store.of_get?_add hn with hn | ⟨-, rfl⟩
    · exact .inl hn
    · cases hfrozen
  | record _ =>
    refine hsealed.of_evolves hevolves fun r n hn hfrozen => ?_
    rcases Store.of_get?_add hn with hn | ⟨-, rfl⟩
    · exact .inl hn
    · cases hfrozen
  | construct _ hdata hs =>
    have hholds : ∀ d ∈ _, σ.store.Holds d := fun d hd => (hdata d hd).holds
    obtain ⟨b, -, -, hmade⟩ := Store.of_construct_eq_ok hs hholds
    exact hsealed.made h.holds_of_mentions hmade (Store.size_of_construct_eq_ok hs)
  | push _ hs =>
    obtain ⟨r, hs⟩ := Store.writes_of_push hs
    exact sealed_of_writes hsealed hs
  | setField _ hs =>
    obtain ⟨r, hs⟩ := Store.writes_of_setField hs
    exact sealed_of_writes hsealed hs
  | setFieldCount hs =>
    obtain ⟨r, hs⟩ := Store.writes_of_setFieldCount hs
    exact sealed_of_writes hsealed hs

theorem Reachable.sealed (h : σ.Reachable) : σ.store.Sealed := by
  induction h with
  | refl => exact ⟨fun r hr => by (cases hr), fun r n hn => by (cases hn)⟩
  | tail hreached hstep ih =>
    cases hstep with
    | load _ _ => exact ih
    | join _ => exact ih
    | call hs => exact (Reachable.sound hreached).sealed_call ih hs

end Session

/-! ## Induction on elements -/

namespace Store

variable {s : Store} {type : TypeRef} {d x y : Datum} {r : Ref} {f : Field}

theorem Constructed.of_reaches (h : s.Constructed x) (hxy : s.Reaches x y) : s.Constructed y :=
  fun r hr => h r (hxy.trans hr)

theorem Constructed.sameBelow {s' : Store} (h : s.Constructed d) (hs : s.SameBelow s' d) :
    s'.Constructed d := by
  intro r hr hvalue
  have hway := hs.reaches hr
  rw [isValue, (hs.of_reaches hway).view?_eq] at hvalue
  have hbuilt := h r hway hvalue
  rwa [Check.isBuilt, ← hs r hway] at hbuilt

theorem Constructed.of_ne_object (h : ∀ r, d ≠ .object r) : s.Constructed d :=
  fun r hr _ => absurd hr (not_reaches_of_ne_object h r)

/-- Where no node is a plain object, all values are made by construction. -/
theorem Constructed.of_all (h : ∀ n ∈ s.nodes.toList, n.isRecord = false) (d : Datum) :
    s.Constructed d := by
  intro r _ hvalue
  unfold isValue view? node? at hvalue
  unfold Check.isBuilt
  cases hr : s.get? r with
  | none => simp only [hr, Option.isSome_none, Bool.false_eq_true] at hvalue
  | some n =>
    cases n with
    | list frozen items => simp only [hr, Option.isSome_none, Bool.false_eq_true] at hvalue
    | record properties =>
      have hmem := Array.mem_toList_iff.mpr (Array.mem_of_getElem? hr)
      exact absurd (h _ hmem) (by simp [Node.isRecord])
    | value t c fields => rfl

theorem Constructed.of_get? {n : Node} (hr : s.get? r = some n)
    (hn : s.isValue (.object r) = true → Check.isBuilt s r = true)
    (hdata : ∀ d ∈ n.data, s.Constructed d) : s.Constructed (.object r) := by
  intro r' hr' hvalue
  rcases hr'.cases_head with heq | ⟨y, ⟨m, hm, hy⟩, hway⟩
  · obtain rfl := Datum.object.inj heq
    exact hn hvalue
  · obtain rfl := Option.some.inj (hr.symm.trans hm)
    exact hdata y hy r' hway hvalue

/-- A constructed value is made of constructed values if its contents are. -/
theorem Constructed.of_hasBuilt {b : Built} (hb : s.HasBuilt r b)
    (hcontents : ∀ d ∈ b.fields, s.Constructed d) : s.Constructed (.object r) := by
  have hr := Check.isBuilt_of_hasBuilt hb
  obtain ⟨fields, hvalue, hfields⟩ := hb
  have hlist : s.Constructed (.object fields) := by
    refine .of_get? hfields (fun hisValue => ?_) fun d hd =>
      hcontents d (present_map_some b.fields ▸ hd)
    rw [isValue, view?_eq_none_of_list? (list?_of_get? hfields)] at hisValue
    cases hisValue
  refine .of_get? hvalue (fun _ => hr) fun d hd => ?_
  rcases Node.of_mem_value hd with rfl | hd
  · exact hlist
  · exact .of_ne_object hd

/-- The elements of a content are in it. -/
theorem Fits.reaches {P : TypeRef → Datum → Prop} (h : s.Fits P f d) :
    s.Fits (fun type e => P type e ∧ s.Reaches d e) f d := by
  unfold Fits at h ⊢
  cases hm : f.multiplicity <;> simp only [hm] at h ⊢
  case single => exact ⟨h, .refl⟩
  case optional => exact h.imp_right fun h => ⟨h, .refl⟩
  case repeated =>
    obtain ⟨l, items, rfl, hl, hall⟩ := h
    exact ⟨l, items, rfl, hl, fun e he =>
      ⟨hall e he, .single ⟨_, hl, mem_present.mpr he⟩⟩⟩

/-- One gets from a value to the elements of its contents. -/
theorem fits_reaches {P : TypeRef → Datum → Prop} {b : Built} (hb : s.HasBuilt r b)
    {fs : List Field} (hall : List.Forall₂ (s.Fits P) fs b.fields) :
    List.Forall₂ (s.Fits fun type e => P type e ∧ s.Reaches (.object r) e) fs b.fields :=
  (Outcome.forall₂_and_mem hall).imp fun _ _ ⟨hfits, hc⟩ =>
    hfits.reaches.mono (.refl s) fun _ ⟨he, hway⟩ => ⟨he, (hb.reaches hc).trans hway⟩

/-- In the elements of a value in which all values are constructed all values are, too. -/
theorem Constructed.contents {P : TypeRef → Datum → Prop} {b : Built}
    (h : s.Constructed (.object r)) (hb : s.HasBuilt r b) {fs : List Field}
    (hall : List.Forall₂ (s.Fits P) fs b.fields) :
    List.Forall₂ (s.Fits fun type e => P type e ∧ s.Constructed e) fs b.fields :=
  (fits_reaches hb hall).imp fun _ _ hfits =>
    hfits.mono (.refl s) fun _ he => ⟨he.1, h.of_reaches he.2⟩

namespace Sealed

theorem hasType_of_hasBuilt (h : s.Sealed) {b : Built} (hb : s.HasBuilt r b) :
    s.HasType (.declared b.type.key) (.object r) :=
  .trusted hb.view? ((h.alternative hb).isOf b.fields) rfl

/-- An element of a declared type is a constructed value of it if all values in it are
constructed. -/
theorem exists_built (h : s.Sealed) {key : TypeKey} (hd : s.HasType (.declared key) d)
    (hmade : s.Constructed d) : ∃ r b, d = .object r ∧ s.HasBuilt r b ∧ b.type.key = key := by
  obtain ⟨v, t, declared, hv, ht, rfl⟩ := hd.view?_of_declared
  obtain ⟨r, rfl, -⟩ := eq_object_of_view? hv
  have hvalue : s.isValue (.object r) = true := by
    rw [isValue, hv]
    rfl
  obtain ⟨b, hb⟩ := h.values r (hmade r .refl hvalue)
  obtain rfl := Option.some.inj (hb.built.view?.symm.trans hv)
  have htype := ht.type_eq
  rw [Built.view_type] at htype
  exact ⟨r, b, rfl, hb.built, congrArg TypeDef.key (Datum.typeDef.inj htype)⟩

/-- The elements of a content are not newer than the content. -/
theorem fits_rank (h : s.Sealed) {P : TypeRef → Datum → Prop} (hd : s.Fits P f d) :
    s.Fits (fun type e => P type e ∧ e.rank ≤ d.rank) f d := by
  unfold Fits at hd ⊢
  cases hm : f.multiplicity <;> simp only [hm] at hd ⊢
  case single => exact ⟨hd, Nat.le_refl _⟩
  case optional => exact hd.imp_right fun hd => ⟨hd, Nat.le_refl _⟩
  case repeated =>
    obtain ⟨l, items, rfl, hl, hall⟩ := hd
    exact ⟨l, items, rfl, hl, fun e he => ⟨hall e he,
      Nat.le_succ_of_le (h.older l _ hl rfl e (mem_present.mpr he))⟩⟩

/-- The contents of a constructed value are older than the value. -/
theorem rank_le_of_mem_fields (h : s.Sealed) {b : Built} (hb : s.HasBuilt r b)
    (hd : d ∈ b.fields) : d.rank ≤ r.index := by
  obtain ⟨fields, hvalue, hfields⟩ := hb
  have hlist := h.older r _ hvalue rfl (.object fields) (by simp [Node.data])
  have hitem := h.older fields _ hfields rfl d (mem_present.mpr (by simpa using hd))
  exact Nat.le_trans hitem (Nat.le_of_succ_le hlist)

/-- The elements of the contents of a constructed value are older than the value. -/
theorem contents_rank (h : s.Sealed) {P : TypeRef → Datum → Prop} {b : Built}
    (hb : s.HasBuilt r b) {fs : List Field} (hall : List.Forall₂ (s.Fits P) fs b.fields) :
    List.Forall₂ (s.Fits fun type e => P type e ∧ e.rank ≤ r.index) fs b.fields := by
  refine (Outcome.forall₂_and_mem hall).imp fun f c ⟨hfits, hc⟩ => ?_
  have hcrank := h.rank_le_of_mem_fields hb hc
  exact (h.fits_rank hfits).mono (.refl s) fun e ⟨he, hrank⟩ => ⟨he, Nat.le_trans hrank hcrank⟩

/-- What holds of scalars, and of a value if it holds of all elements of its contents, holds of
every element in which all values are constructed. -/
theorem element_induct (h : s.Sealed) {P : TypeRef → Datum → Prop}
    (scalar : ∀ p d, p.accepts d = true → P (.primitive p) d)
    (value : ∀ r b, s.HasBuilt r b → s.Constructed (.object r) →
      List.Forall₂ (s.Fits fun type e => s.HasType type e ∧ P type e)
        (Construct.declared b.type b.constructor) b.fields →
      P (.declared b.type.key) (.object r))
    (hd : s.HasType type d) (hmade : s.Constructed d) : P type d := by
  induction hn : d.rank using Nat.strongRecOn generalizing type d with
  | ind n ih =>
    cases type with
    | primitive p =>
      cases hd with
      | primitive hp => exact scalar p d hp
    | declared key =>
      obtain ⟨r, b, rfl, hb, rfl⟩ := h.exists_built hd hmade
      refine value r b hb hmade ?_
      have hcontents := h.contents_rank hb (hmade.contents hb (h.contents hb))
      refine hcontents.imp fun f c hfits => hfits.mono (.refl s) fun e ⟨⟨he, hemade⟩, hrank⟩ => ?_
      exact ⟨he, ih e.rank (hn ▸ Nat.lt_succ_of_le hrank) he hemade rfl⟩

theorem settled_of_fits {P : TypeRef → Datum → Prop} (h : s.Fits P f d)
    (hP : ∀ e, P f.type e → s.Settled e) : s.Settled d := by
  unfold Fits at h
  cases hm : f.multiplicity <;> simp only [hm] at h
  case single => exact hP d h
  case optional =>
    rcases h with rfl | h
    · exact .of_ne_object fun r hr => by cases hr
    · exact hP d h
  case repeated =>
    obtain ⟨l, items, rfl, hl, hall⟩ := h
    exact .of_get? hl rfl fun e he => hP e (hall e (mem_present.mp he))

/-- Where all values are constructed there are only sealed nodes. -/
theorem settled (h : s.Sealed) (hd : s.HasType type d) (hmade : s.Constructed d) : s.Settled d := by
  refine h.element_induct (P := fun _ d => s.Settled d) (fun p d hp => ?_)
    (fun r b hb _ hcontents => ?_) hd hmade
  · exact .of_ne_object (ne_object_of_accepts hp)
  · refine .of_hasBuilt hb fun c hc => ?_
    obtain ⟨f, -, hfits⟩ := Outcome.exists_of_mem_right hcontents hc
    exact settled_of_fits hfits fun e he => he.2

/-- From sealed nodes one only gets to older nodes. -/
theorem rank_lt_of_mentions (h : s.Sealed) (hx : s.Settled x) (hxy : s.Mentions x y) :
    y.rank < x.rank := by
  obtain ⟨n, hn, hy⟩ := hxy
  cases x with
  | object r =>
    obtain ⟨n', hn', hsealed⟩ := hx r .refl
    obtain rfl := Option.some.inj (hn.symm.trans hn')
    exact Nat.lt_succ_of_le (h.older r n hn hsealed y hy)
  | _ => cases hn

theorem not_reaches_self (h : s.Sealed) (hx : s.Settled x) :
    ¬ Relation.TransGen s.Mentions x x := by
  have hlt : ∀ y, Relation.TransGen s.Mentions x y → s.Settled y ∧ y.rank < x.rank := by
    intro y hxy
    induction hxy with
    | single hxy => exact ⟨hx.of_reaches (.single hxy), h.rank_lt_of_mentions hx hxy⟩
    | tail _ hyz ih =>
      obtain ⟨hy, hrank⟩ := ih
      exact ⟨hy.of_reaches (.single hyz), Nat.lt_trans (h.rank_lt_of_mentions hy hyz) hrank⟩
  exact fun hcycle => Nat.lt_irrefl _ (hlt x hcycle).2

end Sealed

theorem Fits.exists_elements? {P : TypeRef → Datum → Prop} (h : s.Fits P f d) :
    ∃ ds, s.elements? f d = some ds ∧ ∀ e ∈ ds, P f.type e := by
  unfold Fits at h
  unfold elements?
  cases hm : f.multiplicity <;> simp only [hm] at h ⊢
  case single => exact ⟨_, rfl, by simpa using h⟩
  case optional =>
    refine ⟨_, rfl, fun e he => ?_⟩
    split_ifs at he with hempty
    · cases he
    · obtain rfl := List.mem_singleton.mp he
      rcases h with rfl | h
      · exact absurd rfl hempty
      · exact h
  case repeated =>
    obtain ⟨r, items, rfl, hr, hall⟩ := h
    exact ⟨present items, by rw [list?_of_get? hr]; rfl, fun e he => hall e (mem_present.mp he)⟩

end Store

namespace Session

variable {σ : Session} {type : TypeRef} {d : Datum}

/-- What is known of the fields of a constructed value and its contents place by place is known of
the content of each field. -/
theorem Sound.of_contents (h : σ.Sound) (hsealed : σ.store.Sealed) {r : Ref} {b : Built}
    (hb : σ.store.HasBuilt r b) {R : Field → Datum → Prop}
    (hall : List.Forall₂ R (Construct.declared b.type b.constructor) b.fields) {f : Field}
    (hf : f ∈ Construct.declared b.type b.constructor) : R f (contentAt b.fields f.index) := by
  have hmem := h.type_mem hb.view? (Built.view_type b)
  have hisOf := (hsealed.alternative hb).isOf b.fields
  exact (hisOf.numbered (h.numbered hmem)).contentAt_of_forall₂ hall hf

/-- Contents of values of one type and constructor are compared field by field. -/
theorem Sound.forall₂_contents_iff (h : σ.Sound) (hsealed : σ.store.Sealed) {r r' : Ref}
    {t : TypeDef} {c : Option Constructor} {contents contents' : List Datum}
    (hb : σ.store.HasBuilt r ⟨t, c, contents⟩) (hb' : σ.store.HasBuilt r' ⟨t, c, contents'⟩)
    {R : Datum → Datum → Prop} :
    List.Forall₂ R contents contents' ↔ ∀ f ∈ Construct.declared t c,
      R (contentAt contents f.index) (contentAt contents' f.index) := by
  have hmem := h.type_mem hb.view? (Built.view_type _)
  have hnumbered := ((hsealed.alternative hb).isOf contents).numbered (h.numbered hmem)
  have hcontents : (Construct.declared t c).map (fun f => contentAt contents f.index) = contents :=
    hnumbered.map_contentAt (hsealed.contents hb).length_eq.symm
  have hcontents' : (Construct.declared t c).map (fun f => contentAt contents' f.index) =
      contents' := hnumbered.map_contentAt (hsealed.contents hb').length_eq.symm
  conv_lhs => rw [← hcontents, ← hcontents']
  rw [List.forall₂_map_left_iff, List.forall₂_map_right_iff, List.forall₂_same]

/-- A datum in which all values are constructed conforms with all contents. -/
theorem Sound.conformsFully (h : σ.Sound) (hsealed : σ.store.Sealed)
    (hd : σ.store.HasType type d) (hmade : σ.store.Constructed d) :
    σ.store.ConformsFully type d := by
  refine hsealed.element_induct (fun p d hp => .primitive hp) (fun r b hb _ hcontents => ?_) hd hmade
  have hv : σ.store.view? (.object r) = some b.view := hb.view?
  have helements : ∀ f ∈ Construct.declared b.type b.constructor, ∃ ds,
      σ.store.elements? f (contentAt b.view.fields f.index) = some ds ∧
        ∀ e ∈ ds, σ.store.HasType f.type e ∧ σ.store.ConformsFully f.type e := by
    rw [Built.view_fields]
    exact fun f hf => (h.of_contents hsealed hb hcontents hf).exists_elements?
  refine .entered hv ((hsealed.alternative hb).isOf b.fields) ?_ (fun f hf => ?_)
    fun f hf ds hds e he => ?_
  · rw [Built.view_fields, hcontents.length_eq]
  · obtain ⟨ds, hds, -⟩ := helements f hf
    rw [hds]
    rfl
  · obtain ⟨ds', hds', hall⟩ := helements f hf
    obtain rfl := Option.some.inj (hds.symm.trans hds')
    exact (hall e he).2

end Session

end Schemata
