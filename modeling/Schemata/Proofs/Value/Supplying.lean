import Schemata.Proofs.Value.Construction

/-!
# Contents by name and in order

Inputs by name do the same as a list with a content for each declared field, in which the absent
marker or an empty list stands for each field that is left out (`Construct.supplied`). The two are
read differently: by name, nothing is checked of a field that is left out, and a repeated one is not
given a list until its content is stored. So they are compared behind the storing
(`Construct.settleAll_named_eq`).

Inputs by name are read field by field, so it makes no difference in which order they are given,
except for the list of the names that are not declared (`Store.construct_named`).
-/

namespace Schemata

/-- What stands for a field in a list of contents that does the same as inputs by name: the content
given, or where there is none the list `empty`, or the absent marker. -/
def Construct.supplied (r : Record Datum) (empty : Datum) (f : Field) : Datum :=
  match r.get? f.name, f.multiplicity with
  | some d, _ => d
  | none, .repeated => empty
  | none, _ => .absent

/-- The field is given, or may be left out; if it is repeated, then `empty` is an empty list. -/
structure Construct.CanSupply (s : Store) (r : Record Datum) (empty : Datum) (f : Field) : Prop where
  single : f.multiplicity = .single → f.name ∈ r.keys
  repeated : f.multiplicity = .repeated → f.name ∉ r.keys → s.list? empty = some []

namespace Construct

variable {s s' : Store} {label : String} {r r' : Record Datum} {empty : Datum} {f : Field}
  {fs declared : List Field}

theorem extends_settle (s : Store) (f : Field) (d : Datum) : s.Extends (settle s f d).2 := by
  unfold settle
  cases f.multiplicity with
  | single => exact .refl s
  | optional => exact .refl s
  | repeated => exact .add s _

theorem settleAll_cons (s : Store) (f : Field) (fs : List Field) (d : Datum) (ds : List Datum) :
    settleAll s (f :: fs) (d :: ds) =
      ((settle s f d).1 :: (settleAll (settle s f d).2 fs ds).1,
        (settleAll (settle s f d).2 fs ds).2) := rfl

/-- The content of a field by name is stored like the one that stands for it in a list, and is
refused where this one is. -/
theorem namedContent_map_settle (h : CanSupply s r empty f) (hs : s.Extends s') (label : String) :
    (namedContent s label r f).map (settle s' f) =
      (checked (s.checkField f (supplied r empty f) ((Path.ofRoot label).field f.name))).map
        fun _ => settle s' f (supplied r empty f) := by
  unfold namedContent supplied
  cases hget : r.get? f.name with
  | some d =>
    dsimp only
    cases checked (s.checkField f d ((Path.ofRoot label).field f.name)) <;> rfl
  | none =>
    have hkey := Record.get?_eq_none_iff.mp hget
    cases hm : f.multiplicity with
    | single => exact absurd (h.single hm) hkey
    | optional =>
      have hcheck : s.checkField f .absent ((Path.ofRoot label).field f.name) = .ok () := by
        rw [Store.checkField, Check.field, hm]
        rfl
      dsimp only
      rw [hcheck]
      rfl
    | repeated =>
      have hlist := h.repeated hm hkey
      have hcheck : s.checkField f empty ((Path.ofRoot label).field f.name) = .ok () := by
        rw [Store.checkField, Check.field, hm]
        simp only [hlist]
        rfl
      dsimp only
      rw [hcheck]
      -- what is stored for either of them is a list without items
      simp only [settle, hm, hs.list? hlist, Except.map, checked, Except.mapError]
      rfl

/-- Inputs by name are stored like the list of contents that stand for the fields. -/
theorem settleAll_named_eq (h : ∀ f ∈ fs, CanSupply s r empty f) (hs : s.Extends s')
    (label : String) :
    (fs.mapM (namedContent s label r)).map (settleAll s' fs) =
      (positional s label (fs.map (supplied r empty)) fs).map (settleAll s' fs) := by
  induction fs generalizing s' with
  | nil => rfl
  | cons f fs ih =>
    obtain ⟨hf, hfs⟩ := List.forall_mem_cons.mp h
    have hcontent := namedContent_map_settle hf hs label
    rw [List.mapM_cons, List.map_cons, positional, List.headD_cons, List.tail_cons]
    cases hcheck : checked (s.checkField f (supplied r empty f)
        ((Path.ofRoot label).field f.name)) with
    | error e =>
      rw [hcheck] at hcontent
      rw [Outcome.map_eq_error.mp hcontent]
      rfl
    | ok =>
      rw [hcheck] at hcontent
      obtain ⟨d, hd, hsettle⟩ := Outcome.map_eq_ok.mp hcontent
      replace hsettle : settle s' f d = settle s' f (supplied r empty f) := hsettle
      have hrest := ih hfs (hs.trans (extends_settle s' f d))
      rw [hd, Outcome.ok_bind, Outcome.ok_bind]
      cases hnamed : fs.mapM (namedContent s label r) with
      | error e =>
        rw [hnamed] at hrest
        rw [Outcome.map_eq_error.mp hrest.symm]
        rfl
      | ok ds =>
        rw [hnamed] at hrest
        obtain ⟨ds', hds', hsettles⟩ := Outcome.map_eq_ok.mp hrest.symm
        rw [hds']
        show Except.ok (settleAll s' (f :: fs) (d :: ds)) =
          Except.ok (settleAll s' (f :: fs) (supplied r empty f :: ds'))
        rw [settleAll_cons, settleAll_cons, ← hsettle, hsettles]

theorem contents_named_eq (hkeys : ∀ key ∈ r.keys, key ∈ declared.map Field.name) :
    contents s label declared (.named r) = declared.mapM (namedContent s label r) := by
  have hnone : r.keys.filter (· ∉ declared.map Field.name) = [] :=
    List.filter_eq_nil_iff.mpr fun key hkey => by simpa using hkeys key hkey
  rw [contents, hnone]

/-- Names that are not declared are listed. -/
theorem contents_named_eq_unknown {first : String} {others : List String}
    (h : r.keys.filter (· ∉ declared.map Field.name) = first :: others) :
    contents s label declared (.named r) = .error (.arity (.unknown label first others)) := by
  rw [contents, h]

theorem contents_named_ne_ok {ds : List Datum} (hf : f ∈ declared) (hm : f.multiplicity = .single)
    (hkey : f.name ∉ r.keys) : contents s label declared (.named r) ≠ .ok ds := by
  intro h
  rw [contents] at h
  split at h
  · cases h
  · obtain ⟨d, -, hd⟩ := Outcome.exists_of_mem_left (Outcome.mapM_eq_ok.mp h) hf
    unfold namedContent at hd
    rw [Record.get?_eq_none_iff.mpr hkey, hm] at hd
    cases hd

/-- What is read of inputs by name does not depend on where they stand. -/
theorem contents_named_of_perm (hr : r.keys.Nodup) (hperm : r.entries.Perm r'.entries)
    (s : Store) (label : String) (declared : List Field) :
    contents s label declared (.named r') = contents s label declared (.named r) ∨
      ∃ first others first' others', (first :: others).Perm (first' :: others') ∧
        contents s label declared (.named r) = .error (.arity (.unknown label first others)) ∧
        contents s label declared (.named r') =
          .error (.arity (.unknown label first' others')) := by
  have hunknown := (hperm.map Prod.fst).filter fun key => key ∉ declared.map Field.name
  cases hkeys : r.keys.filter (· ∉ declared.map Field.name) with
  | nil =>
    have hkeys' : r'.keys.filter (· ∉ declared.map Field.name) = [] :=
      List.perm_nil.mp (hkeys ▸ hunknown.symm)
    refine .inl ?_
    rw [contents, contents, hkeys, hkeys']
    refine Outcome.mapM_congr fun f _ => ?_
    rw [namedContent, namedContent, Record.get?_eq_of_perm hr hperm]
  | cons first others =>
    cases hkeys' : r'.keys.filter (· ∉ declared.map Field.name) with
    | nil => exact absurd (hkeys ▸ hkeys' ▸ hunknown : (first :: others).Perm []) (by simp)
    | cons first' others' =>
      exact .inr ⟨first, others, first', others', hkeys ▸ hkeys' ▸ hunknown,
        contents_named_eq_unknown hkeys, contents_named_eq_unknown hkeys'⟩

end Construct

namespace Store

variable {s : Store} {m : Model} {typeName : String} {name : Option String} {t : TypeDef}
  {c : Option Constructor}

/-- Construction with inputs by name. If all names are declared and every single field is given, the
outcome is that of the list of contents that stand for the fields. A name that is not declared is
reported, and without a single field there is no value. In whatever order inputs with different
names are given, the outcome is the same, unless names are reported that are not declared: then it
is the same up to the order of these. -/
theorem construct_named (s : Store) (ht : m.getType typeName = .ok t)
    (hc : Construct.constructor t name = .ok c) :
    (∀ r empty, (∀ key ∈ r.keys, key ∈ (Construct.declared t c).map Field.name) →
      (∀ f ∈ Construct.declared t c, Construct.CanSupply s r empty f) →
      s.construct m typeName name (.named r) = s.construct m typeName name
        (.positional ((Construct.declared t c).map (Construct.supplied r empty)))) ∧
    (∀ r : Record Datum, ∀ key ∈ r.keys, key ∉ (Construct.declared t c).map Field.name →
      ∃ first others,
        first :: others = r.keys.filter (· ∉ (Construct.declared t c).map Field.name) ∧
        s.construct m typeName name (.named r) =
          .error (.arity (.unknown (Construct.label t c) first others))) ∧
    (∀ r : Record Datum, ∀ f ∈ Construct.declared t c, f.multiplicity = .single →
      f.name ∉ r.keys → ∃ e, s.construct m typeName name (.named r) = .error e) ∧
    ∀ es es' : List (String × Datum), es.Perm es' → (es.map Prod.fst).Nodup →
      s.construct m typeName name (.named (.ofList es')) =
          s.construct m typeName name (.named (.ofList es)) ∨
        ∃ first others first' others', (first :: others).Perm (first' :: others') ∧
          s.construct m typeName name (.named (.ofList es)) =
            .error (.arity (.unknown (Construct.label t c) first others)) ∧
          s.construct m typeName name (.named (.ofList es')) =
            .error (.arity (.unknown (Construct.label t c) first' others')) := by
  simp only [construct_eq_map ht hc]
  refine ⟨fun r empty hkeys hsupply => ?_, fun r key hkey hnot => ?_,
    fun r f hf hm hkey => ?_, fun es es' hperm hnodup => ?_⟩
  · rw [Construct.contents_named_eq hkeys, Construct.settleAll_named_eq hsupply (.refl s),
      Construct.contents, if_neg (by simp)]
  · cases hfilter : r.keys.filter (· ∉ (Construct.declared t c).map Field.name) with
    | nil => exact absurd (by simpa using hnot) (List.filter_eq_nil_iff.mp hfilter key hkey)
    | cons first others =>
      refine ⟨first, others, rfl, ?_⟩
      rw [Construct.contents_named_eq_unknown hfilter]
      rfl
  · cases hcontents : Construct.contents s (Construct.label t c) (Construct.declared t c)
        (.named r) with
    | error e => exact ⟨e, rfl⟩
    | ok ds => exact absurd hcontents (Construct.contents_named_ne_ok hf hm hkey)
  · rcases Construct.contents_named_of_perm (Record.nodup_ofList es)
      (Record.ofList_perm hnodup hperm) s (Construct.label t c) (Construct.declared t c) with
      heq | ⟨first, others, first', others', hlists, herror, herror'⟩
    · exact .inl (by rw [heq])
    · exact .inr ⟨first, others, first', others', hlists, by rw [herror]; rfl,
        by rw [herror']; rfl⟩

/-- `entry = (string key, int? count, string* tags)` -/
def Sample.entry : TypeDef :=
  ⟨⟨0, "m", "entry"⟩, ⟨1, 12⟩, .product
    [⟨"key", 0, .primitive .string, .single, false, ⟨1, 21⟩⟩,
      ⟨"count", 1, .primitive .int, .optional, false, ⟨1, 33⟩⟩,
      ⟨"tags", 2, .primitive .string, .repeated, false, ⟨1, 45⟩⟩]⟩

def Sample.entryModel : Model := ⟨[⟨0, "m", [entry]⟩], defaultMaxDepth⟩

/-- A store with an empty list. -/
def Sample.listStore : Store := ⟨#[.list false []]⟩

/-- Fields that are left out, a name that is not declared, a single field that is missing, and two
orders. -/
theorem construct_named_entry :
    Sample.entryModel.getType "entry" = .ok Sample.entry ∧
      Construct.constructor Sample.entry none = .ok none ∧
      Sample.listStore.construct Sample.entryModel "entry" none (.named ⟨[("key", .text "a")]⟩) =
        Sample.listStore.construct Sample.entryModel "entry" none
          (.positional [.text "a", .absent, .object ⟨0⟩]) ∧
      (∃ first others, Sample.listStore.construct Sample.entryModel "entry" none
        (.named ⟨[("size", .null)]⟩) = .error (.arity (.unknown "entry" first others))) ∧
      (∃ e, Sample.listStore.construct Sample.entryModel "entry" none (.named ⟨[]⟩) = .error e) ∧
      Sample.listStore.construct Sample.entryModel "entry" none
          (.named (.ofList [("count", .null), ("key", .text "a")])) =
        Sample.listStore.construct Sample.entryModel "entry" none
          (.named (.ofList [("key", .text "a"), ("count", .null)])) := by
  have ht : Sample.entryModel.getType "entry" = .ok Sample.entry := rfl
  have hc : Construct.constructor Sample.entry none = .ok none := rfl
  obtain ⟨hsupplied, hunknown, hmissing, horder⟩ := construct_named Sample.listStore ht hc
  refine ⟨ht, hc, hsupplied ⟨[("key", .text "a")]⟩ (.object ⟨0⟩) (by decide) ?_, ?_, ?_, ?_⟩
  · refine List.forall_mem_cons.mpr ⟨?_, List.forall_mem_cons.mpr ⟨?_,
      List.forall_mem_singleton.mpr ?_⟩⟩
    · exact ⟨fun _ => List.mem_cons_self, nofun⟩
    · exact ⟨nofun, nofun⟩
    · exact ⟨nofun, fun _ _ => rfl⟩
  · obtain ⟨first, others, -, h⟩ :=
      hunknown ⟨[("size", .null)]⟩ "size" List.mem_cons_self (by decide)
    exact ⟨first, others, h⟩
  · exact hmissing ⟨[]⟩ _ List.mem_cons_self rfl (by decide)
  · rcases horder [("key", .text "a"), ("count", .null)] [("count", .null), ("key", .text "a")]
      (.swap _ _ []) (by decide) with h | ⟨_, _, _, _, -, h, -⟩
    · exact h
    · cases h

end Store

end Schemata
