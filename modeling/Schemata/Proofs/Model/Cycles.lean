import Mathlib.Data.List.Chain
import Mathlib.Data.List.Perm.Subperm
import Schemata.Proofs.Model.Loads
import Schemata.Proofs.Syntax.Fields

/-!
# Reported cycles

A load that is refused with a cycle names types without finite values that embed each other in turn
(`Model.Reachable.reports_of_load_eq_cycle`): `TypeDef.Embeds` is the step from one to the next, and
`CycleError.Reports` says what the report tells of them.

A type that the rounds of `Representable` do not find has a first field that cannot be filled, and
the type of that field is not found either (`Representable.exists_blocker`). So the steps never
stop, and since there are only so many types one of them comes again (`Representable.follow_eq`).
References never lead to a later module (`Model.Sound.serial_le`), hence the types between a type
and its return are all of one module.
-/

namespace Schemata

/-- The fields that lead on from a type: those of a product, or of the first constructor of a
sum. -/
inductive TypeDef.Leads (t : TypeDef) : List Field → Prop
  | product {fields : List Field} : t.shape = .product fields → t.Leads fields
  | sum {c : Constructor} {cs : List Constructor} {attributes : List Field} :
    t.shape = .sum (c :: cs) attributes → t.Leads c.fields

/-- One of the fields that lead on from `t` is a single one of the type `t'`, and there are contents
for all fields before it. -/
def TypeDef.Embeds (types : List TypeDef) (t t' : TypeDef) : Prop :=
  ∃ before f after, t.Leads (before ++ f :: after) ∧ f.multiplicity = .single ∧
    f.type = .declared t'.key ∧ ∀ g ∈ before, g.HasContent types

/-- `e` reports that `first` embeds itself by way of `others`, all of which are types of the module
without values. -/
structure CycleError.Reports (e : CycleError) (types : List TypeDef) (M : Module) (first : TypeDef)
    (others : List TypeDef) : Prop where
  cycle : e.cycle = (first :: others).map TypeDef.name ++ [first.name]
  position : e.position = first.position
  names : ((first :: others).map TypeDef.name).Nodup
  declared : ∀ t ∈ first :: others, t ∈ M.types
  values : ∀ t ∈ first :: others, ¬(TypeRef.declared t.key).HasValue types
  chain : (first :: (others ++ [first])).IsChain (TypeDef.Embeds types)

theorem TypeDef.Leads.exists_alternative {t : TypeDef} {fields : List Field}
    (h : t.Leads fields) : ∃ c, t.Alternative c ∧ Construct.declared t c = fields := by
  cases h with
  | product hshape => exact ⟨none, .product hshape, by rw [Construct.declared, TypeDef.fields, hshape]⟩
  | sum hshape => exact ⟨some _, .sum hshape List.mem_cons_self, rfl⟩

theorem TypeDef.Embeds.mentions {types : List TypeDef} {t t' : TypeDef} (h : t.Embeds types t') :
    t.Mentions t'.key := by
  obtain ⟨before, f, after, hleads, -, htype, -⟩ := h
  obtain ⟨c, hc, hfields⟩ := hleads.exists_alternative
  refine TypeDef.RefersTo.mentions ⟨c, hc, f, ?_, htype⟩
  rw [hfields]
  exact List.mem_append_right _ List.mem_cons_self

theorem CycleError.Reports.two_le_length {e : CycleError} {types others : List TypeDef}
    {M : Module} {first : TypeDef} (h : e.Reports types M first others) : 2 ≤ e.cycle.length := by
  rw [h.cycle, List.length_append, List.length_map, List.length_cons, List.length_singleton]
  omega

namespace Representable

variable {types known : List TypeDef} {ok : List TypeKey} {t current : TypeDef}

/-! ## One step -/

/-- The blocker is the type of the first field that cannot be filled. -/
theorem blocker?_eq {fields : List Field} (h : t.Leads fields) {f : Field} {k : TypeKey}
    (hfind : fields.find? (fun f => !fieldOk (types.map TypeDef.key) ok f) = some f)
    (htype : f.type = .declared k) : blocker? types ok t = types.find? (·.key = k) := by
  obtain ⟨name, index, type, multiplicity, shared, position⟩ := f
  obtain rfl : type = .declared k := htype
  cases h with
  | product hshape => simp only [blocker?, hshape, hfind]
  | sum hshape =>
    simp only [blocker?, hshape, List.head?_cons, Option.map_some, Option.getD_some, hfind]

theorem fieldOk_eq_false_iff {fresh : List TypeKey} {f : Field} :
    fieldOk fresh ok f = false ↔
      f.multiplicity = .single ∧ ∃ k, f.type = .declared k ∧ k ∈ fresh ∧ k ∉ ok := by
  rw [← Bool.not_eq_true, fieldOk_iff]
  push Not
  rfl

/-- A type that the rounds do not find embeds another such type. -/
theorem exists_blocker
    (hknown : ∀ t ∈ known, (TypeRef.declared t.key).HasValue known)
    (hrefs : ∀ t ∈ types, ∀ c, t.Alternative c → ∀ f ∈ Construct.declared t c, ∀ k,
      f.type = .declared k → ∃ t' ∈ known ++ types, t'.key = k)
    (ht : t ∈ types) (hleads : ∃ fields, t.Leads fields) (hnot : t.key ∉ representable types) :
    ∃ t', blocker? types (representable types) t = some t' ∧
      (t' ∈ types ∧ t'.key ∉ representable types) ∧ t.Embeds (known ++ types) t' := by
  obtain ⟨fields, hfields⟩ := hleads
  obtain ⟨c, hc, hdeclared⟩ := hfields.exists_alternative
  cases hfind : fields.find? fun f => !fieldOk (types.map TypeDef.key) (representable types) f with
  | none =>
    -- all fields can be filled, so that a further round would find the type
    refine absurd ?_ hnot
    rw [← round_representable]
    refine mem_round.mpr ⟨t, ht, typeOk_iff.mpr ⟨c, hc, fun f hf => fieldOk_iff.mp ?_⟩, rfl⟩
    simpa using List.find?_eq_none.mp hfind f (hdeclared ▸ hf)
  | some f =>
    obtain ⟨hf, before, after, hsplit, hbefore⟩ := List.find?_eq_some_iff_append.mp hfind
    obtain ⟨hsingle, k, htype, hfresh, hk⟩ := fieldOk_eq_false_iff.mp (Bool.not_eq_true' _ ▸ hf)
    obtain ⟨u, hu, rfl⟩ := List.mem_map.mp hfresh
    obtain ⟨t', ht'⟩ := Option.isSome_iff_exists.mp
      (List.find?_isSome.mpr ⟨u, hu, decide_eq_true rfl⟩ :
        (types.find? (·.key = u.key)).isSome)
    have hkey : t'.key = u.key := by simpa using List.find?_some ht'
    refine ⟨t', (blocker?_eq hfields hfind htype).trans ht',
      ⟨List.mem_of_find?_eq_some ht', hkey ▸ hk⟩, before, f, after, hsplit ▸ hfields, hsingle,
      hkey ▸ htype, fun g hg => ?_⟩
    refine hasContent_of_fieldOk hknown hrefs
      (fun k hk => hasValue_of_mem_representable hknown hrefs hk) ht hc (f := g) ?_ ?_
    · rw [hdeclared, hsplit]
      exact List.mem_append_left _ hg
    · simpa using hbefore g hg

/-! ## All steps -/

theorem length_le_of_nodup {ts : List TypeDef} (hts : ts ⊆ types)
    (hnodup : (ts.map TypeDef.key).Nodup) : ts.length ≤ types.length := by
  simpa using (hnodup.subperm (List.map_subset TypeDef.key hts)).length_le

/-- A type that comes again cuts off what leads to it. -/
theorem follow_repeated {way others : List TypeDef} (hway : ∀ u ∈ way, u.key ≠ t.key) (n : Nat) :
    follow types ok (n + 1) (way ++ t :: others) t =
      ⟨(t :: others).map TypeDef.name ++ [t.name], t.position⟩ := by
  rw [follow, if_pos (by simp),
    List.dropWhile_append_of_pos fun u hu => decide_eq_true (hway u hu),
    List.dropWhile_cons_of_neg (by simp)]

/-- Where each type of `P` has a blocker in `P`, following blockers comes back to a type `first`
that it was at before, and the report is the same however many steps are granted beyond the number
of types. -/
theorem follow_eq {P : TypeDef → Prop} {R : TypeDef → TypeDef → Prop} {k : Nat}
    (path : List TypeDef)
    (hP : ∀ t, P t → t ∈ types) (hkeys : ∀ t, P t → ∀ t', P t' → t.key = t'.key → t = t')
    (hnext : ∀ t, P t → ∃ t', blocker? types ok t = some t' ∧ P t' ∧ R t t')
    (hcurrent : P current) (hpath : ∀ t ∈ path, P t) (hnodup : (path.map TypeDef.key).Nodup)
    (hchain : (path ++ [current]).IsChain R) (hk : types.length < k + path.length) :
    ∃ way first others rest,
      way ++ first :: (others ++ [first]) = path ++ current :: rest ∧
      (way ++ first :: (others ++ [first])).IsChain R ∧
      (∀ t ∈ first :: others, P t) ∧ ((first :: others).map TypeDef.key).Nodup ∧
      ∀ n, types.length < n + path.length → follow types ok n path current =
        ⟨(first :: others).map TypeDef.name ++ [first.name], first.position⟩ := by
  have hle := length_le_of_nodup (fun t ht => hP t (hpath t ht)) hnodup
  -- fewer than `k` types are not on the path yet
  induction k generalizing path current with
  | zero => omega
  | succ k ih =>
    by_cases hrepeats : current.key ∈ path.map TypeDef.key
    · obtain ⟨t, ht, hkey⟩ := List.mem_map.mp hrepeats
      obtain rfl := hkeys t (hpath t ht) current hcurrent hkey
      obtain ⟨way, others, rfl⟩ := List.append_of_mem ht
      rw [List.map_append, List.map_cons, List.nodup_append] at hnodup
      obtain ⟨-, hcycle, hapart⟩ := hnodup
      refine ⟨way, t, others, [], by simp, by simpa using hchain,
        (List.forall_mem_append.mp hpath).2, hcycle, fun n hn => ?_⟩
      obtain ⟨n, rfl⟩ : ∃ n', n = n' + 1 := ⟨n - 1, by omega⟩
      exact follow_repeated
        (fun u hu => hapart u.key (List.mem_map_of_mem hu) t.key List.mem_cons_self) n
    · obtain ⟨next, hblocker, hPnext, hR⟩ := hnext current hcurrent
      have hpath' : ∀ t ∈ path ++ [current], P t :=
        List.forall_mem_append.mpr ⟨hpath, List.forall_mem_singleton.mpr hcurrent⟩
      have hnodup' : ((path ++ [current]).map TypeDef.key).Nodup := by
        rw [List.map_append, List.map_singleton, List.nodup_append]
        refine ⟨hnodup, List.nodup_singleton _, fun a ha b hb hab => hrepeats ?_⟩
        rwa [← List.mem_singleton.mp hb, ← hab]
      have hchain' : (path ++ [current] ++ [next]).IsChain R := by
        rw [List.append_assoc, List.singleton_append, List.isChain_append_cons_cons]
        exact ⟨hchain, hR, .singleton _⟩
      have hlength : (path ++ [current]).length = path.length + 1 := by
        rw [List.length_append, List.length_singleton]
      obtain ⟨way, first, others, rest, heq, hall, hPs, hcycle, hfollow⟩ :=
        ih _ hPnext hpath' hnodup' hchain' (by omega)
          (length_le_of_nodup (fun t ht => hP t (hpath' t ht)) hnodup')
      refine ⟨way, first, others, next :: rest, by rw [heq, List.append_assoc, List.singleton_append],
        hall, hPs, hcycle, fun n hn => ?_⟩
      obtain ⟨n, rfl⟩ : ∃ n', n = n' + 1 := ⟨n - 1, by omega⟩
      rw [follow, if_neg hrepeats, hblocker]
      exact hfollow n (by omega)

/-- The check reports what following leads to from the first type that the rounds do not find. -/
theorem of_check_eq_error {e : CycleError} (h : check types = .error e) :
    ∃ before start after, types = before ++ start :: after ∧
      (∀ t ∈ before, t.key ∈ representable types) ∧ start.key ∉ representable types ∧
      follow types (representable types) (types.length + 1) [] start = e := by
  unfold check at h
  dsimp only at h
  cases hfind : types.find? (·.key ∉ representable types) with
  | none =>
    rw [hfind] at h
    cases h
  | some start =>
    rw [hfind] at h
    obtain ⟨hstart, before, after, hsplit, hbefore⟩ := List.find?_eq_some_iff_append.mp hfind
    exact ⟨before, start, after, hsplit, fun t ht => by simpa using hbefore t ht,
      by simpa using hstart, Except.error.inj h⟩

end Representable

namespace Resolve

variable {scopes : List Scope} {key : TypeKey} {decl : TypeDecl} {t t' : TypeDef}
  {base : List Module} {serial : Nat} {text : List Scope} {ms : List ModuleDecl}
  {resolved : Resolved} {M M' : Module}

/-- A definition has fields that lead on, since a declared sum has a constructor. -/
theorem DefinesType.exists_leads (h : DefinesType scopes key decl t) (hdecl : decl.WellFormed) :
    ∃ fields, t.Leads fields := by
  cases h with
  | product _ _ _ => exact ⟨_, .product rfl⟩
  | @sum cs shared defs attributes hbody _ _ hcs _ =>
    cases hcs with
    | nil => exact absurd rfl (hdecl.constructors _ _ hbody)
    | cons _ _ => exact ⟨_, .sum rfl⟩

theorem exists_leads_of_modules_eq_ok (hms : ∀ m ∈ ms, m.Distinct)
    (hformed : ∀ m ∈ ms, ∀ decl ∈ m.types, decl.WellFormed)
    (h : modules base serial text ms = .ok resolved) :
    ∀ t ∈ resolved.modules.flatMap Module.types, ∃ fields, t.Leads fields := by
  intro t ht
  obtain ⟨M, hM, ht⟩ := List.mem_flatMap.mp ht
  obtain ⟨m, hm, _, _, hmade⟩ := Outcome.exists_of_mem_right (forall₂_of_modules_eq_ok h) hM
  obtain ⟨-, -, hdefs⟩ := of_module_eq_ok (hms m hm).names hmade
  obtain ⟨decl, hdecl, hdef⟩ := Outcome.exists_of_mem_right hdefs ht
  exact hdef.exists_leads (hformed m hm decl hdecl)

theorem eq_of_serial_eq (h : modules base serial text ms = .ok resolved)
    (hM : M ∈ resolved.modules) (hM' : M' ∈ resolved.modules) (hserial : M.serial = M'.serial) :
    M = M' := by
  refine List.inj_on_of_nodup_map (f := Module.serial) ?_ hM hM' hserial
  rw [(modules_sound h).2]
  exact List.nodup_range'

/-- Within what is made of a tree a key belongs to one definition. -/
theorem eq_of_key_eq (h : modules base serial text ms = .ok resolved)
    (ht : t ∈ resolved.modules.flatMap Module.types)
    (ht' : t' ∈ resolved.modules.flatMap Module.types) (hkey : t.key = t'.key) : t = t' := by
  obtain ⟨M, hM, ht⟩ := List.mem_flatMap.mp ht
  obtain ⟨M', hM', ht'⟩ := List.mem_flatMap.mp ht'
  have hsounds := (modules_sound h).1
  obtain rfl : M = M' := eq_of_serial_eq h hM hM' (by
    rw [← ((hsounds M hM).key t ht).1, ← ((hsounds M' hM').key t' ht').1, hkey])
  exact (hsounds M hM).unique t ht t' ht' hkey

/-- Modules behind others have greater numbers. -/
theorem serial_le_of_mem (h : modules base serial text ms = .ok resolved)
    {before after : List Module} (hsplit : resolved.modules = before ++ M :: after)
    (hM' : M' ∈ before ++ [M]) : M'.serial ≤ M.serial := by
  have hsorted : (resolved.modules.map Module.serial).Pairwise (· < ·) := by
    rw [(modules_sound h).2]
    exact List.pairwise_lt_range'
  rw [hsplit, List.pairwise_map, List.pairwise_append] at hsorted
  rcases List.mem_append.mp hM' with hM' | hM'
  · exact (hsorted.2.2 M' hM' M List.mem_cons_self).le
  · rw [List.mem_singleton.mp hM']

end Resolve

/-- Types of one module with different keys have different names. -/
theorem Module.Sound.nodup_names {M : Module} (hM : M.Sound) {ts : List TypeDef}
    (hts : ∀ t ∈ ts, t ∈ M.types) (h : (ts.map TypeDef.key).Nodup) :
    (ts.map TypeDef.name).Nodup :=
  (List.Nodup.of_map _ h).map_on fun t ht t' ht' => hM.eq_of_name_eq (hts t ht) (hts t' ht')

namespace Model

variable {base : Model} {next serial : Nat} {limit : Option Number} {source : String}
  {tree : SchemaTree} {resolved : Resolved} {t t' : TypeDef} {e : CycleError}

/-- What a type of a tree mentions is not of a later module of the tree. -/
theorem Sound.serial_le (h : base.Sound next) (hserial : next ≤ serial)
    (hms : ∀ m ∈ tree.modules, m.Distinct)
    (hresolved : Resolve.modules base.modules serial [] tree.modules = .ok resolved)
    (ht : t ∈ resolved.modules.flatMap Module.types)
    (ht' : t' ∈ resolved.modules.flatMap Module.types) (hk : t.Mentions t'.key) :
    t'.key.serial ≤ t.key.serial := by
  obtain ⟨M, hM, htM⟩ := List.mem_flatMap.mp ht
  obtain ⟨before, after, hsplit⟩ := List.append_of_mem hM
  have hsounds := (Resolve.modules_sound hresolved).1
  rcases Resolve.exists_of_mentions hms hresolved hsplit htM hk with ⟨_, hscope, -⟩ | ⟨u, hu, hkey⟩
  · cases hscope
  rcases List.mem_append.mp hu with hu | hu
  · exact absurd (hkey ▸ List.mem_map_of_mem ht') (h.key_notMem hserial hresolved hu)
  · obtain ⟨M', hM', hu⟩ := List.mem_flatMap.mp hu
    have hmem : M' ∈ resolved.modules := by
      rw [hsplit]
      simp only [List.mem_append, List.mem_cons, List.not_mem_nil, or_false] at hM' ⊢
      tauto
    rw [← hkey, ((hsounds M' hmem).key u hu).1, ((hsounds M hM).key t htM).1]
    exact Resolve.serial_le_of_mem hresolved hsplit hM'

/-- Types that embed each other in turn are all of one module. -/
theorem Sound.mem_types_of_chain (h : base.Sound next) (hserial : next ≤ serial)
    (hms : ∀ m ∈ tree.modules, m.Distinct)
    (hresolved : Resolve.modules base.modules serial [] tree.modules = .ok resolved)
    {types others : List TypeDef} {first : TypeDef}
    (hmem : ∀ t ∈ first :: others, t ∈ resolved.modules.flatMap Module.types)
    (hchain : (first :: (others ++ [first])).IsChain (TypeDef.Embeds types)) :
    ∃ M ∈ resolved.modules, ∀ t ∈ first :: others, t ∈ M.types := by
  have hsounds := (Resolve.modules_sound hresolved).1
  have hclosed : ∀ t ∈ first :: (others ++ [first]), t ∈ first :: others := by
    intro t ht
    simp only [List.mem_cons, List.mem_append, List.not_mem_nil, or_false] at ht ⊢
    tauto
  -- the numbers of the modules do not grow along the chain, which ends where it begins
  have hserials : (first :: (others ++ [first])).Pairwise fun t t' =>
      t'.key.serial ≤ t.key.serial := by
    have : IsTrans TypeDef fun t t' => t'.key.serial ≤ t.key.serial :=
      ⟨fun _ _ _ hab hbc => hbc.trans hab⟩
    refine List.isChain_iff_pairwise.mp (hchain.imp_of_mem_imp fun t t' ht ht' hembeds => ?_)
    exact h.serial_le hserial hms hresolved (hmem t (hclosed t ht)) (hmem t' (hclosed t' ht'))
      hembeds.mentions
  rw [List.pairwise_cons, List.pairwise_append] at hserials
  obtain ⟨hfirst, -, -, hlast⟩ := hserials
  obtain ⟨M, hM, hfirstM⟩ := List.mem_flatMap.mp (hmem first List.mem_cons_self)
  refine ⟨M, hM, List.forall_mem_cons.mpr ⟨hfirstM, fun t ht => ?_⟩⟩
  obtain ⟨M', hM', htM'⟩ := List.mem_flatMap.mp (hmem t (List.mem_cons_of_mem _ ht))
  have heq : t.key.serial = first.key.serial :=
    le_antisymm (hfirst t (List.mem_append_left _ ht)) (hlast t ht first (List.mem_singleton_self _))
  rw [((hsounds M' hM').key t htM').1, ((hsounds M hM).key first hfirstM).1] at heq
  rwa [← Resolve.eq_of_serial_eq hresolved hM' hM heq]

/-- A load over a model made by loads that is refused with a cycle reports one that is there: types
of one module of the text, none of which has a finite value and each of which embeds the next, the
last one the first. Embeddings lead to the first of them from the first declared type without finite
value, and following them ends there, however many steps are granted beyond the number of types. -/
theorem Reachable.reports_of_load_eq_cycle (h : base.Reachable next) (hserial : next ≤ serial)
    (hload : base.load serial limit source = .error (.cycle e)) :
    ∃ tree resolved types, SchemaTree.parse source = .ok tree ∧
      Resolve.modules base.modules serial [] tree.modules = .ok resolved ∧
      resolved.modules.flatMap Module.types = types ∧
      List.Forall₂ ModuleDecl.Declares tree.modules resolved.modules ∧
      ∃ M ∈ resolved.modules, ∃ before start after first others,
        e.Reports (base.types ++ types) M first others ∧ 2 ≤ e.cycle.length ∧
        types = before ++ start :: after ∧
        (∀ t ∈ before, (TypeRef.declared t.key).HasValue (base.types ++ types)) ∧
        ¬(TypeRef.declared start.key).HasValue (base.types ++ types) ∧
        Relation.ReflTransGen (TypeDef.Embeds (base.types ++ types)) start first ∧
        ∀ n, types.length < n →
          Representable.follow types (Representable.representable types) n [] start = e := by
  obtain ⟨tree, resolved, hparse, hresolved, hcheck⟩ := Model.of_load_eq_cycle hload
  have hdistinct := (SchemaTree.of_parse_eq_ok hparse).1
  have hformed := SchemaTree.wellFormed_of_parse_eq_ok hparse
  have hsounds := (Resolve.modules_sound hresolved).1
  refine ⟨tree, resolved, resolved.modules.flatMap Module.types, hparse, hresolved, rfl,
    Resolve.declares_of_modules_eq_ok hdistinct.modules hresolved, ?_⟩
  have hvalue := fun t => h.sound.mem_representable_iff (t := t) hserial hdistinct hresolved
  generalize htypes : resolved.modules.flatMap Module.types = types at hcheck hvalue ⊢
  obtain ⟨before, start, after, hsplit, hbefore, hstart, hfollowed⟩ :=
    Representable.of_check_eq_error hcheck
  have hmem : start ∈ types := hsplit ▸ List.mem_append_right _ List.mem_cons_self
  have hnext := fun t (ht : t ∈ types ∧ t.key ∉ Representable.representable types) =>
    Representable.exists_blocker h.sound.values
      (fun t ht c hc f hf k hk => htypes ▸
        Resolve.exists_of_refersTo hdistinct.modules hresolved (htypes ▸ ht) ⟨c, hc, f, hf, hk⟩)
      ht.1 (Resolve.exists_leads_of_modules_eq_ok hdistinct.modules hformed hresolved t
        (htypes ▸ ht.1)) ht.2
  obtain ⟨way, first, others, rest, heq, hchain, hcycle, hnodup, hfollow⟩ :=
    Representable.follow_eq (k := types.length + 1) [] (fun _ ht => ht.1)
      (fun t ht t' ht' => Resolve.eq_of_key_eq hresolved (htypes ▸ ht.1) (htypes ▸ ht'.1)) hnext
      ⟨hmem, hstart⟩ (by simp) List.nodup_nil (.singleton _) (by simp)
  simp only [List.length_nil, Nat.add_zero] at hfollow
  obtain ⟨hway, hback⟩ := List.isChain_split.mp hchain
  obtain ⟨M, hM, hdeclared⟩ := h.sound.mem_types_of_chain hserial hdistinct.modules hresolved
    (fun t ht => htypes ▸ (hcycle t ht).1) hback
  have he : e = ⟨(first :: others).map TypeDef.name ++ [first.name], first.position⟩ :=
    hfollowed.symm.trans (hfollow _ (Nat.lt_succ_self _))
  have hreports : e.Reports (base.types ++ types) M first others :=
    ⟨congrArg CycleError.cycle he, congrArg CycleError.position he,
      (hsounds M hM).nodup_names hdeclared hnodup, hdeclared,
      fun t ht => mt (hvalue t (hcycle t ht).1).mpr (hcycle t ht).2, hback⟩
  refine ⟨M, hM, before, start, after, first, others, hreports, hreports.two_le_length, hsplit,
    fun t ht => (hvalue t (hsplit ▸ List.mem_append_left _ ht)).mp (hbefore t ht),
    mt (hvalue start hmem).mpr hstart, ?_, fun n hn => (hfollow n hn).trans he.symm⟩
  -- the way from `start` to `first` begins with `start`, and is empty if this is the first type
  have hreaches := List.relationReflTransGen_of_exists_isChain _ hway (by simp)
  rw [List.getLast_append_singleton] at hreaches
  convert hreaches using 1
  cases way with
  | nil => exact (List.cons.inj heq).1.symm
  | cons t way => exact (List.cons.inj heq).1.symm

/-- The tree of `module m \x7b a = (b x) b = (b y) \x7d`. -/
def Sample.ledTree : SchemaTree :=
  ⟨[⟨"m", ⟨1, 1⟩, [⟨"a", ⟨1, 12⟩, .product [⟨"x", "b", .single, ⟨1, 17⟩⟩]⟩,
    ⟨"b", ⟨1, 22⟩, .product [⟨"y", "b", .single, ⟨1, 27⟩⟩]⟩]⟩]⟩

theorem Sample.parse_eq_ledTree :
    SchemaTree.parse "module m \x7b a = (b x) b = (b y) \x7d" = .ok ledTree := rfl

theorem Sample.load_eq_cycle :
    (Model.empty none).load 0 none "module m \x7b a = (b x) b = (b y) \x7d" =
      .error (.cycle ⟨["b", "b"], ⟨1, 22⟩⟩) := by
  rw [load, parse_eq_ledTree, Outcome.ok_bind]
  rfl

/-- A cycle that a type outside of it leads into. -/
theorem Reachable.reports_of_load_eq_cycle_led :
    (Model.empty none).Reachable 0 ∧
      (Model.empty none).load 0 none "module m \x7b a = (b x) b = (b y) \x7d" =
        .error (.cycle ⟨["b", "b"], ⟨1, 22⟩⟩) ∧
      ∃ types M start first others,
        CycleError.Reports ⟨["b", "b"], ⟨1, 22⟩⟩ types M first others ∧
        Relation.ReflTransGen (TypeDef.Embeds types) start first := by
  have hbase : (Model.empty none).Reachable 0 := .empty
  obtain ⟨_, _, types, -, -, -, -, M, -, _, start, _, first, others, hreports, -, -, -, -,
    hreaches, -⟩ := hbase.reports_of_load_eq_cycle (Nat.zero_le 0) Sample.load_eq_cycle
  exact ⟨hbase, Sample.load_eq_cycle, _, M, start, first, others, hreports, hreaches⟩

end Model

end Schemata
