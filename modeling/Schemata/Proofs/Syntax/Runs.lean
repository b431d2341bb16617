import Schemata.Proofs.Syntax.Reads

/-!
# How the parser reads a schema

A sequence that spells a schema without repeated names leads the parser to the tree that it spells
(`run_schema`). There is one lemma for each rule of the grammar: from the place where the rule may
begin, the parser reads what it spells, whatever stands behind it, and goes on with the rest. A
constructor without fields and a sum without attributes end only at the token behind them, so these
lemmas ask which token that is.
-/

namespace Schemata.Parser

open Grammar (Many Separated)

/-- The parser's state after more tokens. -/
def State.run (s : State) (ts : List Token) : Except ParseError State :=
  ts.foldlM State.step s

theorem State.run_nil (s : State) : s.run [] = .ok s := rfl

theorem State.run_cons (s : State) (t : Token) (ts : List Token) :
    s.run (t :: ts) = s.step t >>= (·.run ts) := rfl

theorem State.run_of_step {s s' : State} {t : Token} (h : s.step t = .ok s') (ts : List Token) :
    s.run (t :: ts) = s'.run ts := by
  rw [run_cons, h]
  rfl

/-- The next token is of none of the given kinds. -/
def NextIsNot (kinds : List TokenKind) (ts : List Token) : Prop :=
  ∃ t us, ts = t :: us ∧ t.kind ∉ kinds

theorem NextIsNot.mono {kinds kinds' : List TokenKind} {ts : List Token} (h : NextIsNot kinds' ts)
    (hsub : ∀ k ∈ kinds, k ∈ kinds') : NextIsNot kinds ts := by
  obtain ⟨t, us, rfl, ht⟩ := h
  exact ⟨t, us, rfl, fun hk => ht (hsub _ hk)⟩

/-- A token, of which nothing more than its kind is asked, leads from one state to another. -/
def StepsOn (kind : TokenKind) (s : State) (next : Token → State) : Prop :=
  ∀ t : Token, t.kind = kind → s.step t = .ok (next t)

theorem notMem_of_nodup_map {α β : Type} {f : α → β} {as bs : List α} {a : α}
    (h : ((as ++ a :: bs).map f).Nodup) : f a ∉ as.map f := by
  rw [List.map_append, List.map_cons] at h
  exact fun ha => List.disjoint_of_nodup_append h ha List.mem_cons_self

/-! ## Field lists -/

section Fields

variable {owner : FieldOwner} {fs gs : List FieldDecl} {stage : FieldStage} {ts : List Token}

theorem run_field {f : FieldDecl} (hs : stage = .opened ∨ stage = .separated)
    (hf : Grammar.Field ts f) (hname : f.name ∉ fs.map FieldDecl.name) (rest : List Token) :
    (State.fields owner fs stage).run (ts ++ rest) =
      (State.fields owner (fs ++ [f]) .complete).run rest := by
  have hopen {t : Token} (ht : t.kind = .name) :
      (State.fields owner fs stage).step t = .ok (.fields owner fs (.typed t)) := by
    rcases hs with rfl | rfl <;> simp [State.step, stepFields, ht]
  cases hf with
  | @plain type name ht hn =>
    have hadd : (State.fields owner fs (.typed type)).step name =
        .ok (.fields owner (fs ++ [⟨name.text, type.text, .single, type.position⟩]) .complete) := by
      simp [State.step, stepFields, hn, addField, hname]
    rw [List.cons_append, State.run_of_step (hopen ht), List.cons_append, State.run_of_step hadd]
    rfl
  | @marked type mark name multiplicity ht hm hn =>
    have hmark : (State.fields owner fs (.typed type)).step mark =
        .ok (.fields owner fs (.marked type multiplicity)) := by
      generalize hkind : mark.kind = kind at hm
      cases hm <;> simp [State.step, stepFields, hkind]
    have hadd : (State.fields owner fs (.marked type multiplicity)).step name =
        .ok (.fields owner (fs ++ [⟨name.text, type.text, multiplicity, type.position⟩])
          .complete) := by
      simp [State.step, stepFields, hn, addField, hname]
    rw [List.cons_append, State.run_of_step (hopen ht), List.cons_append,
      State.run_of_step hmark, List.cons_append, State.run_of_step hadd]
    rfl

theorem run_fieldSequence (hs : stage = .opened ∨ stage = .separated)
    (hgs : Separated .comma Grammar.Field ts gs) (hd : ((fs ++ gs).map FieldDecl.name).Nodup)
    (rest : List Token) :
    (State.fields owner fs stage).run (ts ++ rest) =
      (State.fields owner (fs ++ gs) .complete).run rest := by
  induction hgs generalizing fs stage with
  | one hf => exact run_field hs hf (notMem_of_nodup_map hd) rest
  | @cons ts us t f gs hf ht hgs ih =>
    have hd' : (((fs ++ [f]) ++ gs).map FieldDecl.name).Nodup := by simpa using hd
    have hcomma : (State.fields owner (fs ++ [f]) .complete).step t =
        .ok (.fields owner (fs ++ [f]) .separated) := by
      simp [State.step, stepFields, ht]
    rw [List.append_assoc, run_field hs hf (notMem_of_nodup_map hd), List.cons_append,
      State.run_of_step hcomma, ih (.inr rfl) hd', List.append_assoc]
    rfl

/-- A field list behind its owner closes the owner. -/
theorem run_fields {s : State} (hs : StepsOn .openParen s fun _ => .fields owner [] .opened)
    (hf : Grammar.Fields ts gs) (hd : (gs.map FieldDecl.name).Nodup) (rest : List Token) :
    s.run (ts ++ rest) = closeFields owner gs >>= (·.run rest) := by
  cases hf with
  | @empty l r hl hr =>
    have hclose : (State.fields owner [] .opened).step r = closeFields owner [] := by
      simp [State.step, stepFields, hr]
    rw [List.cons_append, State.run_of_step (hs l hl), List.cons_append, State.run_cons, hclose]
    rfl
  | @filled l r ts _ hl hgs hr =>
    have hclose : (State.fields owner gs .complete).step r = closeFields owner gs := by
      simp [State.step, stepFields, hr]
    rw [List.cons_append, State.run_of_step (hs l hl), List.append_assoc,
      run_fieldSequence (.inl rfl) hgs (by simpa using hd), List.nil_append, List.cons_append,
      State.run_cons, hclose]
    rfl

end Fields

/-! ## Sums -/

section Sums

variable {type : OpenType} {before cs : List ConstructorDecl} {ts rest : List Token} {s : State}

theorem run_constructor {c : ConstructorDecl}
    (hs : StepsOn .name s fun n => .constructorNamed type before n.text n.position)
    (hc : Grammar.Ctor ts c) (hd : (c.fields.map FieldDecl.name).Nodup)
    (hname : c.name ∉ before.map ConstructorDecl.name) (hrest : NextIsNot [.openParen] rest) :
    s.run (ts ++ rest) = (State.constructors type (before ++ [c])).run rest := by
  cases hc with
  | @bare n hn =>
    obtain ⟨t, us, rfl, ht⟩ := hrest
    have hstep : (State.constructorNamed type before n.text n.position).step t =
        (State.constructors type (before ++ [⟨n.text, n.position, []⟩])).step t := by
      simp only [List.mem_singleton] at ht
      simp [State.step, closeConstructor, hname]
    rw [List.cons_append, State.run_of_step (hs n hn), List.nil_append, State.run_cons, hstep]
    rfl
  | @listed n ts fs hn hf =>
    have hopen : StepsOn .openParen (.constructorNamed type before n.text n.position)
        fun _ => .fields (.constructor type before n.text n.position) [] .opened :=
      fun l hl => by simp [State.step, hl]
    have hclose : closeFields (.constructor type before n.text n.position) fs =
        .ok (.constructors type (before ++ [⟨n.text, n.position, fs⟩])) := by
      simp [closeFields, closeConstructor, hname, pure, Except.pure]
    rw [List.cons_append, State.run_of_step (hs n hn), run_fields hopen hf hd, hclose]
    rfl

theorem run_constructors
    (hs : StepsOn .name s fun n => .constructorNamed type before n.text n.position)
    (hcs : Separated .bar Grammar.Ctor ts cs) (hd : DistinctConstructors (before ++ cs))
    (hrest : NextIsNot [.openParen] rest) :
    s.run (ts ++ rest) = (State.constructors type (before ++ cs)).run rest := by
  induction hcs generalizing s before with
  | @one ts c hc =>
    exact run_constructor hs hc (hd.fields c (by simp)) (notMem_of_nodup_map hd.names) hrest
  | @cons ts us t c cs hc ht hcs ih =>
    have hbar : (State.constructors type (before ++ [c])).step t =
        .ok (.afterBar type (before ++ [c])) := by
      simp [State.step, stepConstructors, ht]
    have hnext : StepsOn .name (.afterBar type (before ++ [c])) fun n =>
        .constructorNamed type (before ++ [c]) n.text n.position :=
      fun n hn => by simp [State.step, hn]
    have hd' : DistinctConstructors ((before ++ [c]) ++ cs) := by simpa using hd
    rw [List.append_assoc, List.cons_append, run_constructor hs hc (hd.fields c (by simp))
      (notMem_of_nodup_map hd.names) ⟨t, us ++ rest, rfl, by simp [ht]⟩,
      State.run_of_step hbar, ih hnext hd', List.append_assoc]
    rfl

end Sums

/-! ## Types and modules -/

/-- A module with one more type. -/
def OpenModule.add (m : OpenModule) (ds : List TypeDecl) : OpenModule :=
  { m with types := m.types ++ ds }

theorem closeType_eq_ok {type : OpenType} {body : TypeBody}
    (h : type.name ∉ type.module.types.map TypeDecl.name) :
    closeType type body = .ok (type.module.add [⟨type.name, type.position, body⟩]) := by
  simp [closeType, h, OpenModule.add]

/-- What cannot stand behind a type declaration. -/
def insideType : List TokenKind := [.openParen, .bar, .attributes]

theorem run_body {type : OpenType} {ts rest : List Token} {body : TypeBody}
    (hb : Grammar.Body ts body) (hd : body.Distinct)
    (hname : type.name ∉ type.module.types.map TypeDecl.name)
    (hrest : NextIsNot insideType rest) :
    (State.typeEquals type).run (ts ++ rest) =
      (State.types (type.module.add [⟨type.name, type.position, body⟩])).run rest := by
  have hclose (body : TypeBody) :
      closeType type body = .ok (type.module.add [⟨type.name, type.position, body⟩]) :=
    closeType_eq_ok hname
  cases hb with
  | product hf =>
    have hopen : StepsOn .openParen (.typeEquals type) fun _ => .fields (.product type) [] .opened :=
      fun l hl => by simp [State.step, hl]
    rw [run_fields hopen hf hd, closeFields, hclose]
    rfl
  | @sum ts us cs fs hcs ha =>
    obtain ⟨hnames, hfields, hshared, hclash⟩ := hd
    have hfirst : StepsOn .name (.typeEquals type) fun n =>
        .constructorNamed type [] n.text n.position :=
      fun n hn => by simp [State.step, hn]
    cases ha with
    | missing =>
      rw [List.append_nil, run_constructors hfirst hcs ⟨hnames, hfields⟩
        (hrest.mono (by simp [insideType]))]
      obtain ⟨t, us, rfl, ht⟩ := hrest
      simp only [insideType, List.mem_cons, List.not_mem_nil, or_false, not_or] at ht
      have hstep : (State.constructors type cs).step t =
          (State.types (type.module.add [⟨type.name, type.position, .sum cs []⟩])).step t := by
        simp [State.step, stepConstructors, ht, hclose]
      rw [List.nil_append, State.run_cons, hstep]
      rfl
    | @given k us _ hk hf =>
      have hkey : (State.constructors type cs).step k = .ok (.attributesKeyword type cs) := by
        simp [State.step, stepConstructors, hk]
      have hopen : StepsOn .openParen (.attributesKeyword type cs)
          fun _ => .fields (.attributes type cs) [] .opened :=
        fun l hl => by simp [State.step, hl]
      have hnone := clash?_eq_none.mpr hclash
      rw [List.append_assoc, List.cons_append, run_constructors hfirst hcs ⟨hnames, hfields⟩
        ⟨k, us ++ rest, rfl, by simp [hk]⟩, List.nil_append, State.run_of_step hkey,
        run_fields hopen hf hshared, closeFields, hnone]
      simp only [hclose]
      rfl

theorem run_decl {m : OpenModule} {ts rest : List Token} {d : TypeDecl}
    (hd : Grammar.Decl ts d) (hb : d.body.Distinct) (hname : d.name ∉ m.types.map TypeDecl.name)
    (hrest : NextIsNot insideType rest) :
    (State.types m).run (ts ++ rest) = (State.types (m.add [d])).run rest := by
  cases hd with
  | @declared n e ts body hn he hbody =>
    have hopen : (State.types m).step n = .ok (.typeNamed ⟨m, n.text, n.position⟩) := by
      simp [State.step, stepTypes, hn]
    have hequals : (State.typeNamed ⟨m, n.text, n.position⟩).step e =
        .ok (.typeEquals ⟨m, n.text, n.position⟩) := by
      simp [State.step, he]
    rw [List.cons_append, State.run_of_step hopen, List.cons_append, State.run_of_step hequals,
      run_body hbody hb hname hrest]

/-- A sequence of type declarations begins with none of the tokens that could go on with a type. -/
theorem nextIsNot_decls {ts rest : List Token} {ds : List TypeDecl} (h : Many Grammar.Decl ts ds)
    (hrest : NextIsNot insideType rest) : NextIsNot insideType (ts ++ rest) := by
  cases h with
  | nil => exact hrest
  | cons hd _ =>
    cases hd with
    | @declared n e ts _ hn _ _ => exact ⟨n, _, rfl, by simp [hn, insideType]⟩

theorem run_decls {m : OpenModule} {ts rest : List Token} {ds : List TypeDecl}
    (h : Many Grammar.Decl ts ds) (hd : ((m.types ++ ds).map TypeDecl.name).Nodup)
    (hb : ∀ d ∈ ds, d.body.Distinct) (hrest : NextIsNot insideType rest) :
    (State.types m).run (ts ++ rest) = (State.types (m.add ds)).run rest := by
  induction h generalizing m with
  | nil => simp [OpenModule.add]
  | @cons ts us d ds hdecl hdecls ih =>
    have hd' : (((m.add [d]).types ++ ds).map TypeDecl.name).Nodup := by
      simpa [OpenModule.add] using hd
    rw [List.append_assoc, run_decl hdecl (hb d (by simp)) (notMem_of_nodup_map hd)
      (nextIsNot_decls hdecls hrest), ih hd' fun d hd => hb d (by simp [hd])]
    simp [OpenModule.add]

theorem run_module {before : List ModuleDecl} {ts : List Token} {m : ModuleDecl}
    (hm : Grammar.Module ts m) (hd : m.Distinct)
    (hname : m.name ∉ before.map ModuleDecl.name) (rest : List Token) :
    (State.modules before).run (ts ++ rest) = (State.modules (before ++ [m])).run rest := by
  cases hm with
  | @declared k n l r ts types hk hn hl htypes hr =>
    have hkey : (State.modules before).step k = .ok (.moduleKeyword before k.position) := by
      simp [State.step, hk]
    have hnamed : (State.moduleKeyword before k.position).step n =
        .ok (.moduleNamed before n.text k.position) := by
      simp [State.step, hn]
    have hopen : (State.moduleNamed before n.text k.position).step l =
        .ok (.types ⟨before, n.text, k.position, []⟩) := by
      simp [State.step, hl]
    have hclose : (State.types ⟨before, n.text, k.position, types⟩).step r =
        .ok (.modules (before ++ [⟨n.text, k.position, types⟩])) := by
      simp [State.step, stepTypes, hr, closeModule, hname]
    rw [List.cons_append, State.run_of_step hkey, List.cons_append, State.run_of_step hnamed,
      List.cons_append, State.run_of_step hopen, List.append_assoc, List.cons_append,
      run_decls htypes (by simpa using hd.names) hd.bodies ⟨r, _, rfl, by simp [hr, insideType]⟩]
    exact State.run_of_step hclose rest

theorem run_modules {before : List ModuleDecl} {ts : List Token} {ms : List ModuleDecl}
    (h : Many Grammar.Module ts ms) (hd : SchemaTree.Distinct ⟨before ++ ms⟩)
    (rest : List Token) :
    (State.modules before).run (ts ++ rest) = (State.modules (before ++ ms)).run rest := by
  induction h generalizing before with
  | nil => simp
  | @cons ts us m ms hm hms ih =>
    have hd' : SchemaTree.Distinct ⟨(before ++ [m]) ++ ms⟩ := by simpa using hd
    rw [List.append_assoc, run_module hm (hd.modules m (by simp)) (notMem_of_nodup_map hd.names),
      ih hd', List.append_assoc]
    rfl

/-- Over a schema without repeated names the parser finishes with its tree. -/
theorem run_schema {ts : List Token} {tree : SchemaTree} (h : Grammar.Schema ts tree)
    (hd : tree.Distinct) : (State.modules []).run ts = .ok (.finished tree.modules) := by
  cases h with
  | @modules ts t ms hms ht =>
    have hend : (State.modules ms).step t = .ok (.finished ms) := by simp [State.step, ht]
    rw [run_modules hms (by simpa using hd), List.nil_append, State.run_of_step hend,
      State.run_nil]

end Schemata.Parser
