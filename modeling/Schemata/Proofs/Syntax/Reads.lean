import Schemata.Proofs.Outcome
import Schemata.Proofs.Syntax.Grammar
import Schemata.Syntax.Parser

/-!
# What the parser has read

`Reads` relates the tokens read so far to the parser's state: the tokens before the current place
spell the complete declarations that the state holds, without repetition of names, and the others
are the beginning of the declarations that are still open. Reading a token keeps it (`Reads.step`),
so a parser that has finished has read a schema that spells its tree (`Reads.schema`).
-/

namespace Schemata.Parser

open Grammar (Many Separated Mark)

/-- At the beginning of a separated sequence, or behind a separator. -/
inductive Awaits {α : Type} (kind : TokenKind) (Item : List Token → α → Prop) :
    List Token → List α → Prop
  | start : Awaits kind Item [] []
  | separated {ts : List Token} {t : Token} {as : List α} :
    Separated kind Item ts as → t.kind = kind → Awaits kind Item (ts ++ [t]) as

section Sequences

variable {α : Type} {kind : TokenKind} {Item : List Token → α → Prop}
  {ts us : List Token} {a : α} {as bs : List α}

theorem many_append (h : Many Item ts as) (h' : Many Item us bs) :
    Many Item (ts ++ us) (as ++ bs) := by
  induction h with
  | nil => exact h'
  | cons ha _ ih =>
    rw [List.append_assoc]
    exact .cons ha ih

theorem many_concat (h : Many Item ts as) (ha : Item us a) :
    Many Item (ts ++ us) (as ++ [a]) := by
  have := many_append h (.cons ha .nil)
  rwa [List.append_nil] at this

theorem separated_concat {t : Token} (h : Separated kind Item ts as) (ht : t.kind = kind)
    (ha : Item us a) : Separated kind Item (ts ++ t :: us) (as ++ [a]) := by
  induction h with
  | one hb => exact .cons hb ht (.one ha)
  | cons hb ht' _ ih =>
    rw [List.append_assoc]
    exact .cons hb ht' ih

theorem Awaits.item (h : Awaits kind Item ts as) (ha : Item us a) :
    Separated kind Item (ts ++ us) (as ++ [a]) := by
  cases h with
  | start => exact .one ha
  | separated h ht =>
    rw [List.append_assoc]
    exact separated_concat h ht ha

end Sequences

/-- Constructors of different names, each with fields of different names. -/
structure DistinctConstructors (cs : List ConstructorDecl) : Prop where
  names : (cs.map ConstructorDecl.name).Nodup
  fields : ∀ c ∈ cs, (c.fields.map FieldDecl.name).Nodup

/-- Complete modules. -/
structure ReadsModules (ts : List Token) (ms : List ModuleDecl) : Prop where
  derived : Many Grammar.Module ts ms
  distinct : SchemaTree.Distinct ⟨ms⟩

/-- A module up to some place between its types. -/
inductive ReadsTypes : List Token → OpenModule → Prop
  | mk {ts us : List Token} {k n l : Token} {before : List ModuleDecl} {types : List TypeDecl} :
    ReadsModules ts before → k.kind = .module → n.kind = .name → l.kind = .openBrace →
    Many Grammar.Decl us types → ModuleDecl.Distinct ⟨n.text, k.position, types⟩ →
    ReadsTypes (ts ++ k :: n :: l :: us) ⟨before, n.text, k.position, types⟩

/-- A type up to its equals sign. -/
inductive ReadsType : List Token → OpenType → Prop
  | mk {ts : List Token} {n e : Token} {m : OpenModule} :
    ReadsTypes ts m → n.kind = .name → e.kind = .equals →
    ReadsType (ts ++ [n, e]) ⟨m, n.text, n.position⟩

/-- A sum up to some place behind a constructor. -/
inductive ReadsConstructors : List Token → OpenType → List ConstructorDecl → Prop
  | mk {ts us : List Token} {type : OpenType} {cs : List ConstructorDecl} :
    ReadsType ts type → Separated .bar Grammar.Ctor us cs → DistinctConstructors cs →
    ReadsConstructors (ts ++ us) type cs

/-- A sum up to some place before a constructor. -/
inductive AwaitsConstructor : List Token → OpenType → List ConstructorDecl → Prop
  | mk {ts us : List Token} {type : OpenType} {cs : List ConstructorDecl} :
    ReadsType ts type → Awaits .bar Grammar.Ctor us cs → DistinctConstructors cs →
    AwaitsConstructor (ts ++ us) type cs

/-- What stands before a field list. -/
inductive ReadsOwner : List Token → FieldOwner → Prop
  | product {ts : List Token} {type : OpenType} : ReadsType ts type → ReadsOwner ts (.product type)
  | constructor {ts : List Token} {n : Token} {type : OpenType} {before : List ConstructorDecl} :
    AwaitsConstructor ts type before → n.kind = .name →
    ReadsOwner (ts ++ [n]) (.constructor type before n.text n.position)
  | attributes {ts : List Token} {k : Token} {type : OpenType} {cs : List ConstructorDecl} :
    ReadsConstructors ts type cs → k.kind = .attributes →
    ReadsOwner (ts ++ [k]) (.attributes type cs)

/-- The inside of a field list up to some place. -/
inductive ReadsFields : List Token → List FieldDecl → FieldStage → Prop
  | opened : ReadsFields [] [] .opened
  | separated {ts : List Token} {t : Token} {fs : List FieldDecl} :
    Separated .comma Grammar.Field ts fs → t.kind = .comma → ReadsFields (ts ++ [t]) fs .separated
  | typed {ts : List Token} {t : Token} {fs : List FieldDecl} :
    Awaits .comma Grammar.Field ts fs → t.kind = .name → ReadsFields (ts ++ [t]) fs (.typed t)
  | marked {ts : List Token} {t mark : Token} {multiplicity : Multiplicity}
      {fs : List FieldDecl} :
    Awaits .comma Grammar.Field ts fs → t.kind = .name → Mark mark.kind multiplicity →
    ReadsFields (ts ++ [t, mark]) fs (.marked t multiplicity)
  | complete {ts : List Token} {fs : List FieldDecl} :
    Separated .comma Grammar.Field ts fs → ReadsFields ts fs .complete

/-- The tokens that lead to a state. What stands behind the end of the input is not looked at. -/
inductive Reads : List Token → State → Prop
  | modules {ts : List Token} {ms : List ModuleDecl} : ReadsModules ts ms → Reads ts (.modules ms)
  | moduleKeyword {ts : List Token} {k : Token} {before : List ModuleDecl} :
    ReadsModules ts before → k.kind = .module → Reads (ts ++ [k]) (.moduleKeyword before k.position)
  | moduleNamed {ts : List Token} {k n : Token} {before : List ModuleDecl} :
    ReadsModules ts before → k.kind = .module → n.kind = .name →
    Reads (ts ++ [k, n]) (.moduleNamed before n.text k.position)
  | types {ts : List Token} {m : OpenModule} : ReadsTypes ts m → Reads ts (.types m)
  | typeNamed {ts : List Token} {n : Token} {m : OpenModule} :
    ReadsTypes ts m → n.kind = .name → Reads (ts ++ [n]) (.typeNamed ⟨m, n.text, n.position⟩)
  | typeEquals {ts : List Token} {type : OpenType} :
    ReadsType ts type → Reads ts (.typeEquals type)
  | afterBar {ts : List Token} {t : Token} {type : OpenType} {before : List ConstructorDecl} :
    ReadsConstructors ts type before → t.kind = .bar → Reads (ts ++ [t]) (.afterBar type before)
  | constructorNamed {ts : List Token} {n : Token} {type : OpenType}
      {before : List ConstructorDecl} :
    AwaitsConstructor ts type before → n.kind = .name →
    Reads (ts ++ [n]) (.constructorNamed type before n.text n.position)
  | constructors {ts : List Token} {type : OpenType} {cs : List ConstructorDecl} :
    ReadsConstructors ts type cs → Reads ts (.constructors type cs)
  | attributesKeyword {ts : List Token} {k : Token} {type : OpenType}
      {cs : List ConstructorDecl} :
    ReadsConstructors ts type cs → k.kind = .attributes →
    Reads (ts ++ [k]) (.attributesKeyword type cs)
  | fields {ts us : List Token} {l : Token} {owner : FieldOwner} {fs : List FieldDecl}
      {stage : FieldStage} :
    ReadsOwner ts owner → l.kind = .openParen → ReadsFields us fs stage →
    (fs.map FieldDecl.name).Nodup → Reads (ts ++ l :: us) (.fields owner fs stage)
  | finished {ts us : List Token} {t : Token} {ms : List ModuleDecl} :
    ReadsModules ts ms → t.kind = .endOfInput → Reads (ts ++ t :: us) (.finished ms)

theorem nodup_map_concat {α β : Type} {f : α → β} {as : List α} {a : α} (h : (as.map f).Nodup)
    (ha : f a ∉ as.map f) : ((as ++ [a]).map f).Nodup := by
  rw [List.map_append, List.map_singleton, ← List.concat_eq_append]
  exact h.concat ha

theorem reads_initial : Reads [] (.modules []) :=
  .modules ⟨.nil, List.nodup_nil, by simp⟩

theorem Reads.of_eq {ts us : List Token} {s : State} (h : Reads ts s) (e : ts = us) :
    Reads us s := e ▸ h

/-! ## Closing declarations -/

theorem ReadsTypes.closeModule {ts : List Token} {t : Token} {m : OpenModule} {s : State}
    (hm : ReadsTypes ts m) (ht : t.kind = .closeBrace) (h : closeModule m = .ok s) :
    Reads (ts ++ [t]) s := by
  cases hm with
  | @mk ts us k n l before types hbefore hk hn hl htypes hdistinct =>
    unfold Parser.closeModule at h
    split_ifs at h with hname
    cases h
    refine .of_eq (.modules ⟨many_concat hbefore.derived (.declared hk hn hl htypes ht),
      nodup_map_concat hbefore.distinct.names hname, ?_⟩) (by simp)
    intro m hm
    rcases List.mem_append.mp hm with hm | hm
    · exact hbefore.distinct.modules m hm
    · rwa [List.mem_singleton.mp hm]

theorem ReadsType.closeType {ts us : List Token} {type : OpenType} {body : TypeBody}
    {m : OpenModule} (ht : ReadsType ts type) (hb : Grammar.Body us body) (hd : body.Distinct)
    (h : closeType type body = .ok m) : ReadsTypes (ts ++ us) m := by
  cases ht with
  | mk hm hn he =>
    cases hm with
    | @mk ts' us' k n l before types hbefore hk hn' hl htypes hdistinct =>
      unfold Parser.closeType at h
      split_ifs at h with hname
      cases h
      have := ReadsTypes.mk hbefore hk hn' hl (many_concat htypes (.declared hn he hb))
        ⟨nodup_map_concat hdistinct.names hname, fun t ht => ?_⟩
      · simpa using this
      · rcases List.mem_append.mp ht with ht | ht
        · exact hdistinct.bodies t ht
        · rwa [List.mem_singleton.mp ht]

theorem AwaitsConstructor.closeConstructor {ts us : List Token} {type : OpenType}
    {before cs : List ConstructorDecl} {c : ConstructorDecl}
    (hb : AwaitsConstructor ts type before) (hc : Grammar.Ctor us c)
    (hd : (c.fields.map FieldDecl.name).Nodup) (h : closeConstructor type before c = .ok cs) :
    ReadsConstructors (ts ++ us) type cs := by
  cases hb with
  | mk ht hbefore hdistinct =>
    unfold Parser.closeConstructor at h
    split_ifs at h with hname
    cases h
    rw [List.append_assoc]
    refine .mk ht (hbefore.item hc) ⟨nodup_map_concat hdistinct.names hname, fun c' hc' => ?_⟩
    rcases List.mem_append.mp hc' with hc' | hc'
    · exact hdistinct.fields c' hc'
    · rwa [List.mem_singleton.mp hc']

/-- Without a clash, no attribute is named like an own field of a constructor. -/
theorem clash?_eq_none {cs : List ConstructorDecl} {fs : List FieldDecl} :
    clash? cs fs = none ↔ ∀ c ∈ cs, ∀ a ∈ fs, a.name ∉ c.fields.map FieldDecl.name := by
  simp [clash?, List.findSome?_eq_none_iff, List.find?_eq_none]

theorem ReadsConstructors.closeSum {ts us : List Token} {type : OpenType}
    {cs : List ConstructorDecl} {fs : List FieldDecl} {m : OpenModule}
    (hc : ReadsConstructors ts type cs) (ha : Grammar.Attributes us fs)
    (hd : (fs.map FieldDecl.name).Nodup)
    (hclash : ∀ c ∈ cs, ∀ a ∈ fs, a.name ∉ c.fields.map FieldDecl.name)
    (h : closeType type (.sum cs fs) = .ok m) : ReadsTypes (ts ++ us) m := by
  cases hc with
  | mk ht hcs hdistinct =>
    rw [List.append_assoc]
    exact ht.closeType (.sum hcs ha) ⟨hdistinct.names, hdistinct.fields, hd, hclash⟩ h

theorem ReadsOwner.closeFields {ts us : List Token} {owner : FieldOwner} {fs : List FieldDecl}
    {s : State} (ho : ReadsOwner ts owner) (hf : Grammar.Fields us fs)
    (hd : (fs.map FieldDecl.name).Nodup) (h : closeFields owner fs = .ok s) :
    Reads (ts ++ us) s := by
  cases ho with
  | product ht =>
    obtain ⟨m, hm, hs⟩ := Outcome.bind_eq_ok.mp h
    cases hs
    exact .types (ht.closeType (.product hf) hd hm)
  | constructor hb hn =>
    obtain ⟨cs, hcs, hs⟩ := Outcome.bind_eq_ok.mp h
    cases hs
    rw [List.append_assoc]
    exact .constructors (hb.closeConstructor (.listed hn hf) hd hcs)
  | attributes hc hk =>
    unfold Parser.closeFields at h
    dsimp only at h
    split at h
    · cases h
    · rename_i hclash
      obtain ⟨m, hm, hs⟩ := Outcome.bind_eq_ok.mp h
      cases hs
      rw [List.append_assoc]
      exact .types (hc.closeSum (.given hk hf) hd (clash?_eq_none.mp hclash) hm)

/-! ## Reading one token -/

theorem ReadsTypes.step {ts : List Token} {t : Token} {m : OpenModule} {s : State}
    (hm : ReadsTypes ts m) (h : stepTypes m t = .ok s) : Reads (ts ++ [t]) s := by
  unfold stepTypes at h
  split at h
  · rename_i hkind
    exact hm.closeModule hkind h
  · rename_i hkind
    cases h
    exact .typeNamed hm hkind
  · cases h

theorem ReadsConstructors.step {ts : List Token} {t : Token} {type : OpenType}
    {cs : List ConstructorDecl} {s : State} (hc : ReadsConstructors ts type cs)
    (h : stepConstructors type cs t = .ok s) : Reads (ts ++ [t]) s := by
  unfold stepConstructors at h
  split at h
  · rename_i hkind
    cases h
    exact .afterBar hc hkind
  · rename_i hkind
    cases h
    exact .attributesKeyword hc hkind
  · obtain ⟨m, hm, hs⟩ := Outcome.bind_eq_ok.mp h
    have := hc.closeSum .missing List.nodup_nil (by simp) hm
    rw [List.append_nil] at this
    exact this.step hs

/-- The place before a field of a list. -/
theorem ReadsFields.awaits {ts : List Token} {fs : List FieldDecl} {stage : FieldStage}
    (h : ReadsFields ts fs stage) (hs : stage = .opened ∨ stage = .separated) :
    Awaits .comma Grammar.Field ts fs := by
  cases h with
  | opened => exact .start
  | separated h ht => exact .separated h ht
  | typed _ _ => simp at hs
  | marked _ _ _ => simp at hs
  | complete _ => simp at hs

theorem reads_addField {ts us vs : List Token} {l type name : Token} {owner : FieldOwner}
    {fs : List FieldDecl} {multiplicity : Multiplicity} {s : State} (ho : ReadsOwner ts owner)
    (hl : l.kind = .openParen) (hfs : Awaits .comma Grammar.Field us fs)
    (hd : (fs.map FieldDecl.name).Nodup)
    (hf : Grammar.Field vs ⟨name.text, type.text, multiplicity, type.position⟩)
    (h : addField owner fs type multiplicity name = .ok s) :
    Reads (ts ++ l :: (us ++ vs)) s := by
  unfold addField at h
  split_ifs at h with hname
  cases h
  exact .fields ho hl (.complete (hfs.item hf)) (nodup_map_concat hd hname)

theorem reads_closeFields {ts us : List Token} {l r : Token} {owner : FieldOwner}
    {fs : List FieldDecl} {s : State} (ho : ReadsOwner ts owner)
    (hf : Grammar.Fields (l :: (us ++ [r])) fs) (hd : (fs.map FieldDecl.name).Nodup)
    (h : closeFields owner fs = .ok s) : Reads (ts ++ l :: us ++ [r]) s :=
  (ho.closeFields hf hd h).of_eq (by simp)

theorem ReadsFields.step {ts us : List Token} {l t : Token} {owner : FieldOwner}
    {fs : List FieldDecl} {stage : FieldStage} {s : State} (ho : ReadsOwner ts owner)
    (hl : l.kind = .openParen) (hfs : ReadsFields us fs stage)
    (hd : (fs.map FieldDecl.name).Nodup) (h : stepFields owner fs stage t = .ok s) :
    Reads (ts ++ l :: us ++ [t]) s := by
  have htyped {vs : List Token} (hv : Awaits .comma Grammar.Field vs fs) (ht : t.kind = .name) :
      Reads (ts ++ l :: vs ++ [t]) (.fields owner fs (.typed t)) :=
    .of_eq (.fields ho hl (.typed hv ht) hd) (by simp)
  unfold stepFields at h
  split at h
  case h_1 hkind =>
    cases hfs
    exact reads_closeFields ho (.empty hl hkind) hd h
  case h_2 hkind =>
    cases h
    exact htyped (hfs.awaits (.inl rfl)) hkind
  case h_3 hkind =>
    cases h
    exact htyped (hfs.awaits (.inr rfl)) hkind
  case h_4 => cases h
  case h_5 => cases h
  case h_6 hkind =>
    cases h
    cases hfs with
    | typed hv ht =>
      exact .of_eq (.fields ho hl (.marked hv ht (hkind ▸ Mark.star)) hd) (by simp)
  case h_7 hkind =>
    cases h
    cases hfs with
    | typed hv ht =>
      exact .of_eq (.fields ho hl (.marked hv ht (hkind ▸ Mark.question)) hd) (by simp)
  case h_8 hkind =>
    cases hfs with
    | typed hv ht => exact (reads_addField ho hl hv hd (.plain ht hkind) h).of_eq (by simp)
  case h_9 hkind =>
    cases hfs with
    | marked hv ht hm =>
      exact (reads_addField ho hl hv hd (.marked ht hm hkind) h).of_eq (by simp)
  case h_10 => cases h
  case h_11 => cases h
  case h_12 hkind =>
    cases h
    cases hfs with
    | complete hf => exact .of_eq (.fields ho hl (.separated hf hkind) hd) (by simp)
  case h_13 hkind =>
    cases hfs with
    | complete hf => exact reads_closeFields ho (.filled hl hf hkind) hd h
  case h_14 => cases h

/-- What is read stays the beginning of a schema when one more token is read. -/
theorem Reads.step {ts : List Token} {t : Token} {s s' : State} (hs : Reads ts s)
    (h : s.step t = .ok s') : Reads (ts ++ [t]) s' := by
  unfold State.step at h
  cases hs with
  | modules hm =>
    dsimp only at h
    split at h
    · rename_i hkind
      cases h
      exact .moduleKeyword hm hkind
    · rename_i hkind
      cases h
      exact .finished hm hkind
    · cases h
  | moduleKeyword hm hk =>
    dsimp only at h
    split at h
    · rename_i hkind
      cases h
      exact .of_eq (.moduleNamed hm hk hkind) (by simp)
    · cases h
  | @moduleNamed _ k n _ hm hk hn =>
    dsimp only at h
    split at h
    · rename_i hkind
      cases h
      have : ModuleDecl.Distinct ⟨n.text, k.position, []⟩ := ⟨List.nodup_nil, by simp⟩
      exact .of_eq (.types (.mk hm hk hn hkind .nil this)) (by simp)
    · cases h
  | types hm => exact hm.step h
  | typeNamed hm hn =>
    dsimp only at h
    split at h
    · rename_i hkind
      cases h
      exact .of_eq (.typeEquals (.mk hm hn hkind)) (by simp)
    · cases h
  | typeEquals ht =>
    dsimp only at h
    split at h
    · rename_i hkind
      cases h
      exact .fields (.product ht) hkind .opened List.nodup_nil
    · rename_i hkind
      cases h
      have := AwaitsConstructor.mk ht .start ⟨List.nodup_nil, by simp⟩
      rw [List.append_nil] at this
      exact .constructorNamed this hkind
    · cases h
  | afterBar hc hbar =>
    dsimp only at h
    split at h
    · rename_i hkind
      cases h
      cases hc with
      | mk ht hcs hd =>
        exact .of_eq (.constructorNamed (.mk ht (.separated hcs hbar) hd) hkind) (by simp)
    · cases h
  | constructorNamed hb hn =>
    dsimp only at h
    split at h
    · rename_i hkind
      cases h
      exact .fields (.constructor hb hn) hkind .opened List.nodup_nil
    · obtain ⟨cs, hcs, hs⟩ := Outcome.bind_eq_ok.mp h
      exact (hb.closeConstructor (.bare hn) List.nodup_nil hcs).step hs
  | constructors hc => exact hc.step h
  | attributesKeyword hc hk =>
    dsimp only at h
    split at h
    · rename_i hkind
      cases h
      exact .fields (.attributes hc hk) hkind .opened List.nodup_nil
    · cases h
  | fields ho hl hfs hd => exact ReadsFields.step ho hl hfs hd h
  | finished hm hend =>
    cases h
    rw [List.append_assoc]
    exact .finished hm hend

/-- The state that the parser reaches over a token sequence says what the sequence spells. -/
theorem reads_of_foldlM {ts : List Token} {s : State}
    (h : ts.foldlM State.step (.modules []) = .ok s) : Reads ts s :=
  Outcome.foldlM_reads (fun hs h => hs.step h) reads_initial h

/-- A parser that has finished at the end of the input has read a schema. -/
theorem Reads.schema {ts : List Token} {t : Token} {ms : List ModuleDecl}
    (h : Reads (ts ++ [t]) (.finished ms)) (hts : ∀ u ∈ ts, u.kind ≠ .endOfInput) :
    Grammar.Schema (ts ++ [t]) ⟨ms⟩ ∧ SchemaTree.Distinct ⟨ms⟩ := by
  generalize hread : ts ++ [t] = read at h
  cases h with
  | @finished vs us e _ hm he =>
    obtain rfl | ⟨us', u, rfl⟩ := List.eq_nil_or_concat us
    · exact ⟨.modules hm.derived he, hm.distinct⟩
    · have happend : ts ++ [t] = (vs ++ e :: us') ++ [u] := by simpa using hread
      have hts' : ts = vs ++ e :: us' := (List.append_inj' happend rfl).1
      exact absurd he (hts e (by simp [hts']))

end Schemata.Parser
