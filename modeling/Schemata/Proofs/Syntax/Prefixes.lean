import Schemata.Proofs.Syntax.Parsing
import Schemata.Proofs.Syntax.Places

/-!
# Where parse errors stand

What the parser has read is always the beginning of a token sequence of the grammar: what is open
can be closed (`Parser.Reads.viable`). So a token that it expected otherwise is the first one with
which no sequence of the grammar begins. Every other error reports a name that is given twice
(`Parser.Repeats`): the tokens that were read spell two declarations with this name in one place,
and the position is that of the later one, or of the attribute (`SchemaTree.parse_eq_error`).
-/

namespace Schemata

/-- A token of the given kind. -/
def Token.ofKind (kind : TokenKind) : Token := ⟨kind, kind.label, .start⟩

namespace Parser

open Grammar (Many Separated Viable)

/-- The tokens spell a declaration with the name and at the position of the error, and an earlier
one with the same name in the same place: a module, a type of a module, a constructor of a type, a
field of a list, or an attribute that is named like an own field of a constructor. -/
inductive Repeats : List Token → ParseError → Prop
  | modules {ts : List Token} {t : Token} {m : OpenModule} :
    ReadsTypes ts m → t.kind = .closeBrace → m.name ∈ m.before.map ModuleDecl.name →
    Repeats (ts ++ [t]) (.duplicateModule m.name m.position)
  | types {ts us : List Token} {type : OpenType} {body : TypeBody} :
    ReadsType ts type → Grammar.Body us body → type.name ∈ type.module.types.map TypeDecl.name →
    Repeats (ts ++ us) (.duplicateType type.module.name type.name type.position)
  | constructors {ts us : List Token} {type : OpenType} {before : List ConstructorDecl}
      {c : ConstructorDecl} :
    AwaitsConstructor ts type before → Grammar.Ctor us c →
    c.name ∈ before.map ConstructorDecl.name →
    Repeats (ts ++ us) (.duplicateConstructor type.module.name type.name c.name c.position)
  | fields {ts us vs : List Token} {l : Token} {owner : FieldOwner} {before : List FieldDecl}
      {f : FieldDecl} :
    ReadsOwner ts owner → l.kind = .openParen → Awaits .comma Grammar.Field us before →
    Grammar.Field vs f → f.name ∈ before.map FieldDecl.name →
    Repeats (ts ++ l :: (us ++ vs)) (.duplicateField owner.path f.name f.position)
  | attributes {ts us : List Token} {type : OpenType} {cs : List ConstructorDecl}
      {fs : List FieldDecl} {c : ConstructorDecl} {a : FieldDecl} :
    ReadsConstructors ts type cs → Grammar.Attributes us fs → c ∈ cs → a ∈ fs →
    a.name ∈ c.fields.map FieldDecl.name →
    Repeats (ts ++ us) (.clashingAttribute type.module.name type.name c.name a.name a.position)

variable {ts us vs : List Token} {t l : Token} {type : OpenType} {owner : FieldOwner}
  {fs : List FieldDecl} {cs : List ConstructorDecl}

/-! ## What is open can be closed -/

theorem viable_of_modules {ms : List ModuleDecl} (h : Many Grammar.Module ts ms) : Viable ts :=
  ⟨[.ofKind .endOfInput], _, .modules h rfl⟩

theorem ReadsTypes.viable_concat {m : OpenModule} (h : ReadsTypes ts m)
    (ht : t.kind = .closeBrace) : Viable (ts ++ [t]) := by
  cases h with
  | @mk ts us k n l before types hbefore hk hn hl htypes _ =>
    have hmodule := many_concat hbefore.derived (.declared hk hn hl htypes ht)
    simpa using viable_of_modules hmodule

theorem ReadsTypes.viable {m : OpenModule} (h : ReadsTypes ts m) : Viable ts :=
  (h.viable_concat (t := .ofKind .closeBrace) rfl).of_append _

theorem ReadsType.viable_append {body : TypeBody} (h : ReadsType ts type)
    (hbody : Grammar.Body us body) : Viable (ts ++ us) := by
  cases h with
  | mk htypes hn he =>
    cases htypes with
    | @mk ts us' k n' l before types hbefore hk hn' hl htypes _ =>
      have hdecls := many_concat htypes (.declared hn he hbody)
      have hmodule := many_concat hbefore.derived
        (.declared (r := .ofKind .closeBrace) hk hn' hl hdecls rfl)
      exact Viable.of_append [.ofKind .closeBrace] (by simpa using viable_of_modules hmodule)

theorem ReadsConstructors.viable_append (h : ReadsConstructors ts type cs)
    (hattributes : Grammar.Attributes us fs) : Viable (ts ++ us) := by
  cases h with
  | mk htype hcs _ =>
    rw [List.append_assoc]
    exact htype.viable_append (.sum hcs hattributes)

theorem ReadsConstructors.viable (h : ReadsConstructors ts type cs) : Viable ts :=
  (h.viable_append .missing).of_append _

theorem AwaitsConstructor.viable_append {c : ConstructorDecl} (h : AwaitsConstructor ts type cs)
    (hc : Grammar.Ctor us c) : Viable (ts ++ us) := by
  cases h with
  | mk htype hcs _ =>
    rw [List.append_assoc, ← List.append_nil (_ ++ us)]
    exact htype.viable_append (.sum (hcs.item hc) .missing)

theorem ReadsOwner.viable_append (h : ReadsOwner ts owner) (hfs : Grammar.Fields us fs) :
    Viable (ts ++ us) := by
  cases h with
  | product htype => exact htype.viable_append (.product hfs)
  | constructor hawaits hn =>
    rw [List.append_assoc]
    exact hawaits.viable_append (.listed hn hfs)
  | attributes hcs hk =>
    rw [List.append_assoc]
    exact hcs.viable_append (.given hk hfs)

theorem ReadsOwner.viable_fields (h : ReadsOwner ts owner) (hl : l.kind = .openParen)
    (hfs : Separated .comma Grammar.Field us fs) : Viable (ts ++ l :: us) :=
  Viable.of_append [.ofKind .closeParen]
    (by simpa using h.viable_append (.filled hl hfs (r := .ofKind .closeParen) rfl))

theorem Repeats.viable {e : ParseError} (h : Repeats ts e) : Viable ts := by
  cases h with
  | modules htypes ht _ => exact htypes.viable_concat ht
  | types htype hbody _ => exact htype.viable_append hbody
  | constructors hawaits hc _ => exact hawaits.viable_append hc
  | fields howner hl hawaits hf _ => exact howner.viable_fields hl (hawaits.item hf)
  | attributes hcs hattributes _ _ _ => exact hcs.viable_append hattributes

theorem ReadsFields.viable {stage : FieldStage} (h : ReadsFields us fs stage)
    (howner : ReadsOwner ts owner) (hl : l.kind = .openParen) : Viable (ts ++ l :: us) := by
  let name : Token := .ofKind .name
  cases h with
  | opened =>
    have hempty : Grammar.Fields [l, .ofKind .closeParen] [] := .empty hl rfl
    exact Viable.of_append [.ofKind .closeParen] (by simpa using howner.viable_append hempty)
  | separated hfs ht =>
    have hfield : Grammar.Field [name, name] ⟨name.text, name.text, .single, name.position⟩ :=
      .plain rfl rfl
    have hmore := (Awaits.separated hfs ht).item hfield
    exact Viable.of_append [name, name] (by simpa using howner.viable_fields hl hmore)
  | @typed _ type _ hfs ht =>
    have hfield : Grammar.Field [type, name] ⟨name.text, type.text, .single, type.position⟩ :=
      .plain ht rfl
    have hmore := hfs.item hfield
    exact Viable.of_append [name] (by simpa using howner.viable_fields hl hmore)
  | @marked _ type mark multiplicity _ hfs ht hmark =>
    have hfield : Grammar.Field [type, mark, name]
        ⟨name.text, type.text, multiplicity, type.position⟩ := .marked ht hmark rfl
    have hmore := hfs.item hfield
    exact Viable.of_append [name] (by simpa using howner.viable_fields hl hmore)
  | complete hfs => exact howner.viable_fields hl hfs

theorem ReadsModules.viable_append {ms : List ModuleDecl} {k n : Token} (h : ReadsModules ts ms)
    (hk : k.kind = .module) (hn : n.kind = .name) : Viable (ts ++ [k, n]) := by
  have hopened : ReadsTypes (ts ++ [k, n, .ofKind .openBrace]) ⟨ms, n.text, k.position, []⟩ :=
    .mk h hk hn rfl .nil ⟨List.nodup_nil, by simp⟩
  exact Viable.of_append [.ofKind .openBrace] (by simpa using hopened.viable)

/-- Whatever the parser has read before a token that it refuses is the beginning of a sequence of
the grammar. -/
theorem Reads.viable {s : State} {e : ParseError} (h : Reads ts s) (hstep : s.step t = .error e) :
    Viable ts := by
  have hbare : Grammar.Ctor [.ofKind .name] ⟨_, _, []⟩ := .bare rfl
  have hempty : Grammar.Fields [.ofKind .openParen, .ofKind .closeParen] [] := .empty rfl rfl
  have hproduct := Grammar.Body.product hempty
  cases h with
  | modules hms => exact viable_of_modules hms.derived
  | moduleKeyword hms hk =>
    have hnamed := hms.viable_append hk (n := .ofKind .name) rfl
    exact Viable.of_append [.ofKind .name] (by simpa using hnamed)
  | moduleNamed hms hk hn => exact hms.viable_append hk hn
  | types htypes => exact htypes.viable
  | typeNamed htypes hn =>
    have htype : ReadsType _ _ := .mk htypes hn (e := .ofKind .equals) rfl
    exact Viable.of_append (.ofKind .equals :: _) (by simpa using htype.viable_append hproduct)
  | typeEquals htype => exact (htype.viable_append hproduct).of_append _
  | afterBar hcs ht =>
    cases hcs with
    | mk htype hcs hdistinct =>
      have hawaits : AwaitsConstructor _ _ _ := .mk htype (.separated hcs ht) hdistinct
      exact Viable.of_append _ (by simpa using hawaits.viable_append hbare)
  | constructorNamed hawaits hn => exact hawaits.viable_append (.bare hn)
  | constructors hcs => exact hcs.viable
  | attributesKeyword hcs hk =>
    exact Viable.of_append _ (by simpa using hcs.viable_append (.given hk hempty))
  | fields howner hl hfs _ => exact hfs.viable howner hl
  | finished _ _ => cases hstep

/-! ## What errors report -/

/-- The error is that the token was expected otherwise, or a name is given twice in what was read,
with or without the token. -/
inductive Reports (ts : List Token) (t : Token) (e : ParseError) : Prop
  | expected {what : Expectation} {found : Token} : e = .expected what found → Reports ts t e
  | before : Repeats ts e → Reports ts t e
  | read : Repeats (ts ++ [t]) e → Reports ts t e

variable {e : ParseError}

theorem ReadsType.repeats {body : TypeBody} (h : ReadsType ts type) (hbody : Grammar.Body us body)
    (hclose : Parser.closeType type body = .error e) : Repeats (ts ++ us) e := by
  unfold Parser.closeType at hclose
  split_ifs at hclose with hname
  cases hclose
  exact .types h hbody hname

theorem AwaitsConstructor.repeats {c : ConstructorDecl} (h : AwaitsConstructor ts type cs)
    (hc : Grammar.Ctor us c) (hclose : Parser.closeConstructor type cs c = .error e) :
    Repeats (ts ++ us) e := by
  unfold Parser.closeConstructor at hclose
  split_ifs at hclose with hname
  cases hclose
  exact .constructors h hc hname

/-- A sum whose type has the name of another one. -/
theorem ReadsConstructors.repeats (h : ReadsConstructors ts type cs)
    (hattributes : Grammar.Attributes us fs) (hclose : Parser.closeType type (.sum cs fs) = .error e) :
    Repeats (ts ++ us) e := by
  cases h with
  | mk htype hcs _ =>
    rw [List.append_assoc]
    exact htype.repeats (.sum hcs hattributes) hclose

theorem of_clash?_eq_some {c : ConstructorDecl} {a : FieldDecl} (h : clash? cs fs = some (c, a)) :
    c ∈ cs ∧ a ∈ fs ∧ a.name ∈ c.fields.map FieldDecl.name := by
  obtain ⟨c', hc, h⟩ := List.exists_of_findSome?_eq_some h
  obtain ⟨a', hfind, heq⟩ := Option.map_eq_some_iff.mp h
  obtain ⟨rfl, rfl⟩ := Prod.mk.inj heq
  have hname := List.find?_some hfind
  exact ⟨hc, List.mem_of_find?_eq_some hfind, of_decide_eq_true hname⟩

theorem ReadsOwner.repeats (h : ReadsOwner ts owner) (hfs : Grammar.Fields us fs)
    (hclose : Parser.closeFields owner fs = .error e) : Repeats (ts ++ us) e := by
  cases h with
  | product htype =>
    obtain hclose | ⟨_, -, ⟨⟩⟩ := Outcome.bind_eq_error.mp hclose
    exact htype.repeats (.product hfs) hclose
  | constructor hawaits hn =>
    obtain hclose | ⟨_, -, ⟨⟩⟩ := Outcome.bind_eq_error.mp hclose
    rw [List.append_assoc]
    exact hawaits.repeats (.listed hn hfs) hclose
  | attributes hcs hk =>
    rw [List.append_assoc]
    unfold Parser.closeFields at hclose
    dsimp only at hclose
    split at hclose
    next c a hclash =>
      obtain ⟨hc, ha, hname⟩ := of_clash?_eq_some hclash
      cases hclose
      exact .attributes hcs (.given hk hfs) hc ha hname
    next =>
      obtain hclose | ⟨_, -, ⟨⟩⟩ := Outcome.bind_eq_error.mp hclose
      exact hcs.repeats (.given hk hfs) hclose

theorem ReadsTypes.reports {m : OpenModule} (h : ReadsTypes ts m)
    (hstep : stepTypes m t = .error e) : Reports ts t e := by
  unfold stepTypes at hstep
  split at hstep
  next ht =>
    unfold Parser.closeModule at hstep
    split_ifs at hstep with hname
    cases hstep
    exact .read (.modules h ht hname)
  next => cases hstep
  next => exact .expected (Except.error.inj hstep).symm

theorem ReadsConstructors.reports (h : ReadsConstructors ts type cs)
    (hstep : stepConstructors type cs t = .error e) : Reports ts t e := by
  unfold stepConstructors at hstep
  split at hstep
  next => cases hstep
  next => cases hstep
  next =>
    rcases Outcome.bind_eq_error.mp hstep with hclose | ⟨m, hm, hstep⟩
    · exact .before (List.append_nil ts ▸ h.repeats .missing hclose)
    · have htypes := h.closeSum .missing List.nodup_nil (by simp) hm
      rw [List.append_nil] at htypes
      exact htypes.reports hstep

theorem ReadsOwner.repeats_addField {type name : Token} {multiplicity : Multiplicity}
    (h : ReadsOwner ts owner) (hl : l.kind = .openParen) (hfs : Awaits .comma Grammar.Field us fs)
    (hf : Grammar.Field vs ⟨name.text, type.text, multiplicity, type.position⟩)
    (hadd : addField owner fs type multiplicity name = .error e) :
    Repeats (ts ++ l :: (us ++ vs)) e := by
  unfold addField at hadd
  split_ifs at hadd with hname
  cases hadd
  exact .fields h hl hfs hf hname

theorem ReadsFields.reports {stage : FieldStage} (h : ReadsFields us fs stage)
    (howner : ReadsOwner ts owner) (hl : l.kind = .openParen)
    (hstep : stepFields owner fs stage t = .error e) : Reports (ts ++ l :: us) t e := by
  have hread {vs : List Token} (hvs : us ++ [t] = vs) (hrepeats : Repeats (ts ++ l :: vs) e) :
      Reports (ts ++ l :: us) t e := .read (by simpa [hvs] using hrepeats)
  unfold stepFields at hstep
  split at hstep
  case h_2 | h_3 | h_6 | h_7 | h_12 => cases hstep
  case h_4 | h_5 | h_10 | h_11 | h_14 => exact .expected (Except.error.inj hstep).symm
  case h_1 ht =>
    cases h
    exact hread rfl (howner.repeats (.empty hl ht) hstep)
  case h_8 ht =>
    cases h with
    | typed hfs htype =>
      exact hread (by simp) (howner.repeats_addField hl hfs (.plain htype ht) hstep)
  case h_9 ht =>
    cases h with
    | marked hfs htype hmark =>
      exact hread (by simp) (howner.repeats_addField hl hfs (.marked htype hmark ht) hstep)
  case h_13 ht =>
    cases h with
    | complete hfs => exact hread rfl (howner.repeats (.filled hl hfs ht) hstep)

/-- An error of a step reports the token, or a name that is given twice. -/
theorem Reads.reports {s : State} (h : Reads ts s) (hstep : s.step t = .error e) :
    Reports ts t e := by
  unfold State.step at hstep
  cases h with
  | types htypes => exact htypes.reports hstep
  | constructors hcs => exact hcs.reports hstep
  | constructorNamed hawaits hn =>
    dsimp only at hstep
    split at hstep
    next => cases hstep
    next =>
      rcases Outcome.bind_eq_error.mp hstep with hclose | ⟨cs, hcs, hstep⟩
      · exact .before (hawaits.repeats (.bare hn) hclose)
      · exact (hawaits.closeConstructor (.bare hn) List.nodup_nil hcs).reports hstep
  | fields howner hl hfs _ => exact hfs.reports howner hl hstep
  | finished _ _ => cases hstep
  | _ =>
    dsimp only at hstep
    split at hstep <;> first | exact .expected (Except.error.inj hstep).symm | cases hstep

end Parser

namespace SchemaTree

open Schemata.Parser (State Repeats)

variable {source : String} {tokens : List Token} {e : ParseError}

/-- The parser reports a parse error at some token, whatever stands behind it. -/
theorem exists_step_of_parse_eq_error (h : Token.tokenize source = .ok tokens)
    (he : parse source = .error (.parse e)) : ∃ before next rest s, tokens = before ++ next :: rest ∧
      (State.modules []).run before = .ok s ∧ s.step next = .error e := by
  obtain ⟨ts, p, rfl, -⟩ := Token.of_tokenize_eq_ok h
  have hrun : (State.modules []).run (ts ++ [Token.endOfInput p]) = .error e := by
    rw [parse_eq_ofTokens h, ofTokens_eq_run] at he
    cases hrun : (State.modules []).run (ts ++ [Token.endOfInput p]) with
    | error e' =>
      rw [hrun] at he
      exact congrArg _ (LoadError.parse.inj (Except.error.inj he))
    | ok s =>
      obtain ⟨ms, rfl⟩ := Parser.finished_of_run_end rfl hrun
      rw [hrun] at he
      cases he
  exact Outcome.exists_of_foldlM_eq_error hrun

/-- Where a text that has tokens is refused. A token that was expected otherwise is the first one
with which no sequence of the grammar begins: with the tokens before it one does. Every other error
is found at some token, whatever stands behind it. The tokens before it, or up to it, are the
beginning of a sequence of the grammar and spell two declarations with one name in one place, and
the error has the position of the later one. -/
theorem parse_eq_error (h : Token.tokenize source = .ok tokens)
    (he : parse source = .error (.parse e)) :
    (∀ what found, e = .expected what found → e.position = found.position ∧
      ∃ before rest, tokens = before ++ found :: rest ∧ Grammar.Viable before ∧
        ¬ Grammar.Viable (before ++ [found])) ∧
    ((∀ what found, e ≠ .expected what found) →
      ∃ before next rest, tokens = before ++ next :: rest ∧
        (∀ more, ofTokens (before ++ next :: more) = .error e) ∧
        ∃ read, (read = before ∨ read = before ++ [next]) ∧ Grammar.Viable read ∧
          Repeats read e) := by
  obtain ⟨before, next, rest, s, rfl, hrun, hstep⟩ := exists_step_of_parse_eq_error h he
  have hreads := Parser.reads_of_foldlM hrun
  refine ⟨?_, fun hother => ⟨before, next, rest, rfl, fun more => ?_, ?_⟩⟩
  · rintro what found rfl
    obtain ⟨rfl, hviable⟩ := Parser.not_viable_of_step hrun hstep
    exact ⟨rfl, before, rest, rfl, hreads.viable hstep, hviable⟩
  · rw [ofTokens_eq_run, Parser.run_append, hrun, Outcome.ok_bind, State.run_cons, hstep]
    rfl
  · cases hreads.reports hstep with
    | expected heq => exact absurd heq (hother _ _)
    | before hrepeats => exact ⟨before, .inl rfl, hrepeats.viable, hrepeats⟩
    | read hrepeats => exact ⟨_, .inr rfl, hrepeats.viable, hrepeats⟩

/-- A field without a name, and a constructor with the name of the one before it. -/
theorem parse_eq_error_field :
    ∃ tokens tokens' found e, Token.tokenize "module m \x7b t = (int) \x7d" = .ok tokens ∧
      parse "module m \x7b t = (int) \x7d" = .error (.parse (.expected .fieldName found)) ∧
      found.position = ⟨1, 20⟩ ∧
      (∃ before rest, tokens = before ++ found :: rest ∧ Grammar.Viable before ∧
        ¬ Grammar.Viable (before ++ [found])) ∧
      Token.tokenize "module m \x7b t = A | A \x7d" = .ok tokens' ∧
      parse "module m \x7b t = A | A \x7d" = .error (.parse e) ∧
      e = .duplicateConstructor "m" "t" "A" ⟨1, 20⟩ ∧
      ∃ read, Grammar.Viable read ∧ Repeats read e := by
  obtain ⟨tokens, htokens⟩ : ∃ tokens, Token.tokenize "module m \x7b t = (int) \x7d" = .ok tokens :=
    ⟨_, rfl⟩
  obtain ⟨tokens', htokens'⟩ :
      ∃ tokens, Token.tokenize "module m \x7b t = A | A \x7d" = .ok tokens := ⟨_, rfl⟩
  have hparse : parse "module m \x7b t = (int) \x7d" =
      .error (.parse (.expected .fieldName ⟨.closeParen, ")", ⟨1, 20⟩⟩)) := rfl
  have hparse' : parse "module m \x7b t = A | A \x7d" =
      .error (.parse (.duplicateConstructor "m" "t" "A" ⟨1, 20⟩)) := rfl
  obtain ⟨-, hfound⟩ := (parse_eq_error htokens hparse).1 _ _ rfl
  obtain ⟨_, _, _, -, -, read, -, hviable, hrepeats⟩ :=
    (parse_eq_error htokens' hparse').2 fun _ _ => ParseError.noConfusion
  exact ⟨tokens, tokens', _, _, htokens, hparse, rfl, hfound, htokens', hparse', rfl, read, hviable,
    hrepeats⟩

end SchemaTree

end Schemata
