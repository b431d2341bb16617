import Schemata.Load
import Schemata.Proofs.Syntax.Runs
import Schemata.Proofs.Token.Words

/-!
# The parser and the grammar

The parser accepts exactly the token sequences that the grammar derives from a tree without repeated
names, and gives that tree (`ofTokens_eq_ok_iff`); `parse_spells` says so for the tokens of a text.
The end of the input always ends the reading (`finished_of_step_end`): a state that has read it
looks at nothing behind it.
-/

namespace Schemata

namespace Parser

theorem closeType_stepTypes_end {type : OpenType} {body : TypeBody} {t : Token} {s : State}
    (ht : t.kind = .endOfInput) : (do stepTypes (← closeType type body) t) ≠ .ok s := by
  intro h
  obtain ⟨m, _, hs⟩ := Outcome.bind_eq_ok.mp h
  simp [stepTypes, ht] at hs

theorem stepConstructors_end {type : OpenType} {cs : List ConstructorDecl} {t : Token} {s : State}
    (ht : t.kind = .endOfInput) : stepConstructors type cs t ≠ .ok s := by
  unfold stepConstructors
  simp only [ht]
  exact closeType_stepTypes_end ht

theorem stepFields_end {owner : FieldOwner} {fs : List FieldDecl} {stage : FieldStage} {t : Token}
    {s : State} (ht : t.kind = .endOfInput) : stepFields owner fs stage t ≠ .ok s := by
  cases stage <;> simp [stepFields, ht]

/-- The end of the input finishes the parser or is refused. -/
theorem finished_of_step_end {s s' : State} {t : Token} (ht : t.kind = .endOfInput)
    (h : s.step t = .ok s') : ∃ ms, s' = .finished ms := by
  cases s with
  | modules ms =>
    simp only [State.step, ht] at h
    cases h
    exact ⟨ms, rfl⟩
  | finished ms =>
    cases h
    exact ⟨ms, rfl⟩
  | constructors type cs => exact absurd h (stepConstructors_end ht)
  | fields owner fs stage => exact absurd h (stepFields_end ht)
  | constructorNamed type before name position =>
    simp only [State.step, ht] at h
    obtain ⟨cs, _, hs⟩ := Outcome.bind_eq_ok.mp h
    exact absurd hs (stepConstructors_end ht)
  | _ => simp [State.step, stepTypes, ht] at h

theorem run_append (s : State) (ts us : List Token) :
    s.run (ts ++ us) = s.run ts >>= (·.run us) := by
  simp [State.run, List.foldlM_append]

theorem run_finished (ms : List ModuleDecl) (ts : List Token) :
    (State.finished ms).run ts = .ok (.finished ms) := by
  induction ts with
  | nil => rfl
  | cons t ts ih =>
    rw [State.run_cons]
    exact ih

/-- A parser that has read the end of the input has finished. -/
theorem finished_of_run_end {s s' : State} {ts : List Token} {t : Token}
    (ht : t.kind = .endOfInput) (h : s.run (ts ++ [t]) = .ok s') : ∃ ms, s' = .finished ms := by
  rw [run_append] at h
  obtain ⟨s₁, _, h₁⟩ := Outcome.bind_eq_ok.mp h
  obtain ⟨s₂, h₂, hs⟩ := Outcome.bind_eq_ok.mp h₁
  obtain ⟨ms, rfl⟩ := finished_of_step_end ht h₂
  cases hs
  exact ⟨ms, rfl⟩

end Parser

namespace SchemaTree

open Schemata.Parser

theorem ofTokens_eq_run (ts : List Token) :
    ofTokens ts = (State.modules []).run ts >>= State.result := rfl

variable {ts : List Token} {t : Token}

/-- The parser gives a tree exactly where the grammar derives one without repeated names. -/
theorem ofTokens_eq_ok_iff {tree : SchemaTree} (hts : ∀ u ∈ ts, u.kind ≠ .endOfInput)
    (ht : t.kind = .endOfInput) :
    ofTokens (ts ++ [t]) = .ok tree ↔ Grammar.Schema (ts ++ [t]) tree ∧ tree.Distinct := by
  rw [ofTokens_eq_run]
  constructor
  · intro h
    obtain ⟨s, hs, hresult⟩ := Outcome.bind_eq_ok.mp h
    obtain ⟨ms, rfl⟩ := finished_of_run_end ht hs
    cases hresult
    exact (reads_of_foldlM hs).schema hts
  · rintro ⟨hschema, hdistinct⟩
    rw [run_schema hschema hdistinct]
    rfl

/-- What stands behind the end of the input is not looked at. -/
theorem ofTokens_append (ht : t.kind = .endOfInput) (rest : List Token) :
    ofTokens (ts ++ [t] ++ rest) = ofTokens (ts ++ [t]) := by
  rw [ofTokens_eq_run, ofTokens_eq_run, run_append]
  cases h : (State.modules []).run (ts ++ [t]) with
  | error e => rfl
  | ok s =>
    obtain ⟨ms, rfl⟩ := finished_of_run_end ht h
    rw [Outcome.ok_bind, run_finished]

theorem parse_eq_ofTokens {source : String} {tokens : List Token}
    (h : Token.tokenize source = .ok tokens) :
    parse source = (ofTokens tokens).mapError .parse := by
  unfold parse
  rw [h]
  dsimp only
  cases ofTokens tokens <;> rfl

/-- A text that has tokens is parsed into the trees that the grammar derives them from, if no name
is given twice in one place. -/
theorem parse_eq_ok_iff {source : String} {tokens : List Token} {tree : SchemaTree}
    (h : Token.tokenize source = .ok tokens) :
    parse source = .ok tree ↔ Grammar.Schema tokens tree ∧ tree.Distinct := by
  obtain ⟨ts, p, rfl, hts⟩ := Token.of_tokenize_eq_ok h
  rw [← ofTokens_eq_ok_iff (fun u hu => (hts u hu).kind_ne) rfl, parse_eq_ofTokens h,
    Outcome.mapError_eq_ok]

theorem exists_tokens_of_parse {source : String} {tree : SchemaTree} (h : parse source = .ok tree) :
    ∃ tokens, Token.tokenize source = .ok tokens := by
  cases htokens : Token.tokenize source with
  | error e => simp [parse, htokens] at h
  | ok tokens => exact ⟨tokens, rfl⟩

/-! ## Names of a text -/

/-- What holds of each item of a sequence, given what holds of its tokens, holds of all items. -/
theorem forall_mem_of_many {α : Type} {Item : List Token → α → Prop} {P : α → Prop}
    {Q : Token → Prop} {ts : List Token} {as : List α} (h : Grammar.Many Item ts as)
    (hts : ∀ u ∈ ts, Q u) (hitem : ∀ ts a, Item ts a → (∀ u ∈ ts, Q u) → P a) : ∀ a ∈ as, P a := by
  induction h with
  | nil => simp
  | cons ha _ ih =>
    obtain ⟨hts, hus⟩ := List.forall_mem_append.mp hts
    exact List.forall_mem_cons.mpr ⟨hitem _ _ ha hts, ih hus⟩

theorem forall_mem_of_separated {α : Type} {kind : TokenKind} {Item : List Token → α → Prop}
    {P : α → Prop} {Q : Token → Prop} {ts : List Token} {as : List α}
    (h : Grammar.Separated kind Item ts as) (hts : ∀ u ∈ ts, Q u)
    (hitem : ∀ ts a, Item ts a → (∀ u ∈ ts, Q u) → P a) : ∀ a ∈ as, P a := by
  induction h with
  | one ha => exact List.forall_mem_singleton.mpr (hitem _ _ ha hts)
  | cons ha _ _ ih =>
    obtain ⟨hts, hus⟩ := List.forall_mem_append.mp hts
    exact List.forall_mem_cons.mpr
      ⟨hitem _ _ ha hts, ih fun u hu => hus u (List.mem_cons_of_mem _ hu)⟩

section Given

variable {P : String → Prop}

theorem given_of_field {ts : List Token} {f : FieldDecl} (h : Grammar.Field ts f)
    (hts : ∀ u ∈ ts, u.kind = .name → P u.text) : P f.name := by
  cases h with
  | @plain type name _ hname => exact hts name (by simp) hname
  | @marked type mark name _ _ _ hname => exact hts name (by simp) hname

theorem given_of_fields {ts : List Token} {fs : List FieldDecl} (h : Grammar.Fields ts fs)
    (hts : ∀ u ∈ ts, u.kind = .name → P u.text) : ∀ f ∈ fs, P f.name := by
  cases h with
  | empty _ _ => simp
  | filled _ hfs _ =>
    have hinner := (List.forall_mem_append.mp (List.forall_mem_cons.mp hts).2).1
    exact forall_mem_of_separated hfs hinner fun _ _ => given_of_field

theorem given_of_ctor {ts : List Token} {c : ConstructorDecl} (h : Grammar.Ctor ts c)
    (hts : ∀ u ∈ ts, u.kind = .name → P u.text) : P c.name ∧ ∀ f ∈ c.fields, P f.name := by
  cases h with
  | bare hname => exact ⟨hts _ List.mem_cons_self hname, by simp⟩
  | listed hname hfs =>
    obtain ⟨hhead, htail⟩ := List.forall_mem_cons.mp hts
    exact ⟨hhead hname, given_of_fields hfs htail⟩

theorem given_of_body {ts : List Token} {body : TypeBody} (h : Grammar.Body ts body)
    (hts : ∀ u ∈ ts, u.kind = .name → P u.text) : ∀ name ∈ body.givenNames, P name := by
  cases h with
  | product hfs =>
    rw [TypeBody.givenNames, List.forall_mem_map]
    exact given_of_fields hfs hts
  | @sum ts us cs fs hcs hattributes =>
    obtain ⟨hts, hus⟩ := List.forall_mem_append.mp hts
    have hgiven := forall_mem_of_separated hcs hts fun _ _ => given_of_ctor
    have hshared : ∀ f ∈ fs, P f.name := by
      cases hattributes with
      | missing => simp
      | given _ hfs => exact given_of_fields hfs (List.forall_mem_cons.mp hus).2
    simp only [TypeBody.givenNames, List.forall_mem_append, List.forall_mem_map,
      List.forall_mem_flatMap, List.forall_mem_cons]
    exact ⟨hshared, hgiven⟩

theorem given_of_decl {ts : List Token} {t : TypeDecl} (h : Grammar.Decl ts t)
    (hts : ∀ u ∈ ts, u.kind = .name → P u.text) :
    P t.name ∧ ∀ name ∈ t.body.givenNames, P name := by
  cases h with
  | declared hname _ hbody =>
    obtain ⟨hhead, htail⟩ := List.forall_mem_cons.mp hts
    exact ⟨hhead hname, given_of_body hbody (List.forall_mem_cons.mp htail).2⟩

/-- What holds of the names among the tokens of a module holds of the names that the module
gives. -/
theorem given_of_module {ts : List Token} {m : ModuleDecl} (h : Grammar.Module ts m)
    (hts : ∀ u ∈ ts, u.kind = .name → P u.text) : ∀ name ∈ m.givenNames, P name := by
  cases h with
  | @declared keyword name l r ts types _ hname _ htypes _ =>
    have hbody : ∀ u ∈ ts, u.kind = .name → P u.text := fun u hu => hts u (by simp [hu])
    have hgiven := forall_mem_of_many htypes hbody fun _ _ => given_of_decl
    refine List.forall_mem_cons.mpr ⟨hts name (by simp) hname, ?_⟩
    simp only [List.forall_mem_flatMap, List.forall_mem_cons]
    exact hgiven

/-- What holds of the names among tokens holds of all names that a tree gives. -/
theorem given_of_schema {tokens : List Token} {tree : SchemaTree}
    (h : Grammar.Schema tokens tree) (htokens : ∀ u ∈ tokens, u.kind = .name → P u.text) :
    ∀ m ∈ tree.modules, ∀ name ∈ m.givenNames, P name := by
  cases h with
  | modules hms _ =>
    exact forall_mem_of_many hms (List.forall_mem_append.mp htokens).1 fun _ _ => given_of_module

end Given

/-- The tree of a text gives no name twice in one place, and no name that it gives is reserved. -/
theorem of_parse_eq_ok {source : String} {tree : SchemaTree} (h : parse source = .ok tree) :
    tree.Distinct ∧ ∀ m ∈ tree.modules, ∀ name ∈ m.givenNames, Token.IsName name := by
  obtain ⟨tokens, htokens⟩ := exists_tokens_of_parse h
  obtain ⟨hschema, hdistinct⟩ := (parse_eq_ok_iff htokens).mp h
  exact ⟨hdistinct, given_of_schema hschema (Token.isName_of_tokenize_eq_ok htokens)⟩

/-- A text that has tokens is parsed into a tree exactly if the grammar derives its tokens from that
tree and the tree gives no name twice in one place; every other such text is refused with a parse
error. To decide this the parser needs no token behind the end of the input: having read that it has
finished, and whatever follows makes no difference. -/
theorem parse_spells {source : String} {tokens : List Token}
    (h : Token.tokenize source = .ok tokens) :
    (∀ tree, parse source = .ok tree ↔ Grammar.Schema tokens tree ∧ tree.Distinct) ∧
    ((¬∃ tree, Grammar.Schema tokens tree ∧ tree.Distinct) →
      ∃ e, parse source = .error (.parse e)) ∧
    (∀ s, (State.modules []).run tokens = .ok s → ∃ ms, s = .finished ms) ∧
    ∀ rest, ofTokens (tokens ++ rest) = ofTokens tokens := by
  have hiff (tree : SchemaTree) : parse source = .ok tree ↔ Grammar.Schema tokens tree ∧
      tree.Distinct := parse_eq_ok_iff h
  obtain ⟨ts, p, rfl, -⟩ := Token.of_tokenize_eq_ok h
  have hend : (Token.endOfInput p).kind = .endOfInput := rfl
  refine ⟨hiff, fun hnone => ?_, fun s hs => finished_of_run_end hend hs,
    ofTokens_append hend⟩
  rw [parse_eq_ofTokens h]
  cases hparse : ofTokens (ts ++ [Token.endOfInput p]) with
  | error e => exact ⟨e, rfl⟩
  | ok tree =>
    refine absurd ⟨tree, (hiff tree).mp ?_⟩ hnone
    rw [parse_eq_ofTokens h, hparse]
    rfl

theorem parse_spells_small :
    ∃ tokens, Token.tokenize "module m \x7b a = B b = (int* x) \x7d" = .ok tokens ∧
      Grammar.Schema tokens
        ⟨[⟨"m", ⟨1, 1⟩, [⟨"a", ⟨1, 12⟩, .sum [⟨"B", ⟨1, 16⟩, []⟩] []⟩,
          ⟨"b", ⟨1, 18⟩, .product [⟨"x", "int", .repeated, ⟨1, 23⟩⟩]⟩]⟩]⟩ := by
  have hparse : parse "module m \x7b a = B b = (int* x) \x7d" =
      .ok ⟨[⟨"m", ⟨1, 1⟩, [⟨"a", ⟨1, 12⟩, .sum [⟨"B", ⟨1, 16⟩, []⟩] []⟩,
        ⟨"b", ⟨1, 18⟩, .product [⟨"x", "int", .repeated, ⟨1, 23⟩⟩]⟩]⟩]⟩ := rfl
  exact ⟨_, rfl, (((parse_spells rfl).1 _).mp hparse).1⟩

end SchemaTree

end Schemata
