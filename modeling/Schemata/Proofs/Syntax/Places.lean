import Schemata.Proofs.Syntax.Runs

/-!
# Places in the grammar

Which tokens can follow does not depend on the names that were read. The place of a state
(`Parser.State.place`) is what is left of the state without its declarations, and
`Parser.Place.next` says to which place a kind of token leads. Every sequence of the grammar leads
from place to place up to the end (`Parser.Place.run_schema`), and the parser reports a token that
does not fit only where no place is next (`Parser.Place.agrees_step`). So no sequence of the grammar
begins with the tokens up to one that does not fit (`Parser.not_viable_of_step`).
-/

namespace Schemata

/-- A beginning of a token sequence of the grammar. -/
def Grammar.Viable (ts : List Token) : Prop := ∃ us tree, Grammar.Schema (ts ++ us) tree

theorem Grammar.Viable.of_append {ts : List Token} (us : List Token) (h : Viable (ts ++ us)) :
    Viable ts := by
  obtain ⟨vs, tree, h⟩ := h
  exact ⟨us ++ vs, tree, by rwa [← List.append_assoc]⟩

namespace Parser

open Grammar (Many Separated)

/-- Place inside a field list. -/
inductive FieldPlace where
  | opened
  | separated
  | typed
  | marked
  | complete

/-- Place in the grammar; in a field list with the place behind the list. -/
inductive Place where
  | modules
  | moduleKeyword
  | moduleNamed
  | types
  | typeNamed
  | typeEquals
  | afterBar
  | constructorNamed
  | constructors
  | attributesKeyword
  | fields (behind : Place) (stage : FieldPlace)
  | finished

def FieldStage.place : FieldStage → FieldPlace
  | opened => .opened
  | separated => .separated
  | typed _ => .typed
  | marked _ _ => .marked
  | complete => .complete

/-- The place behind the field list of the owner. -/
def FieldOwner.behind : FieldOwner → Place
  | product _ => .types
  | constructor _ _ _ _ => .constructors
  | attributes _ _ => .types

def State.place : State → Place
  | modules _ => .modules
  | moduleKeyword _ _ => .moduleKeyword
  | moduleNamed _ _ _ => .moduleNamed
  | types _ => .types
  | typeNamed _ => .typeNamed
  | typeEquals _ => .typeEquals
  | afterBar _ _ => .afterBar
  | constructorNamed _ _ _ _ => .constructorNamed
  | constructors _ _ => .constructors
  | attributesKeyword _ _ => .attributesKeyword
  | fields owner _ stage => .fields owner.behind stage.place
  | finished _ => .finished

namespace Place

/-- The place inside a field list to which a kind of token leads. -/
def nextField (behind : Place) : FieldPlace → TokenKind → Option Place
  | .opened, .closeParen => some behind
  | .opened, .name | .separated, .name => some (.fields behind .typed)
  | .typed, .star | .typed, .question => some (.fields behind .marked)
  | .typed, .name | .marked, .name => some (.fields behind .complete)
  | .complete, .comma => some (.fields behind .separated)
  | .complete, .closeParen => some behind
  | _, _ => none

/-- The place behind a token among the types of a module. -/
def nextType : TokenKind → Option Place
  | .closeBrace => some .modules
  | .name => some .typeNamed
  | _ => none

/-- The place behind a token that stands behind a complete constructor. -/
def nextConstructor : TokenKind → Option Place
  | .bar => some .afterBar
  | .attributes => some .attributesKeyword
  | kind => nextType kind

/-- The place to which a kind of token leads. -/
def next : Place → TokenKind → Option Place
  | .modules, .module => some .moduleKeyword
  | .modules, .endOfInput => some .finished
  | .moduleKeyword, .name => some .moduleNamed
  | .moduleNamed, .openBrace => some .types
  | .types, kind => nextType kind
  | .typeNamed, .equals => some .typeEquals
  | .typeEquals, .openParen => some (.fields .types .opened)
  | .typeEquals, .name | .afterBar, .name => some .constructorNamed
  | .constructorNamed, .openParen => some (.fields .constructors .opened)
  | .constructorNamed, kind | .constructors, kind => nextConstructor kind
  | .attributesKeyword, .openParen => some (.fields .types .opened)
  | .fields behind stage, kind => nextField behind stage kind
  | .finished, _ => some .finished
  | _, _ => none

/-- The place to which tokens lead. -/
def run (p : Place) (ts : List Token) : Option Place := ts.foldlM (fun p t => p.next t.kind) p

variable {p q behind : Place} {ts us : List Token} {t : Token}

theorem run_append (h : p.run ts = some q) (us : List Token) : p.run (ts ++ us) = q.run us := by
  unfold run at *
  rw [List.foldlM_append, h]
  rfl

theorem run_cons (h : p.next t.kind = some q) (us : List Token) : p.run (t :: us) = q.run us := by
  unfold run
  rw [List.foldlM_cons, h]
  rfl

/-! ## Sequences of the grammar -/

theorem run_field {f : FieldDecl} (hp : p.next .name = some (.fields behind .typed))
    (h : Grammar.Field ts f) : p.run ts = some (.fields behind .complete) := by
  cases h with
  | plain htype hname =>
    rw [run_cons (q := .fields behind .typed) (htype ▸ hp),
      run_cons (q := .fields behind .complete) (hname ▸ rfl)]
    rfl
  | @marked _ mark _ _ htype hmark hname =>
    have hnext : (Place.fields behind .typed).next mark.kind = some (.fields behind .marked) := by
      generalize mark.kind = kind at hmark
      cases hmark <;> rfl
    rw [run_cons (q := .fields behind .typed) (htype ▸ hp), run_cons hnext,
      run_cons (q := .fields behind .complete) (hname ▸ rfl)]
    rfl

theorem run_fieldSequence {fs : List FieldDecl}
    (hp : p.next .name = some (.fields behind .typed))
    (h : Separated .comma Grammar.Field ts fs) : p.run ts = some (.fields behind .complete) := by
  induction h generalizing p with
  | one hf => exact run_field hp hf
  | cons hf ht _ ih =>
    rw [run_append (run_field hp hf), run_cons (q := .fields behind .separated) (ht ▸ rfl)]
    exact ih rfl

theorem run_fields {fs : List FieldDecl} (hp : p.next .openParen = some (.fields behind .opened))
    (h : Grammar.Fields ts fs) : p.run ts = some behind := by
  cases h with
  | empty hl hr =>
    rw [run_cons (q := .fields behind .opened) (hl ▸ hp), run_cons (q := behind) (hr ▸ rfl)]
    rfl
  | filled hl hfs hr =>
    rw [run_cons (q := .fields behind .opened) (hl ▸ hp), run_append (run_fieldSequence rfl hfs),
      run_cons (q := behind) (hr ▸ rfl)]
    rfl

/-- Behind a constructor, with or without fields. -/
inductive BehindConstructor : Place → Prop
  | named : BehindConstructor .constructorNamed
  | closed : BehindConstructor .constructors

/-- Behind a type declaration, which the next token may have to end. -/
inductive BehindType : Place → Prop
  | closed : BehindType .types
  | sum {p : Place} : BehindConstructor p → BehindType p

theorem run_ctor {c : ConstructorDecl} (hp : p.next .name = some .constructorNamed)
    (h : Grammar.Ctor ts c) : ∃ q, p.run ts = some q ∧ BehindConstructor q := by
  cases h with
  | bare hname => exact ⟨_, run_cons (hname ▸ hp) [], .named⟩
  | listed hname hfs =>
    refine ⟨.constructors, ?_, .closed⟩
    rw [run_cons (q := .constructorNamed) (hname ▸ hp), run_fields rfl hfs]

theorem run_constructors {cs : List ConstructorDecl} (hp : p.next .name = some .constructorNamed)
    (h : Separated .bar Grammar.Ctor ts cs) : ∃ q, p.run ts = some q ∧ BehindConstructor q := by
  induction h generalizing p with
  | one hc => exact run_ctor hp hc
  | @cons _ us t _ _ hc ht _ ih =>
    obtain ⟨q, hq, hbehind⟩ := run_ctor hp hc
    have hnext : q.next t.kind = some .afterBar := by
      rw [ht]
      cases hbehind <;> rfl
    rw [run_append hq, run_cons hnext]
    exact ih rfl

theorem run_body {body : TypeBody} (h : Grammar.Body ts body) :
    ∃ q, Place.typeEquals.run ts = some q ∧ BehindType q := by
  cases h with
  | product hfs => exact ⟨_, run_fields rfl hfs, .closed⟩
  | sum hcs hattributes =>
    obtain ⟨q, hq, hbehind⟩ := run_constructors (p := .typeEquals) rfl hcs
    rw [run_append hq]
    cases hattributes with
    | missing => exact ⟨q, rfl, .sum hbehind⟩
    | @given keyword us _ hkeyword hfs =>
      have hnext : q.next keyword.kind = some .attributesKeyword := by
        rw [hkeyword]
        cases hbehind <;> rfl
      rw [run_cons hnext]
      exact ⟨_, run_fields rfl hfs, .closed⟩

theorem run_decls {ds : List TypeDecl} (h : Many Grammar.Decl ts ds) (hp : BehindType p) :
    ∃ q, p.run ts = some q ∧ BehindType q := by
  induction h generalizing p with
  | nil => exact ⟨p, rfl, hp⟩
  | cons hd _ ih =>
    cases hd with
    | @declared name _ _ _ hname hequals hbody =>
      have hnext : p.next name.kind = some .typeNamed := by
        rw [hname]
        obtain _ | ⟨⟨⟩⟩ := hp <;> rfl
      obtain ⟨q, hq, hbehind⟩ := run_body hbody
      rw [List.cons_append, run_cons hnext, List.cons_append,
        run_cons (q := .typeEquals) (hequals ▸ rfl), run_append hq]
      exact ih hbehind

theorem run_module {m : ModuleDecl} (h : Grammar.Module ts m) :
    Place.modules.run ts = some .modules := by
  cases h with
  | @declared _ _ _ r _ _ hkeyword hname hl hds hr =>
    obtain ⟨q, hq, hbehind⟩ := run_decls hds .closed
    have hnext : q.next r.kind = some .modules := by
      rw [hr]
      obtain _ | ⟨⟨⟩⟩ := hbehind <;> rfl
    rw [run_cons (q := .moduleKeyword) (hkeyword ▸ rfl),
      run_cons (q := .moduleNamed) (hname ▸ rfl), run_cons (q := .types) (hl ▸ rfl),
      run_append hq, run_cons hnext]
    rfl

theorem run_modules {ms : List ModuleDecl} (h : Many Grammar.Module ts ms) :
    Place.modules.run ts = some .modules := by
  induction h with
  | nil => rfl
  | cons hm _ ih => rw [run_append (run_module hm), ih]

/-- A sequence of the grammar leads from place to place up to the end. -/
theorem run_schema {tree : SchemaTree} (h : Grammar.Schema ts tree) :
    Place.modules.run ts = some .finished := by
  cases h with
  | modules hms ht =>
    rw [run_append (run_modules hms), run_cons (q := .finished) (ht ▸ rfl)]
    rfl

/-! ## Steps of the parser -/

/-- What the parser does with a token is what the next place says: a state that it goes on with is
there, and a token that it expected otherwise is this one and has no next place. -/
def Agrees (t : Token) (next : Option Place) : Except ParseError State → Prop
  | .ok s => next = some s.place
  | .error (.expected _ found) => found = t ∧ next = none
  | .error _ => True

section Closing

variable (t : Token)

theorem agrees_closeModule (m : OpenModule) : Agrees t (some .modules) (closeModule m) := by
  unfold closeModule
  split_ifs
  · exact trivial
  · rfl

theorem agrees_closeType (type : OpenType) (body : TypeBody) {next : Option Place}
    {step : OpenModule → Except ParseError State} (hstep : ∀ m, Agrees t next (step m)) :
    Agrees t next (closeType type body >>= step) := by
  unfold closeType
  split_ifs
  · exact trivial
  · exact hstep _

theorem agrees_closeConstructor (type : OpenType) (before : List ConstructorDecl)
    (c : ConstructorDecl) {next : Option Place}
    {step : List ConstructorDecl → Except ParseError State} (hstep : ∀ cs, Agrees t next (step cs)) :
    Agrees t next (closeConstructor type before c >>= step) := by
  unfold closeConstructor
  split_ifs
  · exact trivial
  · exact hstep _

theorem agrees_closeFields (owner : FieldOwner) (fs : List FieldDecl) :
    Agrees t (some owner.behind) (closeFields owner fs) := by
  cases owner with
  | product type => exact agrees_closeType t type _ fun _ => rfl
  | constructor type before name position => exact agrees_closeConstructor t type before _ fun _ => rfl
  | attributes type cs =>
    unfold closeFields
    dsimp only
    split
    · exact trivial
    · exact agrees_closeType t type _ fun _ => rfl

theorem agrees_addField (owner : FieldOwner) (fs : List FieldDecl) (typeName : Token)
    (multiplicity : Multiplicity) (name : Token) :
    Agrees t (some (.fields owner.behind .complete))
      (addField owner fs typeName multiplicity name) := by
  unfold addField
  split_ifs
  · exact trivial
  · rfl

end Closing

theorem agrees_stepTypes (m : OpenModule) (t : Token) :
    Agrees t (nextType t.kind) (stepTypes m t) := by
  unfold stepTypes
  cases t.kind with
  | closeBrace => exact agrees_closeModule t m
  | name => rfl
  | _ => exact ⟨rfl, rfl⟩

theorem agrees_stepConstructors (type : OpenType) (cs : List ConstructorDecl) (t : Token) :
    Agrees t (nextConstructor t.kind) (stepConstructors type cs t) := by
  have htypes := agrees_closeType t type (.sum cs []) fun m => agrees_stepTypes m t
  unfold stepConstructors
  revert htypes
  cases t.kind with
  | bar | attributes => exact fun _ => rfl
  | _ => exact id

theorem agrees_stepFields (owner : FieldOwner) (fs : List FieldDecl) (stage : FieldStage)
    (t : Token) :
    Agrees t (nextField owner.behind stage.place t.kind) (stepFields owner fs stage t) := by
  have hclose := agrees_closeFields t owner fs
  have hadd := agrees_addField t owner fs
  unfold stepFields
  cases stage with
  | opened | separated | complete => cases t.kind <;> first | exact hclose | exact ⟨rfl, rfl⟩ | rfl
  | typed type => cases t.kind <;> first | exact hadd type .single t | exact ⟨rfl, rfl⟩ | rfl
  | marked type multiplicity =>
    cases t.kind <;> first | exact hadd type multiplicity t | exact ⟨rfl, rfl⟩

/-- The parser does with a token what its place says. -/
theorem agrees_step (s : State) (t : Token) : Agrees t (s.place.next t.kind) (s.step t) := by
  unfold State.step
  cases s with
  | types m => exact agrees_stepTypes m t
  | constructors type cs => exact agrees_stepConstructors type cs t
  | constructorNamed type before name position =>
    have hconstructors := agrees_closeConstructor t type before ⟨name, position, []⟩ fun cs =>
      agrees_stepConstructors type cs t
    dsimp only
    revert hconstructors
    cases t.kind with
    | openParen => exact fun _ => rfl
    | _ => exact id
  | fields owner fs stage => exact agrees_stepFields owner fs stage t
  | finished ms => rfl
  | _ => dsimp only; cases t.kind <;> first | exact ⟨rfl, rfl⟩ | rfl

/-- The parser goes from place to place. -/
theorem run_of_run {s s' : State} (h : s.run ts = .ok s') : s.place.run ts = some s'.place := by
  induction ts generalizing s with
  | nil =>
    obtain rfl := Except.ok.inj h
    rfl
  | cons t ts ih =>
    rw [State.run_cons] at h
    obtain ⟨s₁, hstep, h⟩ := Outcome.bind_eq_ok.mp h
    have hagrees := agrees_step s t
    rw [hstep] at hagrees
    rw [run_cons hagrees, ih h]

end Place

/-- No sequence of the grammar begins with the tokens up to one that the parser expected
otherwise. -/
theorem not_viable_of_step {s : State} {ts : List Token} {t found : Token} {what : Expectation}
    (hs : (State.modules []).run ts = .ok s) (h : s.step t = .error (.expected what found)) :
    found = t ∧ ¬ Grammar.Viable (ts ++ [t]) := by
  have hagrees := Place.agrees_step s t
  rw [h] at hagrees
  refine ⟨hagrees.1, fun ⟨us, tree, hschema⟩ => ?_⟩
  have hrun := Place.run_schema hschema
  have hplace : Place.modules.run ts = some s.place := Place.run_of_run hs
  rw [List.append_assoc, Place.run_append hplace, Place.run, List.singleton_append,
    List.foldlM_cons, hagrees.2] at hrun
  cases hrun

end Parser

end Schemata
