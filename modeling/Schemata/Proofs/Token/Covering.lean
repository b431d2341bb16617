import Mathlib.Data.List.TakeWhile
import Schemata.Proofs.Token.Scanning

/-!
# Tokens and what stands between them

A text that has tokens consists of them and of gaps, which hold blanks and comments (`Covers`);
every token is a mark or a word that is as long as it can be, and has the position that counting
lines and 16-bit units gives it (`Position.behind`). A text has no tokens exactly if a reader who
takes gaps and tokens off it comes to a character that begins neither (`BreaksOff`), and this
character is reported. `tokenize_covers` says both.

`Reads` is the way of this reader. A scanner that has come as far goes on like one that stands
between tokens (`Scanner.scan_of_reads`), though it may still be inside of a word or a comment: the
next character ends them, and is read then. Since the reader always comes to the end or to such a
character (`Reads.covers_or_breaksOff`), there is nothing else for the scanner to do.
-/

namespace Schemata

theorem Text.length_charUnits (c : Char) : (charUnits c).length = width c := by
  unfold charUnits width
  split_ifs <;> rfl

namespace Position

/-- The position behind the beginning of a text: a line for each line end, and a column for each
16-bit unit behind the last of them. -/
def behind (before : List Char) : Position :=
  ⟨1 + before.count '\n',
    1 + ((before.reverse.takeWhile (· ≠ '\n')).flatMap Text.charUnits).length⟩

theorem after_behind (before : List Char) (c : Char) :
    (behind before).after c = behind (before ++ [c]) := by
  unfold after behind
  rw [List.reverse_append, List.count_append]
  by_cases hc : c = '\n'
  · subst hc
    simp [Int.add_assoc]
  · have hcount : [c].count '\n' = 0 := List.count_eq_zero.mpr (by simpa using Ne.symm hc)
    simp [hc, Text.length_charUnits, Int.add_left_comm, Int.add_comm]

theorem foldl_after_behind (before cs : List Char) :
    cs.foldl after (behind before) = behind (before ++ cs) := by
  induction cs generalizing before with
  | nil => rw [List.append_nil, List.foldl_nil]
  | cons c cs ih => rw [List.foldl_cons, after_behind, ih, List.append_assoc, List.singleton_append]

end Position

namespace Token

/-! ## Gaps and tokens -/

/-- What may stand between tokens in front of `rest`: blanks, and comments that go on from two
dashes up to the next line end or the end of the text. -/
inductive Gap : List Char → List Char → Prop
  | nil {rest : List Char} : Gap [] rest
  | blank {c : Char} {gap rest : List Char} : isBlank c → Gap gap rest → Gap (c :: gap) rest
  | comment {body gap rest : List Char} :
    '\n' ∉ body → (∀ c ∈ (gap ++ rest).head?, c = '\n') → Gap gap rest →
    Gap ('-' :: '-' :: (body ++ gap)) rest

/-- In front of `rest`, the token is a mark, or a word that does not go on there. -/
inductive Lexeme (rest : List Char) : Token → Prop
  | mark {c : Char} {kind : TokenKind} {p : Position} :
    TokenKind.ofMark? c = some kind → Lexeme rest ⟨kind, String.singleton c, p⟩
  | word {text : String} {p : Position} :
    IsWord text → (∀ c ∈ rest.head?, isWordPart c = false) → Lexeme rest ⟨.ofWord text, text, p⟩

/-- The beginning `before` of a text, which goes on with `rest`, consists of the tokens `ts` with a
gap in front of each, and they have the positions where they stand. -/
inductive Reads : List Char → List Token → List Char → Prop
  | start {text : List Char} : Reads [] [] text
  | token {before gap rest : List Char} {ts : List Token} {t : Token} :
    Reads before ts (gap ++ (t.text.toList ++ rest)) → Gap gap (t.text.toList ++ rest) →
    Lexeme rest t → t.position = .behind (before ++ gap) →
    Reads (before ++ gap ++ t.text.toList) (ts ++ [t]) rest

/-- The text consists of the tokens, gaps around them, and the end of the input behind it. -/
inductive Covers : List Char → List Token → Prop
  | mk {before gap : List Char} {ts : List Token} :
    Reads before ts gap → Gap gap [] →
    Covers (before ++ gap) (ts ++ [.endOfInput (.behind (before ++ gap))])

/-- In front of `rest` the character is no blank or mark, and begins no word or comment. -/
structure BeginsNothing (c : Char) (rest : List Char) : Prop where
  blank : isBlank c = false
  mark : TokenKind.ofMark? c = none
  word : isWordStart c = false
  comment : c = '-' → rest.head? ≠ some '-'

/-- The error that a character begins nothing. -/
def errorAt (c : Char) (p : Position) : LexError :=
  if c = '-' then .unpairedDash p else .unexpected c p

/-- Behind some tokens of the text and a gap there is a character that begins nothing. -/
inductive BreaksOff : List Char → LexError → Prop
  | mk {before gap rest : List Char} {ts : List Token} {c : Char} :
    Reads before ts (gap ++ c :: rest) → Gap gap (c :: rest) → BeginsNothing c rest →
    BreaksOff (before ++ (gap ++ c :: rest)) (errorAt c (.behind (before ++ gap)))

theorem Lexeme.proper {rest : List Char} {t : Token} (h : Lexeme rest t) :
    t.kind ≠ .endOfInput ∧ t.text ≠ "" := by
  cases h with
  | @mark _ kind p hmark =>
    have hproper : Token.Proper ⟨kind, "", p⟩ := proper_ofMark hmark
    exact ⟨hproper.kind_ne, by simp⟩
  | word hword _ =>
    refine ⟨kind_ofWord_ne _, ?_⟩
    rintro rfl
    obtain ⟨c, cs, htext, -⟩ := hword
    cases htext

theorem Reads.proper {before rest : List Char} {ts : List Token} (h : Reads before ts rest) :
    ∀ t ∈ ts, t.kind ≠ .endOfInput ∧ t.text ≠ "" := by
  induction h with
  | start => simp
  | token _ _ hlexeme _ ih =>
    rw [List.forall_mem_append, List.forall_mem_singleton]
    exact ⟨ih, hlexeme.proper⟩

/-! ## The reader always comes to an end -/

/-- A text begins with a gap behind which there is none. -/
theorem exists_gap (cs : List Char) : ∃ gap rest, cs = gap ++ rest ∧ Gap gap rest ∧
    ∀ c tail, rest = c :: tail → isBlank c = false ∧ (c = '-' → tail.head? ≠ some '-') := by
  induction h : cs.length using Nat.strongRecOn generalizing cs with
  | ind n ih =>
    subst h
    cases cs with
    | nil => exact ⟨[], [], rfl, .nil, by simp⟩
    | cons c cs =>
      by_cases hblank : isBlank c
      · obtain ⟨gap, rest, rfl, hgap, hrest⟩ := ih cs.length (by simp) cs rfl
        exact ⟨c :: gap, rest, rfl, .blank hblank hgap, hrest⟩
      by_cases hcomment : c = '-' ∧ cs.head? = some '-'
      · obtain ⟨rfl, hhead⟩ := hcomment
        obtain ⟨tail, rfl⟩ := List.head?_eq_some_iff.mp hhead
        have hlength := List.length_dropWhile_le (fun c : Char => decide (c ≠ '\n')) tail
        obtain ⟨gap, rest, htail, hgap, hrest⟩ :=
          ih (tail.dropWhile (· ≠ '\n')).length (by simp only [List.length_cons]; omega) _ rfl
        refine ⟨'-' :: '-' :: (tail.takeWhile (· ≠ '\n') ++ gap), rest, ?_, .comment ?_ ?_ hgap, hrest⟩
        · rw [List.cons_append, List.cons_append, List.append_assoc, ← htail,
            List.takeWhile_append_dropWhile]
        · intro hmem
          simpa using List.mem_takeWhile_imp hmem
        · intro d hd
          rw [← htail] at hd
          have hne := List.head?_dropWhile_not (fun c : Char => decide (c ≠ '\n')) tail
          rw [Option.mem_def.mp hd] at hne
          simpa using hne
      · refine ⟨[], c :: cs, rfl, .nil, ?_⟩
        rintro d tail heq
        obtain ⟨rfl, rfl⟩ := List.cons.inj heq
        exact ⟨by simpa using hblank, fun hdash hhead => hcomment ⟨hdash, hhead⟩⟩

/-- A character that is no blank and begins no comment is a mark, or begins a word, or nothing. -/
theorem lexeme_or_beginsNothing {c : Char} {tail : List Char} (hblank : isBlank c = false)
    (hcomment : c = '-' → tail.head? ≠ some '-') (p : Position) :
    (∃ t rest, c :: tail = t.text.toList ++ rest ∧ t.position = p ∧ Lexeme rest t) ∨
      BeginsNothing c tail := by
  cases hmark : TokenKind.ofMark? c with
  | some kind =>
    exact .inl ⟨⟨kind, String.singleton c, p⟩, tail, by simp, rfl, .mark hmark⟩
  | none =>
    cases hword : isWordStart c with
    | false => exact .inr ⟨hblank, hmark, hword, hcomment⟩
    | true =>
      let text := String.ofList (c :: tail.takeWhile isWordPart)
      have htext : IsWord text :=
        ⟨c, _, String.toList_ofList, hword, fun d hd => List.mem_takeWhile_imp hd⟩
      refine .inl ⟨⟨.ofWord text, text, p⟩, tail.dropWhile isWordPart, ?_, rfl, .word htext ?_⟩
      · rw [String.toList_ofList, List.cons_append, List.takeWhile_append_dropWhile]
      · intro d hd
        have hnot := List.head?_dropWhile_not isWordPart tail
        rw [Option.mem_def.mp hd] at hnot
        exact hnot

/-- Going on with gaps and tokens one comes to the end of the text or to a character that begins
nothing. -/
theorem Reads.covers_or_breaksOff {before rest : List Char} {ts : List Token}
    (h : Reads before ts rest) :
    (∃ tokens, Covers (before ++ rest) tokens) ∨ ∃ e, BreaksOff (before ++ rest) e := by
  induction hlength : rest.length using Nat.strongRecOn generalizing before ts rest with
  | ind n ih =>
    subst hlength
    obtain ⟨gap, rest, rfl, hgap, hrest⟩ := exists_gap rest
    cases rest with
    | nil =>
      rw [List.append_nil] at h ⊢
      exact .inl ⟨_, .mk h hgap⟩
    | cons c tail =>
      obtain ⟨hblank, hcomment⟩ := hrest c tail rfl
      rcases lexeme_or_beginsNothing hblank hcomment (.behind (before ++ gap)) with
        ⟨t, rest, hsplit, hposition, hlexeme⟩ | hnothing
      · rw [hsplit] at h hgap ⊢
        have hne : t.text.toList ≠ [] := fun hnil =>
          hlexeme.proper.2 (String.toList_injective hnil)
        have hshort := List.length_pos_iff.mpr hne
        have hlt : rest.length < (gap ++ (t.text.toList ++ rest)).length := by
          simp only [List.length_append]
          omega
        have hnext := ih rest.length (by rwa [hsplit]) (.token h hgap hlexeme hposition) rfl
        simpa only [List.append_assoc] using hnext
      · exact .inr ⟨_, .mk h hgap hnothing⟩

/-! ## The scanner follows the reader -/

namespace Scanner

variable {s t : Scanner} {ts : List Token} {p start : Position} {letters rest : List Char} {c : Char}

/-- The tokens of a text whose beginning has been read. -/
def scan (s : Scanner) (rest : List Char) : Except LexError (List Token) := do
  (← rest.foldlM step s).finish

theorem scan_cons (h : s.step c = .ok t) : s.scan (c :: rest) = t.scan rest := by
  rw [scan, List.foldlM_cons, h]
  rfl

theorem scan_cons_error {e : LexError} (h : s.step c = .error e) :
    s.scan (c :: rest) = .error e := by
  rw [scan, List.foldlM_cons, h]
  rfl

theorem scan_append {cs : List Char} (h : cs.foldlM step s = .ok t) :
    s.scan (cs ++ rest) = t.scan rest := by
  rw [scan, List.foldlM_append, h]
  rfl

/-- A comment ends before the line end. -/
theorem scan_comment (h : ∀ c ∈ rest.head?, c = '\n') :
    scan ⟨.comment, p, ts⟩ rest = scan ⟨.between, p, ts⟩ rest := by
  cases rest with
  | nil => rfl
  | cons c rest =>
    obtain rfl := h c rfl
    have hcomment : step ⟨.comment, p, ts⟩ '\n' = .ok ⟨.between, p.after '\n', ts⟩ := rfl
    have hbetween : step ⟨.between, p, ts⟩ '\n' = .ok ⟨.between, p.after '\n', ts⟩ := rfl
    rw [scan_cons hcomment, scan_cons hbetween]

/-- A word ends before a character that it does not go on with. -/
theorem scan_word (h : ∀ c ∈ rest.head?, isWordPart c = false) :
    scan ⟨.word start letters, p, ts⟩ rest =
      scan ⟨.between, p, ofWord start letters :: ts⟩ rest := by
  cases rest with
  | nil => rfl
  | cons c rest =>
    have hc : ¬isWordPart c := by simp [h c rfl]
    rw [scan, scan, List.foldlM_cons, List.foldlM_cons, step_word_end hc]
    rfl

theorem foldlM_comment {body : List Char} (h : '\n' ∉ body) :
    body.foldlM step ⟨.comment, p, ts⟩ = .ok ⟨.comment, body.foldl Position.after p, ts⟩ := by
  induction body generalizing p with
  | nil => rfl
  | cons c body ih =>
    obtain ⟨hc, hbody⟩ := not_or.mp (mt List.mem_cons.mpr h)
    have hstep : step ⟨.comment, p, ts⟩ c = .ok ⟨.comment, p.after c, ts⟩ := by
      simp [step, Ne.symm hc]
    rw [List.foldlM_cons, hstep, Outcome.ok_bind, ih hbody, List.foldl_cons]

/-- A gap is passed over. -/
theorem scan_gap {gap : List Char} (h : Gap gap rest) :
    scan ⟨.between, p, ts⟩ (gap ++ rest) =
      scan ⟨.between, gap.foldl Position.after p, ts⟩ rest := by
  induction h generalizing p with
  | nil => rfl
  | @blank c gap rest hc _ ih =>
    have hstep : step ⟨.between, p, ts⟩ c = .ok ⟨.between, p.after c, ts⟩ := by
      simp [step, opening, hc]
    rw [List.cons_append, scan_cons hstep, ih, List.foldl_cons]
  | @comment body gap rest hbody hend _ ih =>
    have hfirst : step ⟨.between, p, ts⟩ '-' = .ok ⟨.dash p, p.after '-', ts⟩ := rfl
    have hsecond : step ⟨.dash p, p.after '-', ts⟩ '-' =
        .ok ⟨.comment, (p.after '-').after '-', ts⟩ := rfl
    rw [List.cons_append, List.cons_append, List.append_assoc, scan_cons hfirst, scan_cons hsecond,
      scan_append (foldlM_comment hbody), scan_comment hend, ih, List.foldl_cons, List.foldl_cons,
      List.foldl_append]

/-- A token is read. -/
theorem scan_lexeme {u : Token} (h : Lexeme rest u) :
    scan ⟨.between, u.position, ts⟩ (u.text.toList ++ rest) =
      scan ⟨.between, u.text.toList.foldl Position.after u.position, u :: ts⟩ rest := by
  cases h with
  | @mark c kind p hmark =>
    have hstep : step ⟨.between, p, ts⟩ c =
        .ok ⟨.between, p.after c, ⟨kind, String.singleton c, p⟩ :: ts⟩ := by
      unfold TokenKind.ofMark? at hmark
      split at hmark <;> cases hmark <;> rfl
    rw [String.toList_singleton, List.singleton_append, scan_cons hstep]
    rfl
  | @word text p hword hend =>
    have htext : ofWord p text.toList.reverse = ⟨.ofWord text, text, p⟩ := by
      rw [ofWord, List.reverse_reverse, String.ofList_toList]
    rw [scan_append (foldlM_word hword p ts), scan_word hend, htext]

/-- A character that begins nothing is reported. -/
theorem scan_beginsNothing (h : BeginsNothing c rest) :
    scan ⟨.between, p, ts⟩ (c :: rest) = .error (errorAt c p) := by
  by_cases hdash : c = '-'
  · subst hdash
    have hfirst : step ⟨.between, p, ts⟩ '-' = .ok ⟨.dash p, p.after '-', ts⟩ := rfl
    rw [scan_cons hfirst]
    cases rest with
    | nil => rfl
    | cons d rest =>
      have hd : d ≠ '-' := fun heq => h.comment rfl (congrArg some heq)
      have hsecond : step ⟨.dash p, p.after '-', ts⟩ d = .error (.unpairedDash p) := if_neg hd
      rw [scan_cons_error hsecond]
      rfl
  · have hstep : step ⟨.between, p, ts⟩ c = .error (.unexpected c p) := by
      simp [step, opening, h.blank, hdash, h.word, h.mark]
    rw [scan_cons_error hstep, errorAt, if_neg hdash]

/-- Behind some tokens of a text the scanner goes on as if it stood between tokens. -/
theorem scan_of_reads {before : List Char} (h : Reads before ts rest) :
    initial.scan (before ++ rest) = scan ⟨.between, .behind before, ts.reverse⟩ rest := by
  induction h with
  | start => rfl
  | @token before gap rest ts t _ hgap hlexeme hposition ih =>
    rw [List.append_assoc, List.append_assoc, ih, scan_gap hgap, Position.foldl_after_behind,
      ← hposition, scan_lexeme hlexeme, hposition, Position.foldl_after_behind,
      List.append_assoc, List.reverse_append]
    rfl

theorem scan_of_covers {text : List Char} {tokens : List Token} (h : Covers text tokens) :
    initial.scan text = .ok tokens := by
  cases h with
  | @mk before gap ts hreads hgap =>
    rw [scan_of_reads hreads, ← List.append_nil gap, scan_gap hgap, Position.foldl_after_behind,
      scan, List.foldlM_nil, pure_bind]
    simp only [finish, List.reverse_cons, List.reverse_reverse, List.append_nil]

theorem scan_of_breaksOff {text : List Char} {e : LexError} (h : BreaksOff text e) :
    initial.scan text = .error e := by
  obtain ⟨hreads, hgap, hnothing⟩ := h
  rw [scan_of_reads hreads, scan_gap hgap, Position.foldl_after_behind, scan_beginsNothing hnothing]

end Scanner

/-- A text consists of tokens and gaps, or breaks off. -/
theorem covers_or_breaksOff (text : List Char) :
    (∃ tokens, Covers text tokens) ∨ ∃ e, BreaksOff text e := by
  have hreads : Reads [] [] text := .start
  exact hreads.covers_or_breaksOff

theorem tokenize_eq_scan (source : String) :
    tokenize source = Scanner.initial.scan source.toList := rfl

theorem tokenize_eq_ok_iff {source : String} {tokens : List Token} :
    tokenize source = .ok tokens ↔ Covers source.toList tokens := by
  rw [tokenize_eq_scan]
  refine ⟨fun h => ?_, Scanner.scan_of_covers⟩
  rcases covers_or_breaksOff source.toList with ⟨us, hus⟩ | ⟨e, he⟩
  · rw [Scanner.scan_of_covers hus] at h
    exact Except.ok.inj h ▸ hus
  · rw [Scanner.scan_of_breaksOff he] at h
    cases h

theorem tokenize_eq_error_iff {source : String} {e : LexError} :
    tokenize source = .error e ↔ BreaksOff source.toList e := by
  rw [tokenize_eq_scan]
  refine ⟨fun h => ?_, Scanner.scan_of_breaksOff⟩
  rcases covers_or_breaksOff source.toList with ⟨us, hus⟩ | ⟨e', he'⟩
  · rw [Scanner.scan_of_covers hus] at h
    cases h
  · rw [Scanner.scan_of_breaksOff he'] at h
    exact Except.error.inj h ▸ he'

theorem Covers.proper {text : List Char} {tokens : List Token} (h : Covers text tokens) :
    ∃ ts, tokens = ts ++ [.endOfInput (.behind text)] ∧
      ∀ t ∈ ts, t.kind ≠ .endOfInput ∧ t.text ≠ "" := by
  obtain ⟨hreads, -⟩ := h
  exact ⟨_, rfl, hreads.proper⟩

/-- The tokens of a text are those that it consists of, gaps apart, with the positions where they
stand; the last of them, and only this one, is the end of the input, and stands behind the text. A
text that does not consist of tokens and gaps has no tokens, and the error is that of the first
character that begins nothing. -/
theorem tokenize_covers (source : String) :
    (∀ tokens, tokenize source = .ok tokens ↔ Covers source.toList tokens) ∧
    (∀ e, tokenize source = .error e ↔ BreaksOff source.toList e) ∧
    ∀ tokens, tokenize source = .ok tokens →
      ∃ ts, tokens = ts ++ [.endOfInput (.behind source.toList)] ∧
        ∀ t ∈ ts, t.kind ≠ .endOfInput ∧ t.text ≠ "" :=
  ⟨fun _ => tokenize_eq_ok_iff, fun _ => tokenize_eq_error_iff,
    fun _ h => (tokenize_eq_ok_iff.mp h).proper⟩

/-- A comment may go on to the end of the text, and a character beyond U+FFFF takes two columns. -/
example : tokenize "a\n --😀" =
    .ok [⟨.name, "a", ⟨1, 1⟩⟩, .endOfInput ⟨2, 6⟩] := rfl

end Token

end Schemata
