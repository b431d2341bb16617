import Schemata.Proofs.Token.Scanning

/-!
# Texts with other names

`renamed ρ source` is the text with every name in it replaced by what `ρ` gives for it; keywords,
marks, blanks and comments stay. If words are given for names, a text that has tokens keeps them,
each name replaced (`tokenize_renamed`). A scanner that reads the new text is behind one that reads
the old text as long as that one is inside a word, and has caught up when the word ends (`Tracks`).

Nothing is said here about the kinds of the new words: a word that is given for a name may be
reserved.
-/

namespace Schemata.Token

variable {ρ : String → String}

/-! ## Replacing names -/

/-- The names among tokens. -/
def names (tokens : List Token) : List String :=
  (tokens.filter (·.kind = .name)).map Token.text

/-- The names in a text. -/
def namesOf (source : String) : List String :=
  match tokenize source with
  | .ok tokens => names tokens
  | .error _ => []

/-- What a place of a text is inside of: a word, of which the letters before the place are kept last
one first, or a comment. -/
inductive Inside where
  | nothing
  | word (letters : List Char)
  | comment
deriving DecidableEq, Repr

/-- Where the place behind a character is that belongs to no word and no comment before it. -/
def Inside.after (c : Char) : Inside := if c = '-' then comment else nothing

/-- A word, or what is given for it if it is a name. -/
def renamedWord (ρ : String → String) (text : String) : String :=
  if TokenKind.ofWord text = .name then ρ text else text

/-- The rest of a text with the names replaced, and with the word that the place is inside of. -/
def renamedFrom (ρ : String → String) : Inside → List Char → List Char
  | .word letters, [] => (renamedWord ρ (String.ofList letters.reverse)).toList
  | .nothing, [] | .comment, [] => []
  | .nothing, c :: cs =>
    if isWordStart c then renamedFrom ρ (.word [c]) cs
    else c :: renamedFrom ρ (.after c) cs
  | .word letters, c :: cs =>
    if isWordPart c then renamedFrom ρ (.word (c :: letters)) cs
    else (renamedWord ρ (String.ofList letters.reverse)).toList ++ c :: renamedFrom ρ (.after c) cs
  | .comment, c :: cs => c :: renamedFrom ρ (if c = '\n' then .nothing else .comment) cs

/-- The text with its names replaced. -/
def renamed (ρ : String → String) (source : String) : String :=
  String.ofList (renamedFrom ρ .nothing source.toList)

/-- The second token is the first one with what is given for its text if it is a name. -/
structure Renames (ρ : String → String) (t t' : Token) : Prop where
  text : t'.text = if t.kind = .name then ρ t.text else t.text
  kind : t'.kind = if t.kind = .name then .ofWord (ρ t.text) else t.kind

theorem renames_ofWord (start start' : Position) (letters : List Char) :
    Renames ρ (ofWord start letters)
      (ofWord start' (renamedWord ρ (String.ofList letters.reverse)).toList.reverse) := by
  by_cases hname : TokenKind.ofWord (String.ofList letters.reverse) = .name
  · constructor <;> simp [ofWord, renamedWord, hname]
  · constructor <;> simp [ofWord, renamedWord, hname]

theorem renames_of_ne_name {t : Token} (h : t.kind ≠ .name) (p : Position) :
    Renames ρ t ⟨t.kind, t.text, p⟩ :=
  ⟨by rw [if_neg h], by rw [if_neg h]⟩

namespace Scanner

/-! ## Tokens read so far -/

theorem opening_tokens {s s' : Scanner} {tokens : List Token} {c : Char}
    (h : s.opening tokens c = .ok s') : tokens ⊆ s'.tokens := by
  unfold opening at h
  split_ifs at h
  · cases h
    exact List.Subset.refl _
  · cases h
    exact List.Subset.refl _
  · cases h
    exact List.Subset.refl _
  · split at h
    · cases h
      exact List.subset_cons_self _ _
    · cases h

theorem step_tokens {s s' : Scanner} {c : Char} (h : s.step c = .ok s') :
    s.tokens ⊆ s'.tokens := by
  obtain ⟨mode, position, tokens⟩ := s
  cases mode with
  | between => exact opening_tokens h
  | word start letters =>
    simp only [step] at h
    split_ifs at h
    · cases h
      exact List.Subset.refl _
    · exact List.Subset.trans (List.subset_cons_self _ _) (opening_tokens h)
  | dash start =>
    simp only [step] at h
    split_ifs at h
    cases h
    exact List.Subset.refl _
  | comment =>
    cases h
    exact List.Subset.refl _

/-- What has been read is among the tokens of the text. -/
theorem tokens_subset {s t : Scanner} {cs : List Char} {tokens : List Token}
    (hrun : cs.foldlM step s = .ok t) (hfinish : t.finish = .ok tokens) : s.tokens ⊆ tokens := by
  have hread : s.tokens ⊆ t.tokens :=
    Outcome.foldlM_keeps (P := fun t => s.tokens ⊆ t.tokens)
      (fun hs h => List.Subset.trans hs (step_tokens h)) (List.Subset.refl _) hrun
  refine List.Subset.trans hread fun u hu => ?_
  unfold finish at hfinish
  split at hfinish
  · cases hfinish
    exact List.mem_reverse.mpr (List.mem_cons_of_mem _ hu)
  · cases hfinish
    exact List.mem_reverse.mpr (List.mem_cons_of_mem _ hu)
  · cases hfinish
    exact List.mem_reverse.mpr (List.mem_cons_of_mem _ (List.mem_cons_of_mem _ hu))
  · cases hfinish

/-! ## Scanning the new text -/

/-- The first scanner reads a text and is inside of what is said, the second one reads the text with
other names and is where it would be before the word that the first is inside of. -/
inductive Tracks (ρ : String → String) : Inside → Scanner → Scanner → Prop
  | between {p p' : Position} {ts ts' : List Token} : List.Forall₂ (Renames ρ) ts ts' →
    Tracks ρ .nothing ⟨.between, p, ts⟩ ⟨.between, p', ts'⟩
  | word {p p' start : Position} {ts ts' : List Token} {letters : List Char} :
    List.Forall₂ (Renames ρ) ts ts' →
    Tracks ρ (.word letters) ⟨.word start letters, p, ts⟩ ⟨.between, p', ts'⟩
  | dash {p p' start start' : Position} {ts ts' : List Token} :
    List.Forall₂ (Renames ρ) ts ts' →
    Tracks ρ .comment ⟨.dash start, p, ts⟩ ⟨.dash start', p', ts'⟩
  | comment {p p' : Position} {ts ts' : List Token} : List.Forall₂ (Renames ρ) ts ts' →
    Tracks ρ .comment ⟨.comment, p, ts⟩ ⟨.comment, p', ts'⟩

variable {s s' t : Scanner} {ts ts' tokens : List Token} {c : Char} {i : Inside}

/-- A character that begins no word is read in both texts. -/
theorem Tracks.opening (hts : List.Forall₂ (Renames ρ) ts ts') (hc : isWordStart c = false)
    (h : s.opening ts c = .ok t) (s' : Scanner) :
    ∃ t', s'.opening ts' c = .ok t' ∧ Tracks ρ (.after c) t t' := by
  unfold Scanner.opening at h ⊢
  by_cases hblank : isBlank c
  · rw [if_pos hblank] at h ⊢
    cases h
    have hdash : c ≠ '-' := by
      rintro rfl
      exact absurd hblank (by decide)
    refine ⟨_, rfl, ?_⟩
    rw [Inside.after, if_neg hdash]
    exact .between hts
  by_cases hdash : c = '-'
  · rw [if_neg hblank, if_pos hdash] at h ⊢
    cases h
    refine ⟨_, rfl, ?_⟩
    rw [Inside.after, if_pos hdash]
    exact .dash hts
  · simp only [hblank, hdash, hc, Bool.false_eq_true, if_false] at h ⊢
    cases hmark : TokenKind.ofMark? c with
    | none =>
      rw [hmark] at h
      cases h
    | some kind =>
      rw [hmark] at h
      cases h
      refine ⟨_, rfl, ?_⟩
      rw [Inside.after, if_neg hdash]
      refine .between (.cons ?_ hts)
      have hkind : kind ≠ .name := by
        rintro rfl
        exact absurd hmark (by unfold TokenKind.ofMark?; split <;> simp)
      exact renames_of_ne_name (t := ⟨kind, String.singleton c, s.position⟩) hkind _

/-- The word that is given for one that has been read is a word. -/
theorem isWord_renamedWord {text : String} (h : IsWord text)
    (hname : TokenKind.ofWord text = .name → IsWord (ρ text)) : IsWord (renamedWord ρ text) := by
  unfold renamedWord
  split_ifs with hkind
  · exact hname hkind
  · exact h

/-- Having read the character `c`, inside of `i`, the first scanner is at `t`: the new text goes on
with some characters that take the second one from `s'` to where it has to be. -/
def Advances (ρ : String → String) (i : Inside) (c : Char) (t s' : Scanner) : Prop :=
  ∃ out i' t', (∀ cs, renamedFrom ρ i (c :: cs) = out ++ renamedFrom ρ i' cs) ∧
    out.foldlM Scanner.step s' = .ok t' ∧ Tracks ρ i' t t'

theorem advances_between {p p' : Position} (hts : List.Forall₂ (Renames ρ) ts ts')
    (hstep : (⟨.between, p, ts⟩ : Scanner).step c = .ok t) :
    Advances ρ .nothing c t ⟨.between, p', ts'⟩ := by
  cases hc : isWordStart c with
  | true =>
    obtain ⟨hblank, hdash⟩ := not_blank_of_isWordStart hc
    simp only [Scanner.step, Scanner.opening, hblank, hdash, hc, Bool.false_eq_true, if_false,
      if_true] at hstep
    cases hstep
    exact ⟨[], .word [c], _, fun cs => by rw [renamedFrom, if_pos hc]; rfl, rfl, .word hts⟩
  | false =>
    obtain ⟨t', hstep', h'⟩ := Tracks.opening hts hc hstep _
    refine ⟨[c], .after c, t', fun cs => ?_, ?_, h'⟩
    · rw [renamedFrom, hc, if_neg Bool.false_ne_true, List.singleton_append]
    · rw [List.foldlM_cons]
      exact Outcome.bind_eq_ok.mpr ⟨t', hstep', rfl⟩

/-- A word that has ended has its token, and the new text has the word that is given for it. -/
theorem advances_word {p p' start : Position} {letters : List Char}
    (hts : List.Forall₂ (Renames ρ) ts ts') (hword : IsWord (String.ofList letters.reverse))
    (hstep : (⟨.word start letters, p, ts⟩ : Scanner).step c = .ok t)
    (hwords : ∀ u ∈ t.tokens, u.kind = .name → IsWord (ρ u.text)) :
    Advances ρ (.word letters) c t ⟨.between, p', ts'⟩ := by
  by_cases hc : isWordPart c
  · rw [step_word hc] at hstep
    cases hstep
    exact ⟨[], .word (c :: letters), _, fun cs => by rw [renamedFrom, if_pos hc]; rfl, rfl,
      .word hts⟩
  · rw [step_word_end hc] at hstep
    have hstart : isWordStart c = false := by
      rw [Bool.eq_false_iff]
      exact fun hstart => hc (isWordPart_of_isWordStart hstart)
    have hgiven : IsWord (renamedWord ρ (String.ofList letters.reverse)) :=
      isWord_renamedWord hword (hwords _ (opening_tokens hstep List.mem_cons_self))
    have hq := foldlM_word hgiven p' ts'
    obtain ⟨t', hstep', h'⟩ := Tracks.opening
      (.cons (renames_ofWord start p' letters) hts) hstart hstep _
    refine ⟨(renamedWord ρ (String.ofList letters.reverse)).toList ++ [c], .after c, t',
      fun cs => ?_, ?_, h'⟩
    · rw [renamedFrom, if_neg hc, List.append_assoc, List.singleton_append]
    · rw [List.foldlM_append, hq, Outcome.ok_bind, List.foldlM_cons, step_word_end hc, hstep',
        Outcome.ok_bind, List.foldlM_nil]
      rfl

theorem Tracks.step (h : Tracks ρ i s s') (hs : s.Sound) (hstep : s.step c = .ok t)
    (hwords : ∀ u ∈ t.tokens, u.kind = .name → IsWord (ρ u.text)) : Advances ρ i c t s' := by
  cases h with
  | between hts => exact advances_between hts hstep
  | word hts => exact advances_word hts hs.mode hstep hwords
  | dash hts =>
    simp only [Scanner.step] at hstep
    split_ifs at hstep with hdash
    cases hstep
    subst hdash
    exact ⟨['-'], .comment, _, fun cs => rfl, rfl, .comment hts⟩
  | comment hts =>
    cases hstep
    refine ⟨[c], if c = '\n' then .nothing else .comment, _, fun cs => rfl, rfl, ?_⟩
    dsimp only
    split_ifs
    · exact .between hts
    · exact .comment hts

/-- At the end of the old text the new one ends with the same tokens. -/
theorem Tracks.finish (h : Tracks ρ i s s') (hs : s.Sound) (hfinish : s.finish = .ok tokens)
    (hwords : ∀ u ∈ tokens, u.kind = .name → IsWord (ρ u.text)) :
    ∃ t' tokens', (renamedFrom ρ i []).foldlM Scanner.step s' = .ok t' ∧
      t'.finish = .ok tokens' ∧ List.Forall₂ (Renames ρ) tokens tokens' := by
  have hend : ∀ p q : Position, Renames ρ (endOfInput p) (endOfInput q) := fun p q =>
    renames_of_ne_name (t := endOfInput p) (by simp [endOfInput]) q
  cases h with
  | dash hts => cases hfinish
  | between hts =>
    cases hfinish
    exact ⟨_, _, rfl, rfl, List.forall₂_reverse_iff.mpr (.cons (hend _ _) hts)⟩
  | comment hts =>
    cases hfinish
    exact ⟨_, _, rfl, rfl, List.forall₂_reverse_iff.mpr (.cons (hend _ _) hts)⟩
  | @word p p' start ts ts' letters hts =>
    cases hfinish
    have hgiven : IsWord (renamedWord ρ (String.ofList letters.reverse)) :=
      isWord_renamedWord hs.mode (hwords (ofWord start letters) (by simp))
    have hq := foldlM_word hgiven p' ts'
    exact ⟨_, _, hq, rfl, List.forall₂_reverse_iff.mpr
      (.cons (hend _ _) (.cons (renames_ofWord _ _ _) hts))⟩

/-- The new text is read as the old one is. -/
theorem Tracks.run {cs : List Char} (h : Tracks ρ i s s') (hs : s.Sound)
    (hrun : cs.foldlM Scanner.step s = .ok t) (hfinish : t.finish = .ok tokens)
    (hwords : ∀ u ∈ tokens, u.kind = .name → IsWord (ρ u.text)) :
    ∃ t' tokens', (renamedFrom ρ i cs).foldlM Scanner.step s' = .ok t' ∧
      t'.finish = .ok tokens' ∧ List.Forall₂ (Renames ρ) tokens tokens' := by
  induction cs generalizing i s s' with
  | nil =>
    obtain rfl := Outcome.pure_eq_ok.mp hrun
    exact h.finish hs hfinish hwords
  | cons c cs ih =>
    obtain ⟨s₁, hstep, hrest⟩ := Outcome.bind_eq_ok.mp hrun
    obtain ⟨out, i', s₂, hout, hstep', h'⟩ := h.step hs hstep fun u hu =>
      hwords u (tokens_subset hrest hfinish hu)
    obtain ⟨t', tokens', hrest', hfinal⟩ := ih h' (hs.step hstep) hrest
    refine ⟨t', tokens', ?_, hfinal⟩
    rw [hout, List.foldlM_append, hstep', Outcome.ok_bind, hrest']

end Scanner

/-- A text with other words for its names has the same tokens, the names replaced. -/
theorem tokenize_renamed {source : String} {tokens : List Token}
    (h : tokenize source = .ok tokens) (hwords : ∀ u ∈ tokens, u.kind = .name → IsWord (ρ u.text)) :
    ∃ tokens', tokenize (renamed ρ source) = .ok tokens' ∧
      List.Forall₂ (Renames ρ) tokens tokens' := by
  obtain ⟨t, hrun, hfinish⟩ := Outcome.bind_eq_ok.mp h
  obtain ⟨t', tokens', hrun', hfinish', hrenames⟩ :=
    Scanner.Tracks.run (.between .nil) Scanner.sound_initial hrun hfinish hwords
  refine ⟨tokens', ?_, hrenames⟩
  rw [tokenize, renamed, String.toList_ofList]
  exact Outcome.bind_eq_ok.mpr ⟨t', hrun', hfinish'⟩

end Schemata.Token
