import Schemata.Proofs.Outcome
import Schemata.Token.Scan

/-!
# What the tokens of a text are

The tokens of a text end with the end of the input, which stands nowhere else, and every name among
them is a word that is not reserved: a letter or `_`, followed by letters, digits and `_`
(`of_tokenize_eq_ok`). Each character that the scanner reads keeps this of the tokens read so far
and of the word that it is inside of (`Scanner.Sound`).
-/

namespace Schemata.Token

/-- A letter or `_`, followed by letters, digits and `_`. -/
def IsWord (text : String) : Prop :=
  ∃ c cs, text.toList = c :: cs ∧ isWordStart c ∧ ∀ d ∈ cs, isWordPart d

instance (text : String) : Decidable (IsWord text) :=
  match h : text.toList with
  | [] => .isFalse fun ⟨c, cs, htext, _⟩ => by
    rw [h] at htext
    cases htext
  | c :: cs => decidable_of_iff (isWordStart c ∧ cs.all isWordPart) (by
    rw [List.all_eq_true]
    constructor
    · exact fun ⟨hc, hcs⟩ => ⟨c, cs, h, hc, hcs⟩
    · rintro ⟨c', cs', htext, hc, hcs⟩
      rw [h] at htext
      cases htext
      exact ⟨hc, hcs⟩)

theorem isWordPart_of_isWordStart {c : Char} (h : isWordStart c) : isWordPart c := by
  simp only [isWordStart, isWordPart, Char.isAlphanum, Bool.or_eq_true] at h ⊢
  exact h.imp_left .inl

theorem IsWord.isWordPart_of_mem {text : String} (h : IsWord text) {c : Char}
    (hmem : c ∈ text.toList) : isWordPart c := by
  obtain ⟨d, ds, htext, hd, hds⟩ := h
  rw [htext] at hmem
  rcases List.mem_cons.mp hmem with rfl | hmem
  · exact isWordPart_of_isWordStart hd
  · exact hds c hmem

theorem IsWord.notMem {text : String} (h : IsWord text) {c : Char} (hc : isWordPart c = false) :
    c ∉ text.toList := by
  intro hmem
  rw [h.isWordPart_of_mem hmem] at hc
  cases hc

theorem IsWord.dot_notMem {text : String} (h : IsWord text) : '.' ∉ text.toList :=
  h.notMem (by decide)

/-- A word that is neither a keyword nor reserved. -/
structure IsName (text : String) : Prop where
  isWord : IsWord text
  kind : TokenKind.ofWord text = .name

theorem IsName.notMem_reservedWords {text : String} (h : IsName text) :
    text ∉ TokenKind.reservedWords := by
  intro hmem
  have hkind := h.kind
  unfold TokenKind.ofWord at hkind
  split_ifs at hkind

/-- A token that is not the end of the input; if it is a name, its text is one. -/
structure Proper (t : Token) : Prop where
  kind_ne : t.kind ≠ .endOfInput
  isName : t.kind = .name → IsName t.text

/-- What a scanner inside a word has read of it is a word. -/
def Mode.Sound : Mode → Prop
  | .word _ letters => IsWord (String.ofList letters.reverse)
  | _ => True

theorem kind_ofWord_ne (word : String) : TokenKind.ofWord word ≠ .endOfInput := by
  unfold TokenKind.ofWord
  split_ifs <;> simp

theorem proper_ofWord {start : Position} {letters : List Char}
    (h : IsWord (String.ofList letters.reverse)) : (ofWord start letters).Proper :=
  ⟨kind_ofWord_ne _, fun hkind => ⟨h, hkind⟩⟩

/-- Marks are neither names nor the end of the input. -/
theorem proper_ofMark {c : Char} {kind : TokenKind} {text : String} {p : Position}
    (h : TokenKind.ofMark? c = some kind) : Proper ⟨kind, text, p⟩ := by
  unfold TokenKind.ofMark? at h
  split at h <;> cases h <;> exact ⟨by simp, by simp⟩

theorem isWord_singleton {c : Char} (h : isWordStart c) :
    IsWord (String.ofList [c].reverse) :=
  ⟨c, [], by simp, h, by simp⟩

theorem IsWord.extend {letters : List Char} {c : Char}
    (h : IsWord (String.ofList letters.reverse)) (hc : isWordPart c) :
    IsWord (String.ofList (c :: letters).reverse) := by
  obtain ⟨d, ds, htext, hd, hds⟩ := h
  rw [String.toList_ofList] at htext
  refine ⟨d, ds ++ [c], by rw [String.toList_ofList, List.reverse_cons, htext]; rfl, hd, ?_⟩
  intro e he
  rcases List.mem_append.mp he with he | he
  · exact hds e he
  · rwa [List.mem_singleton.mp he]

namespace Scanner

/-- The tokens read are proper, and so will be the word that the scanner is inside of. -/
structure Sound (s : Scanner) : Prop where
  tokens : ∀ t ∈ s.tokens, t.Proper
  mode : s.mode.Sound

theorem sound_initial : initial.Sound := ⟨by simp [initial], trivial⟩

theorem Sound.opening {s s' : Scanner} {tokens : List Token} {c : Char}
    (ht : ∀ t ∈ tokens, t.Proper) (h : s.opening tokens c = .ok s') : s'.Sound := by
  unfold Scanner.opening at h
  split_ifs at h with hblank hdash hstart
  · cases h
    exact ⟨ht, trivial⟩
  · cases h
    exact ⟨ht, trivial⟩
  · cases h
    exact ⟨ht, isWord_singleton hstart⟩
  · split at h
    · rename_i kind hmark
      cases h
      exact ⟨List.forall_mem_cons.mpr ⟨proper_ofMark hmark, ht⟩, trivial⟩
    · cases h

/-- A character keeps the scanner sound. -/
theorem Sound.step {s s' : Scanner} {c : Char} (hs : s.Sound) (h : s.step c = .ok s') :
    s'.Sound := by
  obtain ⟨mode, position, tokens⟩ := s
  cases mode with
  | between => exact Sound.opening hs.tokens h
  | word start letters =>
    simp only [Scanner.step] at h
    split_ifs at h with hc
    · cases h
      exact ⟨hs.tokens, IsWord.extend hs.mode hc⟩
    · exact Sound.opening (List.forall_mem_cons.mpr ⟨proper_ofWord hs.mode, hs.tokens⟩) h
  | dash start =>
    simp only [Scanner.step] at h
    split_ifs at h
    cases h
    exact ⟨hs.tokens, trivial⟩
  | comment =>
    cases h
    refine ⟨hs.tokens, ?_⟩
    dsimp only
    split_ifs <;> trivial

/-- A sound scanner ends with proper tokens before the end of the input. -/
theorem Sound.finish {s : Scanner} {tokens : List Token} (hs : s.Sound)
    (h : s.finish = .ok tokens) :
    ∃ ts p, tokens = ts ++ [endOfInput p] ∧ ∀ t ∈ ts, t.Proper := by
  obtain ⟨mode, position, read⟩ := s
  have ht : ∀ t ∈ read.reverse, t.Proper := fun t h => hs.tokens t (List.mem_reverse.mp h)
  cases mode with
  | dash start => cases h
  | between =>
    cases h
    exact ⟨read.reverse, position, List.reverse_cons, ht⟩
  | comment =>
    cases h
    exact ⟨read.reverse, position, List.reverse_cons, ht⟩
  | word start letters =>
    cases h
    refine ⟨(ofWord start letters :: read).reverse, position, List.reverse_cons, ?_⟩
    intro t h
    rcases List.mem_cons.mp (List.mem_reverse.mp h) with rfl | h
    · exact proper_ofWord hs.mode
    · exact hs.tokens t h

end Scanner

/-- The tokens of a text: proper ones, and then the end of the input. -/
theorem of_tokenize_eq_ok {source : String} {tokens : List Token}
    (h : tokenize source = .ok tokens) :
    ∃ ts p, tokens = ts ++ [endOfInput p] ∧ ∀ t ∈ ts, t.Proper := by
  obtain ⟨s, hs, hfinish⟩ := Outcome.bind_eq_ok.mp h
  have hsound : s.Sound :=
    Outcome.foldlM_keeps (fun hs h => hs.step h) Scanner.sound_initial hs
  exact hsound.finish hfinish

/-- Every name among the tokens of a text is one. -/
theorem isName_of_tokenize_eq_ok {source : String} {tokens : List Token}
    (h : tokenize source = .ok tokens) : ∀ t ∈ tokens, t.kind = .name → IsName t.text := by
  obtain ⟨ts, p, rfl, hts⟩ := of_tokenize_eq_ok h
  rw [List.forall_mem_append, List.forall_mem_singleton]
  exact ⟨fun t ht => (hts t ht).isName, by simp [endOfInput]⟩

end Schemata.Token
