import Schemata.Proofs.Token.Words

/-!
# Reading words letter by letter

A scanner between tokens that reads a word is inside of it behind the last letter
(`Scanner.foldlM_word`), and a character that does not go on with the word is read as if the scanner
were between tokens again, the word being one of them.
-/

namespace Schemata.Token

theorem not_blank_of_isWordStart {c : Char} (h : isWordStart c) : isBlank c = false ∧ c ≠ '-' := by
  constructor
  · by_contra hblank
    rw [Bool.not_eq_false] at hblank
    simp only [isBlank, Bool.or_eq_true, decide_eq_true_eq] at hblank
    rcases hblank with ((rfl | rfl) | rfl) | rfl <;> exact absurd h (by decide)
  · rintro rfl
    exact absurd h (by decide)

namespace Scanner

theorem step_word {c : Char} (hc : isWordPart c) (start p : Position) (letters : List Char)
    (tokens : List Token) :
    step ⟨.word start letters, p, tokens⟩ c =
      .ok ⟨.word start (c :: letters), p.after c, tokens⟩ :=
  if_pos hc

theorem step_word_end {c : Char} (hc : ¬isWordPart c) (start p : Position) (letters : List Char)
    (tokens : List Token) :
    step ⟨.word start letters, p, tokens⟩ c =
      opening ⟨.word start letters, p, tokens⟩ (ofWord start letters :: tokens) c :=
  if_neg hc

theorem foldlM_letters {cs : List Char} (h : ∀ c ∈ cs, isWordPart c) (start p : Position)
    (letters : List Char) (tokens : List Token) :
    cs.foldlM step ⟨.word start letters, p, tokens⟩ =
      .ok ⟨.word start (cs.reverse ++ letters), cs.foldl Position.after p, tokens⟩ := by
  induction cs generalizing p letters with
  | nil => rfl
  | cons c cs ih =>
    obtain ⟨hc, hcs⟩ := List.forall_mem_cons.mp h
    rw [List.foldlM_cons, step_word hc, Outcome.ok_bind, ih hcs, List.reverse_cons,
      List.append_assoc, List.singleton_append, List.foldl_cons]

/-- A scanner between tokens reads a word letter by letter. -/
theorem foldlM_word {text : String} (h : IsWord text) (p : Position) (tokens : List Token) :
    text.toList.foldlM step ⟨.between, p, tokens⟩ =
      .ok ⟨.word p text.toList.reverse, text.toList.foldl Position.after p, tokens⟩ := by
  obtain ⟨c, cs, htext, hc, hcs⟩ := h
  obtain ⟨hblank, hdash⟩ := not_blank_of_isWordStart hc
  have hstep : step ⟨.between, p, tokens⟩ c = .ok ⟨.word p [c], p.after c, tokens⟩ := by
    simp [step, opening, hblank, hdash, hc]
  rw [htext, List.foldlM_cons, hstep, Outcome.ok_bind, foldlM_letters hcs, List.reverse_cons,
    List.foldl_cons]

end Scanner

end Schemata.Token
