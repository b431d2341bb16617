import Schemata.Proofs.Text.Quoted

/-!
# Where the pieces of a text end

A text is read from left to right: outside of quotation marks the reader counts how many brackets
are open, and it stops in front of a comma or a closing bracket when none is (`Text.Reader.split`).
A piece is a text that never makes the reader stop and at the end of which it is where it was
(`Text.Piece`). Numbers, words, quoted texts and what is put together from pieces inside of brackets
are pieces. So from a text that consists of pieces with commas in between the pieces are read back
(`Text.intercalate_injective`).
-/

namespace Schemata.Text

/-- Where a reader is: outside of quotation marks, inside of them, or there behind a backslash, each
with the number of open brackets. -/
inductive Reader where
  | outside (depth : Nat)
  | quoted (depth : Nat)
  | escaped (depth : Nat)

/-- Read a character, or stop in front of it. -/
def Reader.step : Reader → Char → Option Reader
  | outside depth, c =>
    if c = '"' then some (quoted depth)
    else if c = '(' ∨ c = '[' then some (outside (depth + 1))
    else if c = ')' ∨ c = ']' then if depth = 0 then none else some (outside (depth - 1))
    else if c = ',' then if depth = 0 then none else some (outside depth)
    else some (outside depth)
  | quoted depth, c =>
    if c = '"' then some (outside depth)
    else if c = '\\' then some (escaped depth)
    else some (quoted depth)
  | escaped depth, _ => some (quoted depth)

/-- Read characters, if the reader does not stop in front of one of them. -/
def Reader.run (r : Reader) (cs : List Char) : Option Reader := cs.foldlM step r

/-- What is read until the reader stops, and what is left. -/
def Reader.split (r : Reader) : List Char → List Char × List Char
  | [] => ([], [])
  | c :: cs =>
    match r.step c with
    | none => ([], c :: cs)
    | some r' => (c :: (r'.split cs).1, (r'.split cs).2)

/-- The reader reads all of the text and is then where it was, at every depth from the given one
on. -/
def Piece (depth : Nat) (cs : List Char) : Prop :=
  ∀ d, depth ≤ d → (Reader.outside d).run cs = some (.outside d)

/-- The marks at which a piece ends. -/
def Closes (cs : List Char) : Prop := ∀ c ∈ cs.head?, c = ',' ∨ c = ')' ∨ c = ']'

/-- A character that stands for itself outside of quotation marks. -/
def Plain (c : Char) : Prop :=
  c ≠ '"' ∧ c ≠ '(' ∧ c ≠ '[' ∧ c ≠ ')' ∧ c ≠ ']' ∧ c ≠ ','

variable {r r' r'' : Reader} {a b cs ds x y : List Char} {depth depth' : Nat}

theorem Reader.run_cons {c : Char} (hstep : r.step c = some r') (h : r'.run cs = some r'') :
    r.run (c :: cs) = some r'' :=
  Option.bind_eq_some_iff.mpr ⟨r', hstep, h⟩

theorem Reader.run_append (h : r.run a = some r') (h' : r'.run b = some r'') :
    r.run (a ++ b) = some r'' := by
  rw [run, List.foldlM_append]
  exact Option.bind_eq_some_iff.mpr ⟨r', h, h'⟩

theorem Reader.split_append (h : r.run a = some r') (x : List Char) :
    r.split (a ++ x) = (a ++ (r'.split x).1, (r'.split x).2) := by
  induction a generalizing r with
  | nil =>
    obtain rfl := Option.some.inj h
    rfl
  | cons c cs ih =>
    obtain ⟨r₁, hstep, h⟩ := Option.bind_eq_some_iff.mp h
    rw [List.cons_append, split, hstep]
    dsimp only
    rw [ih h, List.cons_append]

theorem Reader.split_closes (h : Closes x) : (outside 0).split x = ([], x) := by
  cases x with
  | nil => rfl
  | cons c x =>
    have hc := h c rfl
    have hstep : (outside 0).step c = none := by
      rcases hc with rfl | rfl | rfl <;> rfl
    rw [split, hstep]

/-- Where two texts begin with a piece each and go on with a mark at which pieces end, the pieces
are the same if the texts are. -/
theorem Piece.append_inj (ha : Piece 0 a) (hb : Piece 0 b) (hx : Closes x) (hy : Closes y)
    (h : a ++ x = b ++ y) : a = b ∧ x = y := by
  have hsplit := congrArg (Reader.outside 0).split h
  rw [Reader.split_append (ha 0 (Nat.le_refl 0)), Reader.split_append (hb 0 (Nat.le_refl 0)),
    Reader.split_closes hx, Reader.split_closes hy, List.append_nil, List.append_nil] at hsplit
  exact Prod.mk.inj hsplit

namespace Piece

/-! ## What is a piece -/

theorem nil : Piece depth [] := fun _ _ => rfl

theorem append (ha : Piece depth a) (hb : Piece depth b) : Piece depth (a ++ b) :=
  fun d hd => Reader.run_append (ha d hd) (hb d hd)

theorem mono (ha : Piece depth a) (h : depth ≤ depth') : Piece depth' a :=
  fun d hd => ha d (Nat.le_trans h hd)

theorem cons {c : Char} (hc : Plain c) (ha : Piece depth a) : Piece depth (c :: a) := by
  intro d hd
  obtain ⟨h₁, h₂, h₃, h₄, h₅, h₆⟩ := hc
  have hstep : (Reader.outside d).step c = some (.outside d) := by
    simp only [Reader.step, h₁, h₂, h₃, h₄, h₅, h₆, or_self, if_false]
  exact Reader.run_cons hstep (ha d hd)

theorem of_plain (h : ∀ c ∈ cs, Plain c) : Piece depth cs := by
  induction cs with
  | nil => exact nil
  | cons c cs ih =>
    obtain ⟨hc, hcs⟩ := List.forall_mem_cons.mp h
    exact (ih hcs).cons hc

/-- A comma does not end a piece inside of brackets. -/
theorem comma (ha : Piece 1 a) : Piece 1 (',' :: a) := by
  intro d hd
  have hstep : (Reader.outside d).step ',' = some (.outside d) :=
    if_neg (Nat.ne_of_gt hd)
  exact Reader.run_cons hstep (ha d hd)

theorem enclosed {l r : Char} (hlr : l = '(' ∧ r = ')' ∨ l = '[' ∧ r = ']') (ha : Piece 1 a) :
    Piece depth (l :: (a ++ [r])) := by
  intro d _
  have hopen : (Reader.outside d).step l = some (.outside (d + 1)) := by
    rcases hlr with ⟨rfl, -⟩ | ⟨rfl, -⟩ <;> rfl
  have hclose : (Reader.outside (d + 1)).run [r] = some (.outside d) := by
    rcases hlr with ⟨-, rfl⟩ | ⟨-, rfl⟩ <;> rfl
  exact Reader.run_cons hopen (Reader.run_append (ha (d + 1) (Nat.le_add_left 1 d)) hclose)

theorem intercalate {texts : List (List Char)} (h : ∀ a ∈ texts, Piece 0 a) :
    Piece 1 ([',', ' '].intercalate texts) := by
  induction texts with
  | nil => exact nil
  | cons a texts ih =>
    obtain ⟨ha, htexts⟩ := List.forall_mem_cons.mp h
    cases texts with
    | nil =>
      rw [List.intercalate_singleton]
      exact ha.mono (Nat.zero_le 1)
    | cons b texts =>
      rw [List.intercalate_cons_cons, List.append_assoc]
      have hblank : Plain ' ' := by simp [Plain]
      exact (ha.mono (Nat.zero_le 1)).append ((ih htexts).cons hblank).comma

end Piece

/-! ## Quoted texts -/

theorem hexDigit_ne : ∀ n < 16, hexDigit n ≠ '"' ∧ hexDigit n ≠ '\\' := by decide

/-- The reader stays inside of quotation marks while it reads a written character. -/
theorem run_quoteChar (c : Char) :
    (Reader.quoted depth).run (quoteChar c) = some (.quoted depth) := by
  unfold quoteChar
  split_ifs with h₁ h₂ h₃ h₄ h₅ h₆ h₇ h₈
  iterate 7 rfl
  · have hdigit (n : Nat) : (Reader.quoted depth).step (hexDigit (n % 16)) = some (.quoted depth) := by
      obtain ⟨hquote, hslash⟩ := hexDigit_ne _ (Nat.mod_lt n (by decide))
      rw [Reader.step, if_neg hquote, if_neg hslash]
    have hletter : (Reader.escaped depth).step 'u' = some (.quoted depth) := rfl
    exact Reader.run_cons rfl (Reader.run_cons hletter (Reader.run_cons (hdigit _)
      (Reader.run_cons (hdigit _) (Reader.run_cons (hdigit _) (Reader.run_cons (hdigit _) rfl)))))
  · have hstep : (Reader.quoted depth).step c = some (.quoted depth) := by
      rw [Reader.step, if_neg h₁, if_neg h₂]
    exact Reader.run_cons hstep rfl

theorem run_flatMap_quoteChar (cs : List Char) :
    (Reader.quoted depth).run (cs.flatMap quoteChar) = some (.quoted depth) := by
  induction cs with
  | nil => rfl
  | cons c cs ih => exact Reader.run_append (run_quoteChar c) ih

theorem piece_quote (t : String) : Piece depth (quote t).toList := by
  intro d _
  rw [quote, String.toList_ofList]
  have hopen : (Reader.outside d).step '"' = some (.quoted d) := rfl
  have hclose : (Reader.quoted d).run ['"'] = some (.outside d) := rfl
  exact Reader.run_cons hopen (Reader.run_append (run_flatMap_quoteChar t.toList) hclose)

/-! ## Texts of several pieces -/

theorem intercalate_cons (sep a : List Char) (texts : List (List Char)) :
    sep.intercalate (a :: texts) = a ++ texts.flatMap (sep ++ ·) := by
  induction texts generalizing a with
  | nil => rw [List.intercalate_singleton, List.flatMap_nil, List.append_nil]
  | cons b texts ih => rw [List.intercalate_cons_cons, ih, List.flatMap_cons, List.append_assoc,
      List.append_assoc]

theorem mem_intercalate {sep : List Char} {texts : List (List Char)} {c : Char}
    (h : c ∈ sep.intercalate texts) : c ∈ sep ∨ ∃ a ∈ texts, c ∈ a := by
  cases texts with
  | nil => cases h
  | cons a texts =>
    rw [intercalate_cons, List.mem_append, List.mem_flatMap] at h
    rcases h with h | ⟨b, hb, h⟩
    · exact .inr ⟨a, List.mem_cons_self, h⟩
    · exact (List.mem_append.mp h).imp_right fun h => ⟨b, List.mem_cons_of_mem _ hb, h⟩

theorem closes_flatMap (texts : List (List Char)) : Closes (texts.flatMap ([',', ' '] ++ ·)) := by
  intro c hc
  cases texts with
  | nil => cases hc
  | cons a texts =>
    obtain rfl := Option.some.inj hc
    exact .inl rfl

theorem flatMap_comma_injective {texts texts' : List (List Char)} (h : ∀ a ∈ texts, Piece 0 a)
    (h' : ∀ a ∈ texts', Piece 0 a)
    (heq : texts.flatMap ([',', ' '] ++ ·) = texts'.flatMap ([',', ' '] ++ ·)) :
    texts = texts' := by
  induction texts generalizing texts' with
  | nil =>
    cases texts' with
    | nil => rfl
    | cons b texts' => cases heq
  | cons a texts ih =>
    cases texts' with
    | nil => cases heq
    | cons b texts' =>
      obtain ⟨ha, htexts⟩ := List.forall_mem_cons.mp h
      obtain ⟨hb, htexts'⟩ := List.forall_mem_cons.mp h'
      rw [List.flatMap_cons, List.flatMap_cons, List.append_assoc, List.append_assoc] at heq
      obtain ⟨rfl, hrest⟩ := ha.append_inj hb (closes_flatMap texts) (closes_flatMap texts')
        (List.append_cancel_left heq)
      rw [ih htexts htexts' hrest]

/-- Of several pieces with commas in between only a single empty one makes the empty text. -/
theorem intercalate_cons_ne_nil {a : List Char} {texts : List (List Char)} (h : a :: texts ≠ [[]]) :
    [',', ' '].intercalate (a :: texts) ≠ [] := by
  rw [intercalate_cons]
  cases texts with
  | nil => exact List.append_ne_nil_of_left_ne_nil (fun ha => h (congrArg (fun a => [a]) ha)) _
  | cons b texts => simp

/-- Pieces with commas in between are read back. Nothing is not told from a single empty piece. -/
theorem intercalate_injective {texts texts' : List (List Char)} (h : ∀ a ∈ texts, Piece 0 a)
    (h' : ∀ a ∈ texts', Piece 0 a) (hne : texts ≠ [[]]) (hne' : texts' ≠ [[]])
    (heq : [',', ' '].intercalate texts = [',', ' '].intercalate texts') : texts = texts' := by
  cases texts with
  | nil =>
    cases texts' with
    | nil => rfl
    | cons b texts' => exact absurd heq.symm (intercalate_cons_ne_nil hne')
  | cons a texts =>
    cases texts' with
    | nil => exact absurd heq (intercalate_cons_ne_nil hne)
    | cons b texts' =>
      obtain ⟨ha, htexts⟩ := List.forall_mem_cons.mp h
      obtain ⟨hb, htexts'⟩ := List.forall_mem_cons.mp h'
      rw [intercalate_cons, intercalate_cons] at heq
      obtain ⟨rfl, hrest⟩ := ha.append_inj hb (closes_flatMap texts) (closes_flatMap texts') heq
      rw [flatMap_comma_injective htexts htexts' hrest]

/-! ## Pieces as texts -/

/-- A text that is a piece, and not the empty one. -/
structure IsPiece (t : String) : Prop where
  piece : Piece 0 t.toList
  ne_nil : t.toList ≠ []

namespace IsPiece

variable {s t : String} {texts texts' : List String}

theorem of_plain (hne : t.toList ≠ []) (h : ∀ c ∈ t.toList, Plain c) : IsPiece t :=
  ⟨Piece.of_plain h, hne⟩

theorem quote (t : String) : IsPiece (quote t) :=
  ⟨piece_quote t, by simp [Text.quote]⟩

theorem append (hs : IsPiece s) (ht : IsPiece t) : IsPiece (s ++ t) where
  piece := by
    rw [String.toList_append]
    exact hs.piece.append ht.piece
  ne_nil := by
    rw [String.toList_append]
    exact List.append_ne_nil_of_left_ne_nil hs.ne_nil _

theorem enclosed {l r : String} (hlr : l = "(" ∧ r = ")" ∨ l = "[" ∧ r = "]")
    (h : ∀ t ∈ texts, Piece 0 t.toList) : IsPiece (l ++ ", ".intercalate texts ++ r) := by
  have hinner : Piece 1 (", ".intercalate texts).toList := by
    rw [String.toList_intercalate]
    exact Piece.intercalate (List.forall_mem_map.mpr h)
  rcases hlr with ⟨rfl, rfl⟩ | ⟨rfl, rfl⟩ <;>
    refine ⟨?_, by simp⟩ <;> rw [String.toList_append, String.toList_append]
  · exact Piece.enclosed (.inl ⟨rfl, rfl⟩) hinner
  · exact Piece.enclosed (.inr ⟨rfl, rfl⟩) hinner

end IsPiece

/-- Joined texts are read back, if they are pieces and neither of the lists is one empty text. -/
theorem intercalate_inj {texts texts' : List String} (h : ∀ t ∈ texts, Piece 0 t.toList)
    (h' : ∀ t ∈ texts', Piece 0 t.toList) (hne : texts ≠ [""]) (hne' : texts' ≠ [""])
    (heq : ", ".intercalate texts = ", ".intercalate texts') : texts = texts' := by
  have hinjective := List.map_injective_iff.mpr fun (s t : String) => String.toList_injective
  have hlists := congrArg String.toList heq
  rw [String.toList_intercalate, String.toList_intercalate] at hlists
  refine hinjective (intercalate_injective (List.forall_mem_map.mpr h) (List.forall_mem_map.mpr h')
    (fun htexts => hne (hinjective htexts)) (fun htexts => hne' (hinjective htexts)) hlists)

/-- Joined texts are read back, if they are pieces, of which none is empty. -/
theorem IsPiece.intercalate_inj {texts texts' : List String} (h : ∀ t ∈ texts, IsPiece t)
    (h' : ∀ t ∈ texts', IsPiece t) (heq : ", ".intercalate texts = ", ".intercalate texts') :
    texts = texts' := by
  have hne {texts : List String} (h : ∀ t ∈ texts, IsPiece t) : texts ≠ [""] := by
    rintro rfl
    exact (h "" List.mem_cons_self).ne_nil rfl
  exact Text.intercalate_inj (fun t ht => (h t ht).piece) (fun t ht => (h' t ht).piece) (hne h)
    (hne h') heq

end Schemata.Text
