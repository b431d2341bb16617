import Mathlib.Data.List.Forall2

/-!
# Computations that can fail

What it means that a computation of several steps succeeds: `bind_eq_ok` takes it apart into its
steps, `mapM_eq_ok` into the members of a list. A search succeeds with the only member that it can
find (`find?_eq_some_of_unique`). `foldlM_keeps` carries an invariant along a list that is read step
by step, and `foldlM_reads` one that also sees the members read so far; a list that cannot be read
fails at one of its members (`exists_of_foldlM_eq_error`).
-/

namespace Schemata.Outcome

variable {ε α β σ : Type}

theorem bind_eq_ok {x : Except ε α} {f : α → Except ε β} {b : β} :
    x >>= f = .ok b ↔ ∃ a, x = .ok a ∧ f a = .ok b := by
  cases x <;> simp [bind, Except.bind]

theorem bind_eq_error {x : Except ε α} {f : α → Except ε β} {e : ε} :
    x >>= f = .error e ↔ x = .error e ∨ ∃ a, x = .ok a ∧ f a = .error e := by
  cases x <;> simp [bind, Except.bind]

@[simp] theorem ok_bind (a : α) (f : α → Except ε β) : (Except.ok a >>= f) = f a := rfl

@[simp] theorem pure_eq_ok {a b : α} : (pure a : Except ε α) = .ok b ↔ a = b := by
  simp [pure, Except.pure]

theorem map_eq_ok {γ : Type} {x : Except ε α} {f : α → γ} {c : γ} :
    x.map f = .ok c ↔ ∃ a, x = .ok a ∧ f a = c := by
  cases x <;> simp [Except.map]

theorem map_eq_error {γ : Type} {x : Except ε α} {f : α → γ} {e : ε} :
    x.map f = .error e ↔ x = .error e := by
  cases x <;> simp [Except.map]

theorem exists_eq_ok_iff {x : Except ε α} : (∃ a, x = .ok a) ↔ x.map (fun _ => ()) = .ok () := by
  cases x <;> simp [Except.map]

theorem mapError_eq_ok {δ : Type} {x : Except ε α} {f : ε → δ} {a : α} :
    x.mapError f = .ok a ↔ x = .ok a := by
  cases x <;> simp [Except.mapError]

theorem mapM_eq_ok {f : α → Except ε β} {as : List α} {bs : List β} :
    as.mapM f = .ok bs ↔ List.Forall₂ (fun a b => f a = .ok b) as bs := by
  induction as generalizing bs with
  | nil => cases bs <;> simp
  | cons a as ih =>
    simp only [List.mapM_cons, bind_eq_ok, pure_eq_ok, List.forall₂_cons_left_iff, ih]
    constructor
    · rintro ⟨b, hb, bs, hbs, rfl⟩
      exact ⟨b, bs, hb, hbs, rfl⟩
    · rintro ⟨b, bs, hb, hbs, rfl⟩
      exact ⟨b, hb, bs, hbs, rfl⟩

theorem exists_of_mapM_eq_error {f : α → Except ε β} {as : List α} {e : ε}
    (h : as.mapM f = .error e) : ∃ a ∈ as, f a = .error e := by
  induction as with
  | nil => cases h
  | cons a as ih =>
    rw [List.mapM_cons] at h
    rcases bind_eq_error.mp h with h | ⟨b, -, h⟩
    · exact ⟨a, List.mem_cons_self, h⟩
    rcases bind_eq_error.mp h with h | ⟨bs, -, h⟩
    · obtain ⟨a, ha, h⟩ := ih h
      exact ⟨a, List.mem_cons_of_mem _ ha, h⟩
    · cases h

/-- What is done to each result of a list is done to the list of results. -/
theorem mapM_map {m : Type → Type} [Monad m] [LawfulMonad m] {γ : Type} {f : α → m β} {g : α → m γ}
    {h : β → γ} {as : List α} (hg : ∀ a ∈ as, g a = h <$> f a) :
    as.mapM g = List.map h <$> as.mapM f := by
  induction as with
  | nil => simp
  | cons a as ih =>
    obtain ⟨ha, has⟩ := List.forall_mem_cons.mp hg
    simp only [List.mapM_cons, ha, ih has, map_eq_pure_bind, bind_assoc, pure_bind, List.map_cons]

/-- Where two steps do the same with each member, they do the same with the list. -/
theorem mapM_congr {m : Type → Type} [Monad m] [LawfulMonad m] {f g : α → m β} {as : List α}
    (h : ∀ a ∈ as, f a = g a) : as.mapM f = as.mapM g := by
  induction as with
  | nil => rfl
  | cons a as ih =>
    obtain ⟨ha, has⟩ := List.forall_mem_cons.mp h
    rw [List.mapM_cons, List.mapM_cons, ha, ih has]

theorem mapM_eq_some {f : α → Option β} {as : List α} {bs : List β} :
    as.mapM f = some bs ↔ List.Forall₂ (fun a b => f a = some b) as bs := by
  induction as generalizing bs with
  | nil => cases bs <;> simp
  | cons a as ih =>
    simp only [List.mapM_cons, Option.bind_eq_bind, Option.bind_eq_some_iff, Option.pure_def,
      Option.some.injEq, List.forall₂_cons_left_iff, ih]
    constructor
    · rintro ⟨b, hb, bs, hbs, rfl⟩
      exact ⟨b, bs, hb, hbs, rfl⟩
    · rintro ⟨b, bs, hb, hbs, rfl⟩
      exact ⟨b, hb, bs, hbs, rfl⟩

theorem exists_mapM_eq_some {f : α → Option β} {as : List α} (h : ∀ a ∈ as, ∃ b, f a = some b) :
    ∃ bs, as.mapM f = some bs := by
  induction as with
  | nil => exact ⟨[], rfl⟩
  | cons a as ih =>
    obtain ⟨b, hb⟩ := h a List.mem_cons_self
    obtain ⟨bs, hbs⟩ := ih fun a ha => h a (List.mem_cons_of_mem _ ha)
    exact ⟨b :: bs, by simp only [List.mapM_cons, hb, hbs]; rfl⟩

theorem exists_of_mem_right {R : α → β → Prop} {as : List α} {bs : List β} {b : β}
    (h : List.Forall₂ R as bs) (hb : b ∈ bs) : ∃ a ∈ as, R a b := by
  induction h with
  | nil => cases hb
  | cons hab _ ih =>
    rcases List.mem_cons.mp hb with rfl | hb
    · exact ⟨_, List.mem_cons_self, hab⟩
    · obtain ⟨a, ha, hab⟩ := ih hb
      exact ⟨a, List.mem_cons_of_mem _ ha, hab⟩

theorem exists_of_mem_left {R : α → β → Prop} {as : List α} {bs : List β} {a : α}
    (h : List.Forall₂ R as bs) (ha : a ∈ as) : ∃ b ∈ bs, R a b :=
  exists_of_mem_right h.flip ha

theorem forall_right_of_forall₂ {R : α → β → Prop} {P : β → Prop} {as : List α} {bs : List β}
    (h : List.Forall₂ R as bs) (hP : ∀ a b, R a b → P b) : ∀ b ∈ bs, P b := by
  intro b hb
  obtain ⟨a, -, hab⟩ := exists_of_mem_right h hb
  exact hP a b hab

/-- What the members of two lists have in common they have member by member. -/
theorem map_eq_of_forall₂ {γ : Type} {R : α → β → Prop} {f : α → γ} {g : β → γ} {as : List α}
    {bs : List β} (h : List.Forall₂ R as bs) (hR : ∀ a b, R a b → g b = f a) :
    bs.map g = as.map f := by
  induction h with
  | nil => rfl
  | cons hab _ ih => rw [List.map_cons, List.map_cons, hR _ _ hab, ih]

theorem forall₂_and_mem {R : α → β → Prop} {as : List α} {bs : List β}
    (h : List.Forall₂ R as bs) : List.Forall₂ (fun a b => R a b ∧ b ∈ bs) as bs := by
  induction h with
  | nil => exact .nil
  | cons hab _ ih =>
    exact .cons ⟨hab, List.mem_cons_self⟩
      (ih.imp fun _ _ ⟨h, hmem⟩ => ⟨h, List.mem_cons_of_mem _ hmem⟩)

theorem forall₂_mem_and {R : α → β → Prop} {as : List α} {bs : List β}
    (h : List.Forall₂ R as bs) : List.Forall₂ (fun a b => a ∈ as ∧ R a b) as bs :=
  (forall₂_and_mem h.flip).flip.imp fun _ _ ⟨hab, ha⟩ => ⟨ha, hab⟩

/-- Members of two lists that have something to do with the same members of a third. -/
theorem forall₂_of_common {γ : Type} {R : α → γ → Prop} {R' : β → γ → Prop} {S : α → β → Prop}
    {as : List α} {bs : List β} {cs : List γ} (h : List.Forall₂ R as cs)
    (h' : List.Forall₂ R' bs cs) (hS : ∀ a b c, R a c → R' b c → S a b) : List.Forall₂ S as bs := by
  induction h generalizing bs with
  | nil =>
    cases h'
    exact .nil
  | cons hac _ ih =>
    cases h' with
    | cons hbc h' => exact .cons (hS _ _ _ hac hbc) (ih h')

/-- Lists with gaps are compared member by member if their gaps are at the same places. -/
theorem forall₂_rel_iff {R : α → β → Prop} {as : List (Option α)} {bs : List (Option β)} :
    List.Forall₂ (Option.Rel R) as bs ↔ as.map Option.isSome = bs.map Option.isSome ∧
      ∀ a b, (some a, some b) ∈ as.zip bs → R a b := by
  induction as generalizing bs with
  | nil => cases bs <;> simp
  | cons x as ih =>
    cases bs with
    | nil => simp
    | cons y bs =>
      rw [List.forall₂_cons, ih]
      cases x <;> cases y <;> simp
      case some.some a b =>
        constructor
        · rintro ⟨hab, hgaps, hall⟩
          refine ⟨hgaps, fun a' b' h => ?_⟩
          rcases h with ⟨rfl, rfl⟩ | h
          · exact hab
          · exact hall a' b' h
        · rintro ⟨hgaps, hall⟩
          exact ⟨hall a b (.inl ⟨rfl, rfl⟩), hgaps, fun a' b' h => hall a' b' (.inr h)⟩

/-- A list beside one that is put together is put together, too. -/
theorem forall₂_append_left {R : α → β → Prop} {as bs : List α} {cs : List β}
    (h : List.Forall₂ R (as ++ bs) cs) :
    ∃ us vs, List.Forall₂ R as us ∧ List.Forall₂ R bs vs ∧ cs = us ++ vs := by
  induction as generalizing cs with
  | nil => exact ⟨[], cs, .nil, h, rfl⟩
  | cons a as ih =>
    cases h with
    | cons hac h =>
      obtain ⟨us, vs, hus, hvs, rfl⟩ := ih h
      exact ⟨_ :: us, vs, .cons hac hus, hvs, rfl⟩

theorem filterMap_eq_of_forall₂ {f : α → Option β} {as : List α} {bs : List β}
    (h : List.Forall₂ (fun a b => f a = some b) as bs) : as.filterMap f = bs := by
  induction h with
  | nil => rfl
  | cons hab _ ih => rw [List.filterMap_cons_some hab, ih]

/-- A list is read with a result for each member if each member has one. -/
theorem exists_mapM_eq_ok {f : α → Except ε β} {as : List α} (h : ∀ a ∈ as, ∃ b, f a = .ok b) :
    ∃ bs, as.mapM f = .ok bs := by
  induction as with
  | nil => exact ⟨[], rfl⟩
  | cons a as ih =>
    obtain ⟨b, hb⟩ := h a List.mem_cons_self
    obtain ⟨bs, hbs⟩ := ih fun a ha => h a (List.mem_cons_of_mem _ ha)
    exact ⟨b :: bs, by simp only [List.mapM_cons, hb, hbs]; rfl⟩

/-- What is looked for in a list is found if it is the only member of its kind. -/
theorem find?_eq_some_of_unique {p : α → Bool} {as : List α} {a : α} (ha : a ∈ as)
    (hp : p a = true) (hunique : ∀ b ∈ as, p b = true → b = a) : as.find? p = some a := by
  cases hfind : as.find? p with
  | none => exact absurd hp (List.find?_eq_none.mp hfind a ha)
  | some b => rw [hunique b (List.mem_of_find?_eq_some hfind) (List.find?_some hfind)]

/-- An invariant of what has been read and the state reached that each step keeps holds behind
everything that is read after it. -/
theorem foldlM_reads_append {f : σ → α → Except ε σ} {P : List α → σ → Prop}
    (hstep : ∀ {read s a s'}, P read s → f s a = .ok s' → P (read ++ [a]) s') :
    ∀ {as read : List α} {s s' : σ}, P read s → as.foldlM f s = .ok s' → P (read ++ as) s'
  | [], _, _, _, hs, h => by
    obtain rfl := pure_eq_ok.mp h
    rwa [List.append_nil]
  | a :: as, read, s, s', hs, h => by
    obtain ⟨s₁, h₁, h₂⟩ := bind_eq_ok.mp h
    have := foldlM_reads_append hstep (hstep hs h₁) h₂
    rwa [List.append_assoc] at this

/-- An invariant of what has been read and the state reached holds at the end. -/
theorem foldlM_reads {f : σ → α → Except ε σ} {P : List α → σ → Prop}
    (hstep : ∀ {read s a s'}, P read s → f s a = .ok s' → P (read ++ [a]) s')
    {as : List α} {s s' : σ} (hs : P [] s) (h : as.foldlM f s = .ok s') : P as s' :=
  foldlM_reads_append hstep hs h

/-- Reading a list fails at one of its members. -/
theorem exists_of_foldlM_eq_error {f : σ → α → Except ε σ} {as : List α} {s : σ} {e : ε}
    (h : as.foldlM f s = .error e) : ∃ before a rest s', as = before ++ a :: rest ∧
      before.foldlM f s = .ok s' ∧ f s' a = .error e := by
  induction as generalizing s with
  | nil => cases h
  | cons a as ih =>
    rcases bind_eq_error.mp h with h | ⟨s₁, hs, h⟩
    · exact ⟨[], a, as, s, rfl, rfl, h⟩
    · obtain ⟨before, a', rest, s', rfl, hbefore, h⟩ := ih h
      exact ⟨a :: before, a', rest, s', rfl, bind_eq_ok.mpr ⟨s₁, hs, hbefore⟩, h⟩

/-- An invariant of the state that each step keeps holds at the end. -/
theorem foldlM_keeps {f : σ → α → Except ε σ} {P : σ → Prop}
    (hstep : ∀ {s a s'}, P s → f s a = .ok s' → P s')
    {as : List α} {s s' : σ} (hs : P s) (h : as.foldlM f s = .ok s') : P s' :=
  foldlM_reads (P := fun _ => P) hstep hs h

end Schemata.Outcome
