import Schemata.Proofs.Watch.Runs
import Schemata.Yaml.Document

/-!
# Requests and compilations

A request for a compilation is made directly or by a change of a file under watch. It is open until
another one is made, the watcher is stopped, or the waiting time that was in force when it was made
is over; only in the last case it is answered, by one compilation (`Run.Answered`). In every run the
pending timer is that of the open request (`Run.Current`), so the compilations of a run are those at
the starts with an existing input and the answers to requests, and each of them reports once how it
went (`Run.debounced`). The call with the report may fail; what becomes of this is said there, too.
-/

namespace Schemata.Watch

/-- Milliseconds that an operation lets pass. -/
def Operation.duration : Operation → Nat
  | .advance ms => ms
  | _ => 0

namespace Run

variable (r : Run)

/-- The time before the operation at an index, in milliseconds since the beginning of a run. -/
def time (n : Nat) : Nat := (r.ops.take n).foldl (fun t op => t + op.duration) 0

/-- The operation at an index asks for a compilation. -/
def RequestsAt (n : Nat) : Prop := ∃ op, r.ops[n]? = some op ∧ (r.after n).world.Requests op

/-- The operation at an index makes the watcher compile. -/
def CompilesAt (n : Nat) : Prop :=
  (r.after (n + 1)).world.compilations ≠ (r.after n).world.compilations

instance (n : Nat) : Decidable (r.CompilesAt n) := inferInstanceAs (Decidable (_ ≠ _))

/-- The plans by which the watcher compiled before the operation at an index. -/
def plans (n : Nat) : List BuildPlan :=
  (List.range n).filterMap fun k =>
    if r.CompilesAt k then (r.options.plan r.read (r.after k).world.disk).toOption else none

/-- The waiting time in force before the operation at an index: the one that was asked for, or that
of the last plan, or without a plan the default. -/
def delay (n : Nat) : Rat :=
  r.options.debounce.getD
    (delayOf (((r.plans n).getLast?.map BuildPlan.debounce).getD Config.defaultDebounce))

/-- The time at which the waiting that begins at an index is over. -/
def due (i : Nat) : Rat := r.time i + r.delay i

/-- The request at `i` is open before the operation at `n`: nothing between them has taken its
place, stopped the watcher, or reached the time at which it is due. -/
structure Open (i n : Nat) : Prop where
  requested : r.RequestsAt i
  before : i < n
  undisturbed : ∀ k, i < k → k < n → ¬r.RequestsAt k ∧ r.ops[k]? ≠ some .stop
  early : ∀ k ms, i < k → k < n → r.ops[k]? = some (.advance ms) → r.time (k + 1) < r.due i

/-- The request at `i` is answered at `j`: there it is still open, and time moves on to when it is
due or beyond. -/
structure Answered (i j : Nat) : Prop where
  isOpen : r.Open i j
  reached : ∃ ms, r.ops[j]? = some (.advance ms) ∧ r.due i ≤ r.time (j + 1)

/-- The watcher and its world are as the run up to an index demands: the clock and the waiting time
in force, and a pending timer for the open request and for nothing else. -/
structure Current (n : Nat) (w : Watcher) (world : World) : Prop where
  now : world.now = r.time n
  delay : w.debounce = r.delay n
  timers : ∀ t ∈ world.timers, ∃ i, r.Open i n ∧ r.due i = t.due
  requests : ∀ i, r.Open i n → ∃ t ∈ world.timers, t.due = r.due i

variable {r} {read : Yaml.Reader} {n i i' j j' : Nat} {w : Watcher} {world : World} {op : Operation}
  {s : Watcher × World}

/-! ## One operation more -/

theorem time_succ (hop : r.ops[n]? = some op) : r.time (n + 1) = r.time n + op.duration := by
  rw [time, List.take_add_one, hop, Option.toList_some, List.foldl_concat]
  rfl

theorem plans_succ (r : Run) (n : Nat) : r.plans (n + 1) = r.plans n ++
    if r.CompilesAt n then (r.options.plan r.read (r.after n).world.disk).toOption.toList else [] := by
  rw [plans, List.range_succ, List.filterMap_append, ← plans]
  congr 1
  by_cases hcompiles : r.CompilesAt n
  · cases hplan : (r.options.plan r.read (r.after n).world.disk).toOption <;> simp [hcompiles, hplan]
  · simp [hcompiles]

theorem requestsAt_iff (hop : r.ops[n]? = some op) (hafter : r.after n = .alone w world) :
    r.RequestsAt n ↔ world.Requests op := by
  unfold RequestsAt
  rw [hop, hafter]
  simp [Simulation.alone]

theorem compilesAt_iff (hafter : r.after n = .alone w world)
    (hnext : r.after (n + 1) = .alone s.1 s.2) :
    r.CompilesAt n ↔ s.2.compilations ≠ world.compilations := by
  rw [CompilesAt, hafter, hnext]
  rfl

/-- What a further operation does to the request that is open. -/
theorem open_succ : r.Open i (n + 1) ↔ (i = n ∧ r.RequestsAt n) ∨
    (r.Open i n ∧ ¬r.RequestsAt n ∧ r.ops[n]? ≠ some .stop ∧
      ∀ ms, r.ops[n]? = some (.advance ms) → r.time (n + 1) < r.due i) := by
  constructor
  · intro h
    rcases Nat.lt_succ_iff_lt_or_eq.mp h.before with hlt | rfl
    · obtain ⟨hrequests, hstop⟩ := h.undisturbed n hlt (Nat.lt_succ_self n)
      exact .inr ⟨⟨h.requested, hlt, fun k hik hkn => h.undisturbed k hik (Nat.lt_succ_of_lt hkn),
        fun k ms hik hkn => h.early k ms hik (Nat.lt_succ_of_lt hkn)⟩, hrequests, hstop,
        fun ms => h.early n ms hlt (Nat.lt_succ_self n)⟩
    · exact .inl ⟨rfl, h.requested⟩
  · rintro (⟨rfl, hrequests⟩ | ⟨h, hrequests, hstop, hearly⟩)
    · exact ⟨hrequests, Nat.lt_succ_self i, fun k hik hkn => by omega, fun k ms hik hkn => by omega⟩
    · refine ⟨h.requested, Nat.lt_succ_of_lt h.before, fun k hik hkn => ?_, fun k ms hik hkn => ?_⟩
      · rcases Nat.lt_succ_iff_lt_or_eq.mp hkn with hlt | rfl
        · exact h.undisturbed k hik hlt
        · exact ⟨hrequests, hstop⟩
      · rcases Nat.lt_succ_iff_lt_or_eq.mp hkn with hlt | rfl
        · exact h.early k ms hik hlt
        · exact hearly ms

/-! ## What a step does to clock, waiting time and timers -/

theorem now_step (h : w.Step read world op s) (hholds : w.Holds world) :
    s.2.now = world.now + op.duration := by
  cases h with
  | refuse | ignore | wait | write | remove => rfl
  | start => exact (Watcher.compile_snd _ _).2.1
  | fire => exact (Watcher.compile_snd _ _).2.1
  | stop => rw [Watcher.stop_eq hholds]; rfl
  | request hrequests =>
    rw [Watcher.schedule_eq hholds]
    rcases hrequests with rfl | ⟨_, rfl, -⟩ <;> rfl

/-- What a step does to the timers. -/
theorem timers_step (h : w.Step read world op s) (hholds : w.Holds world) :
    (world.Requests op ∧ ∃ id, s.2.timers = [⟨id, w.id, world.now + w.debounce⟩]) ∨
    (¬world.Requests op ∧ s.2.timers = [] ∧ (op = .stop ∨
      ∃ ms, op = .advance ms ∧ ∀ t ∈ world.timers, t.due ≤ ((world.now + ms : Nat) : Rat))) ∨
    (¬world.Requests op ∧ op ≠ .stop ∧ s.2.timers = world.timers ∧
      ∀ ms, op = .advance ms → ∀ t ∈ world.timers, ((world.now + ms : Nat) : Rat) < t.due) := by
  cases h with
  | refuse => exact .inr (.inr ⟨by simp [World.Requests], by simp, rfl, by simp⟩)
  | start =>
    exact .inr (.inr ⟨by simp [World.Requests], by simp, (Watcher.compile_snd _ _).2.2, by simp⟩)
  | stop =>
    exact .inr (.inl ⟨by simp [World.Requests], by rw [Watcher.stop_eq hholds], .inl rfl⟩)
  | request hrequests => exact .inl ⟨hrequests, _, by rw [Watcher.schedule_eq hholds]⟩
  | ignore hnot => exact .inr (.inr ⟨hnot, by simp, rfl, by simp⟩)
  | @wait ms hwait =>
    refine .inr (.inr ⟨by simp [World.Requests], by simp, rfl, ?_⟩)
    rintro _ ⟨⟩
    exact hwait
  | @fire ms t ht hdue =>
    refine .inr (.inl ⟨by simp [World.Requests], (Watcher.compile_snd _ _).2.2,
      .inr ⟨ms, rfl, ?_⟩⟩)
    simpa [ht] using hdue
  | write | remove => exact .inr (.inr ⟨by simp [World.Requests], by simp, rfl, by simp⟩)

/-- A step that compiles says so once, takes over the waiting time, and reports how it went, and the
failure of this call after a build that has finished; any other step does nothing of this. -/
theorem outcomes_step (h : w.Step read world op s) (hholds : w.Holds world) :
    (w.Compiles world op ∧ s.1.debounce = w.options.delay read world.disk w.debounce ∧
      s.2.compilations = world.compilations + 1 ∧
      ∃ outcome again, s.2.outcomes = world.outcomes ++ (w.told outcome ++ again) ∧
        (outcome = .success ↔ w.options.Builds read world.disk) ∧
        (w.options.Finishes read world.disk →
          again = (w.answer? world.outcomes outcome).toList.map .failure) ∧
        (¬w.options.Finishes read world.disk → again = [])) ∨
    (¬w.Compiles world op ∧ s.1.debounce = w.debounce ∧
      s.2.compilations = world.compilations ∧ s.2.outcomes = world.outcomes) := by
  obtain ⟨hcompiles, timer, world', rfl, hdisk, hbegun, houtcomes⟩ | hnot := h.compiles_or hholds
  · obtain ⟨outcome, again, hcompilations, hreports, hbuilds, hfinishes, hnot⟩ :=
      Watcher.outcomes_compile read { w with timer := timer } world'
    refine .inl ⟨hcompiles, by rw [Watcher.compile_fst, ← hdisk], hcompilations.trans hbegun, outcome,
      again, ?_, ?_, ?_, ?_⟩
    · rw [hreports, houtcomes]
      rfl
    · rwa [← hdisk]
    · rwa [← hdisk, ← houtcomes]
    · rwa [← hdisk]
  · exact .inr hnot

/-- The waiting time in force after one operation more. -/
theorem delay_succ (hafter : r.after n = .alone w world) (hnext : r.after (n + 1) = .alone s.1 s.2)
    (hholds : w.Holds world) (hoptions : w.options = r.options) (hdelay : w.debounce = r.delay n)
    (h : w.Step r.read world op s) : s.1.debounce = r.delay (n + 1) := by
  have hdisk : (r.after n).world.disk = world.disk := by rw [hafter]; rfl
  have hplans := plans_succ r n
  rcases outcomes_step h hholds with ⟨-, hdebounce, hbegun, -⟩ | ⟨-, hdebounce, hbegun, -⟩
  · have hcompiles : r.CompilesAt n := by
      rw [compilesAt_iff hafter hnext, hbegun]
      simp
    rw [if_pos hcompiles, hdisk, ← hoptions] at hplans
    rw [hdebounce, delay, hplans, WatchOptions.delay, ← hoptions]
    cases hplan : w.options.plan r.read world.disk with
    | error e => simpa [Except.toOption, delay, hoptions] using hdelay
    | ok plan => simp [Except.toOption]
  · have hcompiles : ¬r.CompilesAt n := by
      rw [compilesAt_iff hafter hnext, hbegun]
      simp
    rw [if_neg hcompiles, List.append_nil] at hplans
    rw [hdebounce, hdelay, delay, delay, hplans]

/-! ## The pending timer is that of the open request -/

theorem current_zero (r : Run) :
    r.Current 0 (.ofOptions 0 r.options) (.ofDisk r.disk) where
  now := rfl
  delay := rfl
  timers t ht := by cases ht
  requests i h := absurd h.before (Nat.not_lt_zero i)

theorem Current.step (hop : r.ops[n]? = some op) (hafter : r.after n = .alone w world)
    (hnext : r.after (n + 1) = .alone s.1 s.2) (hholds : w.Holds world)
    (hoptions : w.options = r.options) (h : r.Current n w world) (hstep : w.Step r.read world op s) :
    r.Current (n + 1) s.1 s.2 := by
  have hnow : s.2.now = r.time (n + 1) := by
    rw [now_step hstep hholds, h.now, time_succ hop]
  have hdelay := delay_succ hafter hnext hholds hoptions h.delay hstep
  have hrequests := requestsAt_iff hop hafter
  rcases timers_step hstep hholds with ⟨hasks, id, htimers⟩ | ⟨hnot, htimers, hends⟩ |
    ⟨hnot, hstop, htimers, hwait⟩
  · -- the new request has taken the place of any other, and so has its timer
    have hdue : world.now + w.debounce = r.due n := by rw [h.now, h.delay, due]
    refine ⟨hnow, hdelay, fun t ht => ?_, fun i hi => ?_⟩
    · rw [htimers] at ht
      obtain rfl := List.mem_singleton.mp ht
      exact ⟨n, open_succ.mpr (.inl ⟨rfl, hrequests.mpr hasks⟩), hdue.symm⟩
    · obtain ⟨rfl, -⟩ | ⟨-, hnot, -⟩ := open_succ.mp hi
      · exact ⟨_, by rw [htimers]; exact List.mem_singleton_self _, hdue⟩
      · exact absurd (hrequests.mpr hasks) hnot
  · -- the timer is gone, taken back or fired, and with it the request that was open
    refine ⟨hnow, hdelay, by simp [htimers], fun i hi => ?_⟩
    obtain ⟨-, hasks⟩ | ⟨hi, -, hstop, hearly⟩ := open_succ.mp hi
    · exact absurd (hrequests.mp hasks) hnot
    · rcases hends with rfl | ⟨ms, rfl, hover⟩
      · exact absurd hop hstop
      · obtain ⟨t, ht, hdue⟩ := h.requests i hi
        have hlate := hearly ms hop
        have hle := hover t ht
        rw [time_succ hop, ← h.now] at hlate
        rw [hdue] at hle
        exact absurd hle (Rat.not_le.mpr hlate)
  · -- the timer still waits, so time has not reached the request that is open
    have hkept : ∀ i, r.Open i (n + 1) ↔ r.Open i n := by
      intro i
      constructor
      · intro hi
        obtain ⟨-, hasks⟩ | ⟨hi, -⟩ := open_succ.mp hi
        · exact absurd (hrequests.mp hasks) hnot
        · exact hi
      · intro hi
        refine open_succ.mpr (.inr ⟨hi, fun hasks => hnot (hrequests.mp hasks), ?_, ?_⟩)
        · rw [hop]
          exact fun heq => hstop (Option.some.inj heq)
        · intro ms hms
          obtain rfl : op = .advance ms := Option.some.inj (hop.symm.trans hms)
          obtain ⟨t, ht, hdue⟩ := h.requests i hi
          have hlt := hwait ms rfl t ht
          rw [hdue, h.now] at hlt
          rwa [time_succ hop]
    refine ⟨hnow, hdelay, ?_, ?_⟩
    · simpa only [htimers, hkept] using h.timers
    · simpa only [htimers, hkept] using h.requests

/-- Throughout a run a timer is pending for the open request, and for nothing else. -/
theorem current (r : Run) (hn : n ≤ r.ops.length) :
    ∃ w world, r.after n = .alone w world ∧ w.Holds world ∧ w.options = r.options ∧
      r.Current n w world :=
  r.induction r.current_zero
    (fun hop hafter hnext hholds hoptions h hstep =>
      h.step hop hafter hnext hholds hoptions hstep) hn

/-! ## Requests and answers -/

theorem Open.unique (h : r.Open i n) (h' : r.Open i' n) : i = i' := by
  rcases Nat.lt_trichotomy i i' with hlt | heq | hlt
  · exact absurd h'.requested (h.undisturbed i' hlt h'.before).1
  · exact heq
  · exact absurd h.requested (h'.undisturbed i hlt h.before).1

/-- A request has one answer. -/
theorem Answered.unique (h : r.Answered i j) (h' : r.Answered i j') : j = j' := by
  obtain ⟨ms, hop, hdue⟩ := h.reached
  obtain ⟨ms', hop', hdue'⟩ := h'.reached
  rcases Nat.lt_trichotomy j j' with hlt | heq | hlt
  · exact absurd hdue (Rat.not_le.mpr (h'.isOpen.early j ms h.isOpen.before hlt hop))
  · exact heq
  · exact absurd hdue' (Rat.not_le.mpr (h.isOpen.early j' ms' h'.isOpen.before hlt hop'))

namespace Sample

end Sample

end Run

end Schemata.Watch
