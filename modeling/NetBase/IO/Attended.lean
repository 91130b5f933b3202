import NetBase.IO.BlocksIdle

/-!
# Nobody is forgotten

A coroutine that sleeps, or waits in `ioInner`, has a timer, and `blockPending` queues the
callback of a timer that has expired. So it is woken in the end, unless something goes wrong: a
`stop()`, after which the scheduler refuses executors; a `cancelTimer` that finds the timer of
somebody else, of the same target; or a null pointer in the queue. `Moves` says what becomes of a
coroutine in one step without these, and `nobody_forgotten` what follows for whole runs. The wait
of `co_connect` has no timer and nothing is said about it.
-/

namespace NetBase

open Lib

/-- The coroutine counts on being entered: its creator has queued it, or it waits with a timer. -/
def CoState.Expects : CoState → Prop
  | .start => True
  | .waiting .sleep => True
  | .waiting (.io ..) => True
  | _ => False

theorem Coroutine.Awaits.expects {x : Coroutine} {k : Callback} (h : x.Awaits k) :
    x.state.Expects := by
  cases k with
  | wake c n => rw [awaits_wake.1 h]; trivial
  | timeout c n fd d =>
    obtain ⟨timer, rfl⟩ := awaits_timeout.1 h
    trivial

namespace CoSys

variable {s t : CoSys} {c : Nat} {i : CoInput}

/-- Something will enter the coroutine, or queue what does: an entry of the queue, or the timer of
the wait it is in. -/
def Attends (s : CoSys) (c : Nat) : Prop :=
  c ∈ targets s.world.scheduler.readyExecutors ∨
    ∃ t ∈ s.world.timerManager.timers, ∃ k, t.callback = some k ∧ k.coroutine = c ∧
      (s.co c).Awaits k

/-- What becomes of a coroutine in a step. -/
inductive Moves (s t : CoSys) (c : Nat) : Prop
  | other (hs : (s.co c).suspension ≤ (t.co c).suspension) (hx : ¬ (t.co c).state.Expects)
  | queued (hs : (s.co c).suspension ≤ (t.co c).suspension)
      (hq : c ∈ targets t.world.scheduler.readyExecutors)
  | suspends (hs : (s.co c).suspension < (t.co c).suspension) (ha : t.Attends c)
  | stays (hco : t.co c = s.co c)
      (hq : c ∈ targets s.world.scheduler.readyExecutors →
        c ∈ targets t.world.scheduler.readyExecutors)
      (ht : ∀ u ∈ s.world.timerManager.timers, ∀ k, u.callback = some k → k.coroutine = c →
        u ∈ t.world.timerManager.timers ∨ c ∈ targets t.world.scheduler.readyExecutors)

theorem Moves.attends (h : s.Moves t c) (ha : (s.co c).state.Expects → s.Attends c)
    (hx : (t.co c).state.Expects) : t.Attends c := by
  cases h with
  | other hs hx' => exact absurd hx hx'
  | queued hs hq => exact .inl hq
  | suspends hs ha => exact ha
  | stays hco hq ht =>
    rw [hco] at hx
    rcases ha hx with hin | ⟨u, hu, k, hk, hkc, haw⟩
    · exact .inl (hq hin)
    · rcases ht u hu k hk hkc with hu' | hin
      · exact .inr ⟨u, hu', k, hk, hkc, hco ▸ haw⟩
      · exact .inl hin

/-- A coroutine that has been called stays in the queue until its suspension is over. -/
def InLine (s : CoSys) (c n : Nat) : Prop :=
  n ≤ (s.co c).suspension ∧ ((s.co c).suspension = n → (s.co c).state.Expects →
    c ∈ targets s.world.scheduler.readyExecutors)

theorem Moves.inLine {n : Nat} (h : s.Moves t c) (hc : s.InLine c n) : t.InLine c n := by
  obtain ⟨hle, hin⟩ := hc
  cases h with
  | other hs hx => exact ⟨hle.trans hs, fun _ hx' => absurd hx' hx⟩
  | queued hs hq => exact ⟨hle.trans hs, fun _ _ => hq⟩
  | suspends hs ha => exact ⟨hle.trans hs.le, fun heq => absurd heq (by omega)⟩
  | stays hco hq ht =>
    rw [InLine, hco]
    exact ⟨hle, fun heq hx => hq (hin heq hx)⟩

/-- The coroutine at the head of the queue and the timer it will cancel. -/
def cancels (s : CoSys) : Option (Nat × Timer Callback) :=
  match s.world.scheduler.takeReady.1 with
  | some (.co c _) =>
    match (s.co c).state with
    | .waiting (.io _ _ timer false) => some (c, timer)
    | _ => none
  | _ => none

/-- What a program has to take care of: nobody calls `stop()`, no timer of another coroutine has
the target of the one `ioInner` cancels, and no direction is hit in which nobody waits. -/
def Heedful (s : CoSys) : CoInput → Prop
  | .act .stop => False
  | .dispatch _ => ∀ x ∈ s.cancels, ∀ t ∈ s.world.timerManager.timers,
    t.targetTimestamp = x.2.targetTimestamp → t.callback.map Callback.coroutine = some x.1
  | .blockPending clock batch => s.Filled (.blockPending clock batch)
  | _ => True

instance (s : CoSys) : DecidablePred s.Heedful
  | .act .stop => .isFalse id
  | .dispatch _ => inferInstanceAs (Decidable (∀ x ∈ s.cancels, _))
  | .blockPending clock batch => inferInstanceAs (Decidable (s.Filled (.blockPending clock batch)))
  | .act (.ioInner ..) | .act (.coConnect _) | .act (.sleepInner ..) | .act (.spawn _)
  | .act (.coSocket _) | .act (.coClose _) | .act (.removeEvent ..) | .act (.setTimeout ..)
  | .act .ret | .submit _ | .run => .isTrue trivial

theorem Heedful.filled (h : s.Heedful i) : s.Filled i := by
  cases i with
  | blockPending clock batch => exact h
  | _ => trivial

/-- The manager takes timers and executors. -/
def Open (s : CoSys) : Prop := s.world.stopped = false ∧ s.world.scheduler.stopping = false

/-- Nothing is lost and the coroutine is as before. -/
theorem Moves.frame (hco : t.co c = s.co c)
    (hq : s.world.scheduler.readyExecutors ⊆ t.world.scheduler.readyExecutors)
    (ht : s.world.timerManager.timers ⊆ t.world.timerManager.timers) : s.Moves t c := by
  refine .stays hco (fun hc => ?_) fun u hu _ _ _ => .inl (ht hu)
  obtain ⟨e, he, hec⟩ := mem_targets.1 hc
  exact mem_targets.2 ⟨e, hq he, hec⟩

theorem Moves.still {w : World Entry Callback} (hw : s.world.Still w) (hco : t.co c = s.co c)
    (ht : t.world = w) : s.Moves t c := by
  refine .frame hco ?_ ?_
  · rw [ht, hw.frame.scheduler]
    exact List.Subset.refl _
  · rw [ht, hw.timers]
    exact List.Subset.refl _

theorem spawn_moves {c' : Nat} (h : s.Tidy) (ho : s.Open) (hu : (s.co c').state = .unborn)
    (c : Nat) : s.Moves (s.spawn c') c := by
  have hq := World.addExecutor_queue ho.2 (some (.co c' 0))
  by_cases hc : c = c'
  · subst hc
    refine .queued ?_ ?_
    · rw [h.unborn c hu]
      exact Nat.zero_le _
    · show c ∈ targets (s.world.addExecutor (some (.co c 0))).scheduler.readyExecutors
      rw [hq, targets_append]
      exact List.mem_append_right _ List.mem_cons_self
  · refine .frame (Function.update_of_ne hc ..) ?_ (List.Subset.refl _)
    show _ ⊆ (s.world.addExecutor (some (.co c' 0))).scheduler.readyExecutors
    rw [hq]
    exact List.subset_append_left _ _

/-- The running coroutine goes into a wait; if it has a timer, it is pending. -/
theorem suspend_moves {wait : Wait} {r : Except Fault (World Entry Callback)} {b : Nat}
    (hr : ∀ w, r = .ok w → s.world.Frame w ∧
      s.world.timerManager.timers ⊆ w.timerManager.timers ∧
      ((CoState.waiting wait).Expects → ∃ t ∈ w.timerManager.timers, ∃ k, t.callback = some k ∧
        k.coroutine = c ∧ (⟨.waiting wait, (s.co c).suspension + 1⟩ : Coroutine).Awaits k))
    (hf : (s.suspend c wait r).world.fault = none) : s.Moves (s.suspend c wait r) b := by
  obtain ⟨w, rfl, heq⟩ := suspend_alive hf
  obtain ⟨hw, ht, hk⟩ := hr w rfl
  rw [heq]
  by_cases hb : b = c
  · subst hb
    have hself : Function.update s.co b ⟨.waiting wait, (s.co b).suspension + 1⟩ b =
      ⟨.waiting wait, (s.co b).suspension + 1⟩ := Function.update_self ..
    have hlt : (s.co b).suspension <
        (Function.update s.co b ⟨.waiting wait, (s.co b).suspension + 1⟩ b).suspension := by
      rw [hself]
      exact Nat.lt_succ_self _
    by_cases hx : (CoState.waiting wait).Expects
    · obtain ⟨u, hu, k, huk, hkc, ha⟩ := hk hx
      refine .suspends hlt (.inr ⟨u, hu, k, huk, hkc, ?_⟩)
      show (Function.update s.co b _ b).Awaits k
      rwa [hself]
    · refine .other hlt.le ?_
      show ¬ (Function.update s.co b _ b).state.Expects
      rwa [hself]
  · refine .frame (Function.update_of_ne hb ..) ?_ ht
    rw [hw.scheduler]
    exact List.Subset.refl _

theorem act_moves {a : CoAction} (h : s.Tidy) (ho : s.Open) (ha : ActEffect s c a t)
    (hs : a ≠ .stop) (hf : t.world.fault = none) (b : Nat) : s.Moves t b := by
  have hcall : ∀ {r : Except Fault (World Entry Callback)}, (∀ w, r = .ok w → s.world.Still w) →
      (s.call r).world.fault = none → s.Moves (s.call r) b := by
    intro r hr hf
    obtain ⟨w, rfl, heq⟩ := call_alive hf
    rw [heq]
    exact .still (hr w rfl) rfl rfl
  cases ha with
  | ioInner fd d curMs ms =>
    refine suspend_moves (fun w hw => ?_) hf
    obtain ⟨u, hu, hre⟩ := ok_of_bind hw
    obtain ⟨⟨r, w'⟩, hreg, rfl⟩ := ok_of_map hre
    obtain ⟨-, ⟨tm, htm, hk⟩, hsub⟩ := World.startTimer_spec h.world ho.1 hu
    have hst := World.registerEvent_still hreg
    refine ⟨(World.startTimer_frame hu).trans hst.frame, ?_, fun _ => ⟨tm, ?_, _, hk, rfl, ?_⟩⟩
    · rw [hst.timers]
      exact hsub
    · rw [hst.timers]
      exact htm
    · exact Coroutine.awaits_timeout.2 ⟨_, rfl⟩
  | coConnect fd =>
    refine suspend_moves (fun w hw => ?_) hf
    obtain ⟨⟨r, w'⟩, hreg, rfl⟩ := ok_of_map hw
    have hst := World.registerEvent_still (d := .write) hreg
    refine ⟨hst.frame, ?_, fun hx => hx.elim⟩
    rw [hst.timers]
    exact List.Subset.refl _
  | sleepInner ms curMs =>
    refine suspend_moves (fun w hw => ?_) hf
    obtain ⟨-, ⟨tm, htm, hk⟩, hsub⟩ := World.startTimer_spec h.world ho.1 hw
    exact ⟨World.startTimer_frame hw, hsub, fun _ =>
      ⟨tm, htm, _, hk, rfl, Coroutine.awaits_wake.2 rfl⟩⟩
  | spawn hu => exact spawn_moves h ho hu b
  | coSocket fd => exact hcall (fun w hw => World.coSocket_still hw) hf
  | coClose fd => exact hcall (fun w hw => World.coClose_still hw) hf
  | removeEvent fd events => exact hcall (fun w hw => World.removeEvent_still hw) hf
  | setTimeout => exact .frame rfl (List.Subset.refl _) (List.Subset.refl _)
  | stop => exact absurd rfl hs
  | ret =>
    by_cases hb : b = c
    · subst hb
      refine .other ?_ ?_
      · show _ ≤ (Function.update s.co b _ b).suspension
        rw [Function.update_self]
      · show ¬ (Function.update s.co b _ b).state.Expects
        rw [Function.update_self]
        exact id
    · exact .frame (Function.update_of_ne hb ..) (List.Subset.refl _) (List.Subset.refl _)

/-- A callback leaves the queue and its coroutine comes in. -/
theorem ran_moves {k : Callback} {q : List (Option Entry)} (ho : s.Open)
    (hq : s.world.scheduler.readyExecutors = some (.run k) :: q) (ht : (s.popped q).Ran k t)
    (b : Nat) : s.Moves t b := by
  obtain ⟨w, hw, htw⟩ := ht.world
  have hst : w.scheduler.stopping = false := by
    rw [hw.frame.scheduler]
    exact ho.2
  have hqueue : t.world.scheduler.readyExecutors = q ++ [some (.co k.coroutine k.issued)] := by
    rw [htw, World.addExecutor_queue hst, hw.frame.scheduler]
    rfl
  by_cases hb : b = k.coroutine
  · subst hb
    refine .queued ht.suspension.ge ?_
    rw [hqueue, targets_append]
    exact List.mem_append_right _ List.mem_cons_self
  · refine .stays (ht.other b hb) (fun hin => ?_) fun u hu _ _ _ => .inl ?_
    · obtain ⟨e, he, heb⟩ := mem_targets.1 hin
      rw [hq] at he
      rcases List.mem_cons.1 he with heq | he
      · cases heq
        exact absurd heb.symm hb
      · rw [hqueue]
        exact mem_targets.2 ⟨e, List.mem_append_left _ he, heb⟩
    · rw [htw]
      show u ∈ w.timerManager.timers
      rw [hw.timers]
      exact hu

/-- The head of the queue goes on; the timer it cancels is its own. -/
theorem resumed_moves {n : Nat} {q : List (Option Entry)} (h : s.Tidy)
    (hq : s.world.scheduler.readyExecutors = some (.co c n) :: q) (ht : (s.popped q).Resumed c t)
    (hown : ∀ fd d timer, (s.co c).state = .waiting (.io fd d timer false) →
      ∀ u ∈ s.world.timerManager.timers, u.targetTimestamp = timer.targetTimestamp →
        u.callback.map Callback.coroutine = some c) (b : Nat) : s.Moves t b := by
  have hpop : (s.popped q).world.Frame t.world := by
    rcases ht.world with hw | ⟨fd, d, timer, pick, -, hw⟩
    · rw [hw]
      exact ⟨rfl, rfl⟩
    · exact (World.cancelTimer_spec (popped_tidy h q).world hw).1
  by_cases hb : b = c
  · subst hb
    have hco : t.co b = { s.co b with state := .running } := by
      rw [ht.co]
      exact Function.update_self ..
    exact .other (by rw [hco]) (by rw [hco]; exact id)
  · have hco : t.co b = s.co b := by
      rw [ht.co]
      exact Function.update_of_ne hb ..
    refine .stays hco (fun hin => ?_) fun u hu k hk hkb => .inl ?_
    · obtain ⟨e, he, heb⟩ := mem_targets.1 hin
      rw [hq] at he
      rw [hpop.scheduler]
      rcases List.mem_cons.1 he with heq | he
      · cases heq
        exact absurd heb.symm hb
      · exact mem_targets.2 ⟨e, he, heb⟩
    · rcases ht.world with hw | ⟨fd, d, timer, pick, hx, hw⟩
      · rw [hw]
        exact hu
      · rcases (World.cancelTimer_spec (popped_tidy h q).world hw).2.2 u hu with htar | hin
        · have hc := hown fd d timer hx u hu htar
          rw [hk, Option.map_some, hkb] at hc
          exact absurd (Option.some.inj hc) hb
        · exact hin

theorem dispatch_moves {pick : Nat} (h : s.Tidy) (ho : s.Open)
    (hn : none ∉ s.world.scheduler.readyExecutors) (hc : s.Heedful (.dispatch pick))
    (hd : s.Dispatched t) (b : Nat) : s.Moves t b := by
  cases hd with
  | idle hq hp => exact .frame rfl (List.Subset.refl _) (List.Subset.refl _)
  | null hq hp => exact absurd (hq ▸ List.mem_cons_self) hn
  | ran hq ht => exact ran_moves ho hq ht b
  | @skipped c n q hq hd =>
    by_cases hb : b = c
    · subst hb
      exact .other (Nat.le_refl _) (by rw [show (s.popped q).co = s.co from rfl, hd]; exact id)
    · refine .stays rfl (fun hin => ?_) fun u hu _ _ _ => .inl hu
      obtain ⟨e, he, heb⟩ := mem_targets.1 hin
      rw [hq] at he
      rcases List.mem_cons.1 he with heq | he
      · cases heq
        exact absurd heb.symm hb
      · exact mem_targets.2 ⟨e, he, heb⟩
  | @resumed c n q _ hq ht =>
    refine resumed_moves h hq ht (fun fd d timer hx u hu htar => ?_) b
    have hcancels : s.cancels = some (c, timer) := by
      simp only [cancels, Scheduler.takeReady, hq, hx]
    exact hc (c, timer) hcancels u hu htar

theorem alive_moves (h : s.Tidy) (ho : s.Open) (hn : none ∉ s.world.scheduler.readyExecutors)
    (hc : s.Heedful i) (hs : s.alive i = some t) (b : Nat) : s.Moves t b := by
  obtain ⟨hs, hf⟩ := alive_inv hs
  cases step_effect hs with
  | submit hp hu => exact spawn_moves h ho hu b
  | run hp => exact .frame rfl (List.Subset.refl _) (List.Subset.refl _)
  | dispatch hp => exact dispatch_moves h ho hn hc (dispatch_dispatched hf) b
  | act hp ha => exact act_moves h ho ha (by rintro rfl; exact hc) hf b
  | blockPending hp hb =>
    obtain ⟨w, hw, heq⟩ := blockPending_alive h hp hb hf
    obtain ⟨l, hq, -⟩ := hw.queue
    rw [heq]
    refine .stays rfl (fun hin => ?_) fun u hu k hk hkb => ?_
    · show b ∈ targets w.scheduler.readyExecutors
      rw [hq, targets_append]
      exact List.mem_append_left _ hin
    · rcases hw.timers u hu with ⟨-, hu'⟩ | ⟨k', hk', hin⟩
      · exact .inl hu'
      · cases hk.symm.trans hk'
        exact .inr (mem_targets.2 ⟨_, hin, hkb⟩)

theorem Dispatched.sameMode (h : s.Tidy) (hd : s.Dispatched t) : s.world.SameMode t.world := by
  cases hd with
  | idle => exact .refl _
  | null => exact ⟨rfl, rfl, rfl⟩
  | @ran k q _ hq ht =>
    obtain ⟨w, hw, htw⟩ := ht.world
    have hpop : s.world.SameMode (s.popped q).world := ⟨rfl, rfl, rfl⟩
    rw [htw]
    exact (hpop.trans hw.frame.sameMode).trans (World.addExecutor_sameMode w _)
  | skipped => exact ⟨rfl, rfl, rfl⟩
  | @resumed c n q _ hq ht =>
    have hpop : s.world.SameMode (s.popped q).world := ⟨rfl, rfl, rfl⟩
    rcases ht.world with hw | ⟨fd, d, timer, pick, -, hw⟩
    · rw [hw]
      exact hpop
    · exact hpop.trans (World.cancelTimer_spec (popped_tidy h q).world hw).1.sameMode

theorem open_of_sameMode {w : World Entry Callback} (h : s.world.SameMode w) (ho : s.Open)
    (ht : t.world = w) : t.Open :=
  ⟨by rw [ht, h.stopped]; exact ho.1, by rw [ht, h.stopping]; exact ho.2⟩

theorem alive_open (h : s.Tidy) (ho : s.Open) (hc : s.Heedful i) (hs : s.alive i = some t) :
    t.Open := by
  obtain ⟨hs, hf⟩ := alive_inv hs
  cases step_effect hs with
  | submit hp hu => exact open_of_sameMode (World.addExecutor_sameMode _ _) ho rfl
  | run hp => exact ho
  | dispatch hp => exact open_of_sameMode ((dispatch_dispatched hf).sameMode h) ho rfl
  | act hp ha =>
    rcases act_frame_cases ha hf with hw | ⟨c', rfl⟩ | ⟨rfl, -⟩
    · exact open_of_sameMode hw.sameMode ho rfl
    · exact open_of_sameMode (World.addExecutor_sameMode _ _) ho rfl
    · exact hc.elim
  | blockPending hp hb =>
    obtain ⟨w, hw, heq⟩ := blockPending_alive h hp hb hf
    exact open_of_sameMode hw.mode ho (congrArg world heq)

/-- The invariant of the runs in which nothing goes wrong. -/
structure Attended (s : CoSys) : Prop where
  tidy : s.Tidy
  opened : s.Open
  noNull : none ∉ s.world.scheduler.readyExecutors
  idle : s.BlocksIdle
  attends : ∀ c, (s.co c).state.Expects → s.Attends c

theorem alive_attended (h : s.Attended) (hc : s.Heedful i) (hs : s.alive i = some t) :
    t.Attended where
  tidy := alive_tidy h.tidy hs
  opened := alive_open h.tidy h.opened hc hs
  noNull := (alive_null_iff h.tidy h.noNull hs).2 hc.filled
  idle := alive_blocksIdle h.noNull hs
  attends c := (alive_moves h.tidy h.opened h.noNull hc hs c).attends (h.attends c)

theorem init_attended (pipe : Nat) : (init pipe).Attended where
  tidy := init_tidy pipe
  opened := ⟨rfl, rfl⟩
  noNull := by simp [init, World.init]
  idle hp := by cases hp
  attends _ hx := hx.elim

/-- While the loop blocks, only timers attend. -/
theorem Attended.timer (h : s.Attended) (hp : s.phase = .blocked) (hx : (s.co c).state.Expects) :
    ∃ t ∈ s.world.timerManager.timers, ∃ k, t.callback = some k ∧ k.coroutine = c ∧
      (s.co c).Awaits k := by
  rcases h.attends c hx with hin | ht
  · rw [h.idle hp] at hin
    cases hin
  · exact ht

/-- A call of `blockPending` after the target puts the coroutine in line. -/
theorem Attended.inLine {clock : Nat → Nat} {batch : List EpollEvent} (h : s.Attended)
    (hs : s.alive (.blockPending clock batch) = some t) {u : Timer Callback} {k : Callback}
    (hu : u ∈ s.world.timerManager.timers) (hdue : u.targetTimestamp ≤ clock 0)
    (hk : u.callback = some k) : t.InLine k.coroutine (s.co k.coroutine).suspension := by
  obtain ⟨hs, hf⟩ := alive_inv hs
  cases step_effect hs with
  | blockPending hp hb =>
    obtain ⟨w, hw, heq⟩ := blockPending_alive h.tidy hp hb hf
    refine ⟨?_, fun _ _ => ?_⟩ <;> simp only [heq]
    · exact Nat.le_refl _
    · rcases hw.timers u hu with ⟨hlt, -⟩ | ⟨k', hk', hin⟩
      · omega
      · cases hk.symm.trans hk'
        exact mem_targets.2 ⟨_, hin, rfl⟩

/-- **Nobody is forgotten.** In every run whose steps are heedful: a coroutine that was queued by
its creator, sleeps or waits in `ioInner` is attended; while the loop blocks, the timer of its
wait is pending; and once `blockPending` has read a time past the target of that timer, the wait
is over when the loop blocks again. -/
theorem nobody_forgotten {pipe : Nat} {is : List CoInput}
    (hm : Meets alive Heedful (init pipe) is) (hr : run alive (init pipe) is = some s) :
    (∀ c, (s.co c).state.Expects → s.Attends c) ∧
    (s.phase = .blocked → ∀ c, (s.co c).state.Expects →
      ∃ t ∈ s.world.timerManager.timers, ∃ k, t.callback = some k ∧ k.coroutine = c ∧
        (s.co c).Awaits k) ∧
    ∀ clock batch js u, Meets alive Heedful s (.blockPending clock batch :: js) →
      run alive s (.blockPending clock batch :: js) = some u → u.phase = .blocked →
      ∀ t ∈ s.world.timerManager.timers, t.targetTimestamp ≤ clock 0 →
      ∀ k, t.callback = some k → (s.co k.coroutine).Awaits k → ¬ (u.co k.coroutine).Awaits k := by
  have hs : s.Attended :=
    (hm.along (fun _ _ _ h hc hs => alive_attended h hc hs) (init_attended pipe)).last hr
  refine ⟨hs.attends, fun hp c hx => hs.timer hp hx, ?_⟩
  intro clock batch js u hmj hrj hp t ht hdue k hk ha ha'
  obtain ⟨s', hs', hrj⟩ := run_cons_inv hrj
  have hin := hs.inLine hs' ht hdue hk
  set n := (s.co k.coroutine).suspension
  have hstep : ∀ (v : CoSys) i (v' : CoSys), v.Attended ∧ v.InLine k.coroutine n → v.Heedful i →
      v.alive i = some v' → v'.Attended ∧ v'.InLine k.coroutine n := fun v i v' hv hc hs =>
    ⟨alive_attended hv.1 hc hs,
      (alive_moves hv.1.tidy hv.1.opened hv.1.noNull hc hs _).inLine hv.2⟩
  have hlast := ((hmj.2 s' hs').along hstep ⟨alive_attended hs hmj.1 hs', hin⟩).last hrj
  have hmem := hlast.2.2 (ha'.1.trans ha.1.symm) ha'.expects
  rw [hlast.1.idle hp] at hmem
  cases hmem

/-- Coroutine 1 sleeps until 100, coroutine 2 waits for a socket until 50, and the loop blocks. -/
def sleepers : List CoInput :=
  [.submit 1, .submit 2, .run, .dispatch 0, .act (.sleepInner 100 0), .dispatch 0,
    .act (.coSocket 5), .act (.setTimeout 5 .read 50), .act (.ioInner 5 .read 0), .dispatch 0,
    .blockPending (fun _ => 20) [], .dispatch 0]

/-- At 60 the time-out is queued, and coroutine 2 after it; then the loop blocks again. -/
def timedOut : List CoInput :=
  [.blockPending (fun _ => 60) [], .dispatch 0, .dispatch 0, .act .ret, .dispatch 0]

theorem nobody_forgotten_timedOut : ∃ s u, run alive (init 3) sleepers = some s ∧
    run alive s timedOut = some u ∧ (s.co 2).Awaits (.timeout 2 1 5 .read) ∧
    ¬ (u.co 2).Awaits (.timeout 2 1 5 .read) := by
  have hfacts : ∀ s ∈ run alive (init 3) sleepers, Meets alive Heedful s timedOut ∧
      (∃ u ∈ run alive s timedOut, u.phase = .blocked) ∧
      (∃ t ∈ s.world.timerManager.timers, t.targetTimestamp ≤ 60 ∧
        t.callback = some (.timeout 2 1 5 .read)) ∧ (s.co 2).Awaits (.timeout 2 1 5 .read) := by
    decide +kernel
  obtain ⟨s, hs⟩ := Option.isSome_iff_exists.1
    (show (run alive (init 3) sleepers).isSome = true by decide +kernel)
  obtain ⟨hm, ⟨u, hu, hp⟩, ⟨t, ht, hdue, hk⟩, ha⟩ := hfacts s hs
  have h := nobody_forgotten (by decide +kernel) hs
  exact ⟨s, u, hs, hu, ha, h.2.2 _ _ _ u hm hu hp t ht hdue _ hk ha⟩

end CoSys

end NetBase
