import NetBase.IO.GracefulStop
import NetBase.IO.OneWakeup

/-!
# Blocking with work in the queue

The loop goes into `epoll_wait` when the pointer it takes from the queue is null, and an empty
queue gives one. So does a null pointer in the queue, with executors behind it, and it gets there
when an event hits a direction in which nobody waits: `EPOLLERR` and `EPOLLHUP` hit both.
`null_free_iff` says that this is the only way.
-/

namespace NetBase

open Lib

namespace FdEvents

variable {f : FdEvents Entry} {ev : EpollEvent}

theorem none_mem_woken : none ∈ f.woken ev ↔ ∃ d, ev.Hits d ∧ f.executor d = none := by
  constructor
  · intro h
    obtain ⟨d, hd, hx⟩ := mem_woken h
    exact ⟨d, hd, hx.symm⟩
  · rintro ⟨d, hd, hx⟩
    unfold woken
    cases d with
    | read => exact List.mem_append_left _ (by simp [hd, show f.readExecutor = none from hx])
    | write => exact List.mem_append_right _ (by simp [hd, show f.writeExecutor = none from hx])

end FdEvents

namespace World

variable {w w' : World Entry Callback} {fd first : Nat} {d : EventType} {ev : EpollEvent}
  {batch : List EpollEvent}

/-- Everything is registered for one call. -/
structure Tidy (w : World Entry Callback) : Prop where
  ordered : w.timerManager.Ordered
  timers : ∀ t ∈ w.timerManager.timers, t.repeats = false ∧ t.callback.isSome = true
  once : ∀ fd d, (w.entry fd).callOnce d = true

/-- The call touches neither the queue nor the timers. -/
structure Still (w w' : World Entry Callback) : Prop where
  frame : w.Frame w'
  timers : w'.timerManager = w.timerManager
  once : (∀ fd d, (w.entry fd).callOnce d = true) → ∀ fd d, (w'.entry fd).callOnce d = true

theorem Still.tidy (h : w.Still w') (ht : w.Tidy) : w'.Tidy := by
  refine ⟨?_, ?_, h.once ht.once⟩ <;> rw [h.timers]
  · exact ht.ordered
  · exact ht.timers

theorem removeEvent_still {events : BitVec 32} (h : w.removeEvent fd events = .ok w') :
    w.Still w' := by
  refine ⟨removeEvent_frame h, ?_, fun ho g d => ?_⟩
  · rcases removeEvent_inv h with ⟨-, rfl⟩ | ⟨f, -, -, k, rfl⟩ <;> rfl
  · rw [(removeEvent_loses h).once]
    exact ho g d

theorem coClose_still (h : w.coClose fd = .ok w') : w.Still w' := by
  refine ⟨coClose_frame h, ?_, fun ho g d => ?_⟩
  · obtain ⟨u, fds, hu, rfl⟩ := coClose_ok h
    rcases hu with rfl | hu
    · rfl
    · exact (removeEvent_still hu).timers
  · rw [(coClose_loses h).once]
    exact ho g d

theorem coSocket_still (h : w.coSocket fd = .ok w') : w.Still w' := by
  obtain ⟨fds, rfl⟩ := coSocket_ok h
  exact ⟨⟨rfl, rfl⟩, rfl, id⟩

theorem registerEvent_still {x : Option Entry} {r : Bool}
    (h : w.registerEvent fd d.mask x true = .ok (r, w')) : w.Still w' := by
  refine ⟨registerEvent_frame h, ?_, fun ho g d' => ?_⟩
  · rcases registerEvent_ok h with rfl | ⟨-, k, rfl⟩ <;> rfl
  · rcases registerEvent_ok h with rfl | ⟨hfit, k, rfl⟩
    · exact ho g d'
    · apply (registered_callOnce hfit g d').trans
      split
      · rfl
      · exact ho g d'

/-- A manager that is not stopped puts the new timer in. -/
theorem startTimer_spec {curMs ms : Nat} {k : Callback} (ht : w.Tidy) (hs : w.stopped = false)
    (h : (CoSys.startTimer w curMs ms k).2 = .ok w') :
    w'.Tidy ∧ (∃ t ∈ w'.timerManager.timers, t.callback = some k) ∧
      ∀ t ∈ w.timerManager.timers, t ∈ w'.timerManager.timers := by
  simp only [CoSys.startTimer, registerTimer, TimerManager.newTimer, hs, Bool.false_eq_true,
    ↓reduceIte] at h
  cases h
  refine ⟨⟨ht.ordered.insert _, fun u hu => ?_, ht.once⟩, ?_, fun u hu => ?_⟩
  · rcases Multi.mem_insert.1 hu with rfl | hu
    · exact ⟨rfl, rfl⟩
    · exact ht.timers u hu
  · exact ⟨_, Multi.mem_insert.2 (.inl rfl), rfl⟩
  · exact Multi.mem_insert.2 (.inr hu)

/-! ## `blockPending` -/

/-- What a batch does: it queues the executors it hits, null pointers among them. -/
structure Handles (w : World Entry Callback) (batch : List EpollEvent) (w' : World Entry Callback) :
    Prop where
  mode : w.SameMode w'
  timers : w'.timerManager = w.timerManager
  once : ∀ fd d, (w'.entry fd).callOnce d = true
  queue : ∃ woken, w'.scheduler.readyExecutors = w.scheduler.readyExecutors ++ woken ∧
    (none ∈ woken ↔ ∃ ev ∈ batch, ev.fd ≠ w.wakeupPipeFd ∧
      ∃ d, ev.Hits d ∧ (w.entry ev.fd).executor d = none)

theorem handled_handles (first : Nat) {f : FdEvents Entry}
    (ho : ∀ fd d, (w.entry fd).callOnce d = true) (hp : ev.fd ≠ w.wakeupPipeFd)
    (hf : w.fdEvents[ev.fd]? = some f) :
    w.Handles [ev] (w.handled first ev) := by
  refine ⟨⟨rfl, rfl, rfl⟩, rfl, fun g d => ?_, _, rfl, ?_⟩
  · rw [handled_entry first hf]
    split
    · rw [FdEvents.afterEvent_callOnce, ← entry_eq hf]
      exact ho ev.fd d
    · exact ho g d
  · rw [FdEvents.none_mem_woken]
    constructor
    · rintro ⟨d, hd, hx⟩
      exact ⟨ev, List.mem_singleton_self ev, hp, d, hd, hx⟩
    · rintro ⟨ev', hev, -, d, hd, hx⟩
      cases List.mem_singleton.1 hev
      exact ⟨d, hd, hx⟩

theorem handleEvents_handles (ho : ∀ fd d, (w.entry fd).callOnce d = true)
    (hs : w.scheduler.stopping = false) (hn : (batch.map EpollEvent.fd).Nodup)
    (hm : ∀ ev ∈ batch, ∃ m, w.epoll.interest ev.fd = some m)
    (hr : w.handleEvents first batch = .ok w') : w.Handles batch w' := by
  induction batch generalizing w with
  | nil =>
    cases hr
    exact ⟨.refl _, rfl, ho, [], by simp, by simp⟩
  | cons ev batch ih =>
    obtain ⟨hfd, hn⟩ := List.nodup_cons.1 hn
    have hm' := fun e he => hm e (List.mem_cons_of_mem _ he)
    by_cases hp : ev.fd = w.wakeupPipeFd
    · simp only [handleEvents, handleEvent, hp, if_true] at hr
      obtain ⟨hmode, htimers, honce, woken, hq, hnull⟩ := ih ho hs hn hm' hr
      refine ⟨hmode, htimers, honce, woken, hq, hnull.trans ?_⟩
      simp [hp]
    · obtain ⟨u, hu, hr⟩ := ok_of_bind hr
      obtain ⟨m, hev⟩ := hm ev List.mem_cons_self
      have hkept : Kept (w.entry first) := fun d hd => by rw [ho] at hd; cases hd
      obtain ⟨rfl, f, hf⟩ := handleEvent_ok hkept hp hev hs hu
      obtain ⟨hmode, htimers, honce, woken, hq, hnull⟩ := handled_handles first ho hp hf
      have hne : ∀ e ∈ batch, e.fd ≠ ev.fd := fun e he heq => hfd (heq ▸ List.mem_map_of_mem he)
      have hrest := ih honce hs hn
        (fun e he => by rw [handled_interest_other w (hne e he)]; exact hm' e he) hr
      obtain ⟨hmode', htimers', honce', woken', hq', hnull'⟩ := hrest
      refine ⟨hmode.trans hmode', htimers'.trans htimers, honce', woken ++ woken', ?_, ?_⟩
      · rw [hq', hq, List.append_assoc]
      · -- the rest of the batch finds the slots of its own descriptors as they were
        have hsame : ∀ e ∈ batch, (w.handled first ev).entry e.fd = w.entry e.fd :=
          fun e he => by rw [handled_entry first hf, if_neg (hne e he)]
        rw [List.mem_append, hnull, hnull']
        constructor
        · rintro (⟨e, he, h⟩ | ⟨e, he, hpe, d, hd, hx⟩)
          · cases List.mem_singleton.1 he
            exact ⟨ev, List.mem_cons_self, h⟩
          · rw [hsame e he] at hx
            exact ⟨e, List.mem_cons_of_mem _ he, hpe, d, hd, hx⟩
        · rintro ⟨e, he, hpe, d, hd, hx⟩
          rcases List.mem_cons.1 he with rfl | he
          · exact .inl ⟨e, List.mem_singleton_self e, hpe, d, hd, hx⟩
          · exact .inr ⟨e, he, hpe, d, hd, by rw [hsame e he]; exact hx⟩

/-- The expired timers are queued, then what the events hit. -/
structure Wakes (w : World Entry Callback) (clock : Nat → Nat) (batch : List EpollEvent)
    (w' : World Entry Callback) : Prop where
  tidy : w'.Tidy
  mode : w.SameMode w'
  timers : ∀ t ∈ w.timerManager.timers, clock 0 < t.targetTimestamp ∧
    t ∈ w'.timerManager.timers ∨
    ∃ k, t.callback = some k ∧ some (.run k) ∈ w'.scheduler.readyExecutors
  queue : ∃ l, w'.scheduler.readyExecutors = w.scheduler.readyExecutors ++ l ∧
    (none ∈ l ↔ ∃ ev ∈ batch, ev.fd ≠ w.wakeupPipeFd ∧
      ∃ d, ev.Hits d ∧ (w.entry ev.fd).executor d = none)

theorem none_notMem_called (ts : List (Timer Callback)) : none ∉ called Entry.run ts := by
  rw [called_run]
  simp

theorem expired_wakes (clock : Nat → Nat) (ht : w.Tidy) :
    w.Wakes clock [] (w.expired .run clock) := by
  have hdrop : (w.timerManager.takeExpiredTimers clock).2.timers =
      w.timerManager.timers.drop (TimerManager.expiredEnd (clock 0) w.timerManager.timers) := by
    refine congrArg TimerManager.timers (TimerManager.addRepeats_of_once fun t hm => ?_)
    exact (ht.timers t (List.mem_of_mem_take hm)).1
  refine ⟨⟨?_, fun t hm => ?_, ht.once⟩, ⟨rfl, rfl, rfl⟩, fun t hm => ?_, _, rfl, ?_⟩
  · show Multi.Sorted _ (w.timerManager.takeExpiredTimers clock).2.timers
    rw [hdrop]
    exact ht.ordered.sublist (List.drop_sublist _ _)
  · replace hm : t ∈ (w.timerManager.takeExpiredTimers clock).2.timers := hm
    rw [hdrop] at hm
    exact ht.timers t (List.mem_of_mem_drop hm)
  · by_cases hdue : t.targetTimestamp ≤ clock 0
    · obtain ⟨k, hk⟩ := Option.isSome_iff_exists.1 (ht.timers t hm).2
      refine .inr ⟨k, hk, List.mem_append_right _ ?_⟩
      have hexp := (TimerManager.mem_takeExpired ht.ordered).2 ⟨hm, hdue⟩
      rw [called_run]
      exact List.mem_map_of_mem (List.mem_filterMap.2 ⟨t, hexp, hk⟩)
    · refine .inl ⟨Nat.lt_of_not_le hdue, ?_⟩
      have hsplit := List.take_append_drop
        (TimerManager.expiredEnd (clock 0) w.timerManager.timers) w.timerManager.timers
      rcases List.mem_append.1 (hsplit ▸ hm) with hexp | hleft
      · exact absurd ((TimerManager.mem_takeExpired ht.ordered).1 hexp).2 hdue
      · show t ∈ (w.timerManager.takeExpiredTimers clock).2.timers
        rw [hdrop]
        exact hleft
  · simpa using none_notMem_called _

theorem blockPending_wakes {clock : Nat → Nat} (ht : w.Tidy) (hb : w.epoll.Reports batch)
    (hs : w.scheduler.stopping = false) (hr : w.blockPending .run clock batch = .ok w') :
    w.Wakes clock batch w' := by
  rw [blockPending_eq (fun t hm => (ht.timers t hm).2) hs] at hr
  obtain ⟨htidy, hmode, htimers, l, hq, hl⟩ := expired_wakes clock ht
  cases batch with
  | nil =>
    cases hr
    exact ⟨htidy, hmode, htimers, l, hq, hl⟩
  | cons first batch =>
    have hh := handleEvents_handles (w := w.expired .run clock) htidy.once hs hb.2.1
      (fun e he => by obtain ⟨m, hm, -⟩ := hb.interest he; exact ⟨m, hm⟩) hr
    obtain ⟨hmode', htimers', honce, woken, hq', hnull⟩ := hh
    refine ⟨⟨?_, ?_, honce⟩, hmode.trans hmode', fun t hm => ?_, l ++ woken, ?_, ?_⟩
    · rw [htimers']
      exact htidy.ordered
    · rw [htimers']
      exact htidy.timers
    · rw [htimers', hq']
      rcases htimers t hm with h | ⟨k, hk, hin⟩
      · exact .inl h
      · exact .inr ⟨k, hk, List.mem_append_left _ hin⟩
    · rw [hq', hq, List.append_assoc]
    · have hl' : none ∉ l := fun h => by simpa using hl.1 h
      rw [List.mem_append, or_iff_right hl']
      exact hnull

theorem addExecutor_tidy (h : w.Tidy) (x : Option Entry) : (w.addExecutor x).Tidy :=
  ⟨h.ordered, h.timers, h.once⟩

theorem addExecutor_queue (hs : w.scheduler.stopping = false) (x : Option Entry) :
    (w.addExecutor x).scheduler.readyExecutors = w.scheduler.readyExecutors ++ [x] := by
  simp [addExecutor, Scheduler.addExecutor_running hs]

theorem none_mem_addExecutor {e : Entry}
    (h : none ∈ (w.addExecutor (some e)).scheduler.readyExecutors) :
    none ∈ w.scheduler.readyExecutors := by
  cases hs : w.scheduler.stopping with
  | true => simpa [addExecutor, Scheduler.addExecutor_stopping hs] using h
  | false => simpa [addExecutor_queue hs] using h

/-- Only a timer of the same target can be gone. -/
theorem cancelTimer_spec {pick : Nat} {timer : Timer Callback} (ht : w.Tidy)
    (h : w.cancelTimer pick timer = .ok w') :
    w.Frame w' ∧ w'.Tidy ∧ ∀ t ∈ w.timerManager.timers,
      t.targetTimestamp = timer.targetTimestamp ∨ t ∈ w'.timerManager.timers := by
  obtain ⟨m, hm, hw⟩ := ok_of_bind h
  cases hw
  simp only [TimerManager.removeTimer] at hm
  split at hm
  · rename_i iter hfind
    cases hm
    have hsub := List.eraseIdx_sublist w.timerManager.timers iter
    refine ⟨⟨rfl, rfl⟩, ⟨ht.ordered.sublist hsub, fun t hm => ?_, ht.once⟩, fun t hm => ?_⟩
    · exact ht.timers t (hsub.subset hm)
    · obtain ⟨j, x, -, -, -, herase⟩ := Multi.find_some ht.ordered hfind
      rcases Nat.lt_trichotomy t.targetTimestamp timer.targetTimestamp with hlt | heq | hgt
      · refine .inr ?_
        show t ∈ w.timerManager.timers.eraseIdx iter
        rw [herase]
        exact List.mem_append_left _ (List.mem_filter.2 ⟨hm, by simpa using hlt⟩)
      · exact .inl heq
      · refine .inr ?_
        show t ∈ w.timerManager.timers.eraseIdx iter
        rw [herase]
        refine List.mem_append_right _ (List.mem_append_right _ ?_)
        exact List.mem_filter.2 ⟨hm, by simpa using hgt⟩
  · cases hm

end World

namespace CoSys

variable {s t : CoSys} {c : Nat} {i : CoInput}

/-- The steps that do not stop the process. -/
def alive (s : CoSys) (i : CoInput) : Option CoSys :=
  (s.step i).filter fun t => t.world.fault.isNone

theorem alive_inv (h : s.alive i = some t) : s.step i = some t ∧ t.world.fault = none := by
  simpa [alive, Option.filter_eq_some_iff] using h

structure Tidy (s : CoSys) : Prop where
  world : s.world.Tidy
  unborn : ∀ c, (s.co c).state = .unborn → (s.co c).suspension = 0
  blocked : s.phase = .blocked → s.world.scheduler.stopping = false

/-- The events of the batch hit only directions in which somebody waits. -/
def Filled (s : CoSys) : CoInput → Prop
  | .blockPending _ batch => ∀ ev ∈ batch, ev.fd ≠ s.world.wakeupPipeFd → ∀ d, ev.Hits d →
    (s.world.entry ev.fd).executor d ≠ none
  | _ => True

instance (s : CoSys) : DecidablePred s.Filled
  | .blockPending _ batch => inferInstanceAs (Decidable (∀ ev ∈ batch, _))
  | .submit _ | .run | .dispatch _ | .act _ => .isTrue trivial

/-! ## What the parts of a step do -/

theorem call_alive {r : Except Fault (World Entry Callback)}
    (h : (s.call r).world.fault = none) : ∃ w, r = .ok w ∧ s.call r = s.setWorld w := by
  cases r with
  | error e => cases h
  | ok w => exact ⟨w, rfl, rfl⟩

theorem suspend_alive {wait : Wait} {r : Except Fault (World Entry Callback)}
    (h : (s.suspend c wait r).world.fault = none) : ∃ w, r = .ok w ∧ s.suspend c wait r =
      { s.setCo c ⟨.waiting wait, (s.co c).suspension + 1⟩ with world := w, phase := .loop } := by
  cases r with
  | error e => cases h
  | ok w => exact ⟨w, rfl, rfl⟩

/-- A callback queues its coroutine, and may set the flag of its wait. -/
structure Ran (s : CoSys) (k : Callback) (t : CoSys) : Prop where
  phase : t.phase = s.phase
  world : ∃ w, s.world.Still w ∧ t.world = w.addExecutor (some (.co k.coroutine k.issued))
  other : ∀ b, b ≠ k.coroutine → t.co b = s.co b
  suspension : (t.co k.coroutine).suspension = (s.co k.coroutine).suspension
  unborn : (t.co k.coroutine).state = .unborn → (s.co k.coroutine).state = .unborn

theorem runCallback_ran {k : Callback} (hf : (s.runCallback k).world.fault = none) :
    s.Ran k (s.runCallback k) := by
  have hsame : ∀ u : CoSys, u.world = s.world → u.co = s.co → u.phase = s.phase →
      s.Ran k (u.setWorld (u.world.addExecutor (some (.co k.coroutine k.issued)))) := by
    intro u hw hco hp
    refine ⟨hp, ⟨s.world, ⟨⟨rfl, rfl⟩, rfl, id⟩, by rw [← hw]; rfl⟩, fun b _ => ?_, ?_, ?_⟩
    all_goals simp only [setWorld, hco]
    exact id
  cases k with
  | wake c n => exact hsame { s with ran := s.ran ++ [.wake c n] } rfl rfl rfl
  | timeout c n fd d =>
    unfold runCallback at hf ⊢
    simp only at hf ⊢
    split
    · rename_i fd' d' timer m hx
      replace hx : s.co c = ⟨.waiting (.io fd' d' timer false), m⟩ := hx
      simp only [hx] at hf
      split
      · rename_i hm
        simp only [hm, if_true] at hf
        cases hr : s.world.removeEvent fd d.mask with
        | error e => rw [hr] at hf; cases hf
        | ok w =>
          refine ⟨rfl, ⟨w, World.removeEvent_still hr, rfl⟩, fun b hb => ?_, ?_, fun hu => ?_⟩
          · exact Function.update_of_ne hb ..
          · show (Function.update s.co c _ c).suspension = (s.co c).suspension
            rw [Function.update_self, hx]
          · have hself : (Function.update s.co c ⟨.waiting (.io fd' d' timer true), m⟩ c).state =
                .unborn := hu
            rw [Function.update_self] at hself
            cases hself
      · exact hsame { s with ran := s.ran ++ [.timeout c n fd d] } rfl rfl rfl
    · exact hsame { s with ran := s.ran ++ [.timeout c n fd d] } rfl rfl rfl

/-- The coroutine runs, its timer being cancelled if its wait has not timed out. -/
structure Resumed (s : CoSys) (c : Nat) (t : CoSys) : Prop where
  phase : t.phase = .running c
  co : t.co = Function.update s.co c { s.co c with state := .running }
  world : t.world = s.world ∨ ∃ fd d timer pick,
    (s.co c).state = .waiting (.io fd d timer false) ∧ s.world.cancelTimer pick timer = .ok t.world

theorem resume_resumed {n pick : Nat} (hf : (s.resume c n pick).world.fault = none) :
    s.Resumed c (s.resume c n pick) := by
  refine ⟨resume_phase .., resume_co .., ?_⟩
  unfold resume at hf ⊢
  dsimp only at hf ⊢
  split
  · rename_i fd d timer hx
    simp only [hx] at hf
    obtain ⟨w, hw, heq⟩ := call_alive hf
    rw [heq]
    exact .inr ⟨fd, d, timer, pick, hx, hw⟩
  · exact .inl rfl

/-- The queue after the loop has taken its head. -/
def popped (s : CoSys) (q : List (Option Entry)) : CoSys :=
  { s with world := { s.world with scheduler := { s.world.scheduler with readyExecutors := q } } }

/-- A round of the loop. -/
inductive Dispatched (s : CoSys) : CoSys → Prop
  | idle {p : CoPhase} (hq : s.world.scheduler.readyExecutors = [])
      (hp : p = .blocked → s.world.scheduler.stopping = false) : Dispatched s { s with phase := p }
  | null {q p} (hq : s.world.scheduler.readyExecutors = none :: q)
      (hp : p = .blocked → s.world.scheduler.stopping = false) :
      Dispatched s { s.popped q with phase := p }
  | ran {k q t} (hq : s.world.scheduler.readyExecutors = some (.run k) :: q)
      (ht : (s.popped q).Ran k t) : Dispatched s t
  | skipped {c n q} (hq : s.world.scheduler.readyExecutors = some (.co c n) :: q)
      (hd : (s.co c).state = .done) : Dispatched s (s.popped q)
  | resumed {c n q t} (hq : s.world.scheduler.readyExecutors = some (.co c n) :: q)
      (ht : (s.popped q).Resumed c t) : Dispatched s t

theorem dispatch_dispatched {pick : Nat} (hf : (s.dispatch pick).world.fault = none) :
    s.Dispatched (s.dispatch pick) := by
  have hphase : ∀ b : Bool, (if b then CoPhase.left else .blocked) = .blocked → b = false := by
    intro b
    cases b <;> simp
  cases hq : s.world.scheduler.readyExecutors with
  | nil =>
    simp only [dispatch, Scheduler.takeReady, hq]
    exact .idle hq (hphase _)
  | cons x q =>
    simp only [dispatch, Scheduler.takeReady, hq] at hf ⊢
    cases x with
    | none => exact .null hq (hphase _)
    | some e =>
      cases e with
      | run k => exact .ran hq (runCallback_ran hf)
      | co c n =>
        simp only at hf ⊢
        split
        · exact .skipped hq ‹_›
        · rename_i hd
          rw [if_neg hd] at hf
          exact .resumed hq (resume_resumed hf)

/-! ## Every step keeps the order -/

theorem popped_tidy (h : s.Tidy) (q : List (Option Entry)) : (s.popped q).Tidy :=
  ⟨⟨h.world.ordered, h.world.timers, h.world.once⟩, h.unborn, h.blocked⟩

theorem Tidy.setCo (h : s.Tidy) {x : Coroutine} (hx : x.state ≠ .unborn) :
    ∀ b, (Function.update s.co c x b).state = .unborn →
      (Function.update s.co c x b).suspension = 0 := by
  intro b hb
  by_cases hbc : b = c
  · subst hbc
    rw [Function.update_self] at hb
    exact absurd hb hx
  · rw [Function.update_of_ne hbc] at hb ⊢
    exact h.unborn b hb

theorem Ran.tidy {k : Callback} (h : s.Tidy) (hr : s.Ran k t) : t.Tidy := by
  obtain ⟨w, hw, ht⟩ := hr.world
  refine ⟨?_, fun b hb => ?_, fun hp => ?_⟩
  · rw [ht]
    exact World.addExecutor_tidy (hw.tidy h.world) _
  · by_cases hbc : b = k.coroutine
    · subst hbc
      rw [hr.suspension]
      exact h.unborn _ (hr.unborn hb)
    · rw [hr.other b hbc] at hb ⊢
      exact h.unborn b hb
  · rw [ht, (World.addExecutor_sameMode w _).stopping, hw.frame.scheduler]
    exact h.blocked (hr.phase ▸ hp)

theorem Resumed.tidy (h : s.Tidy) (hr : s.Resumed c t) : t.Tidy := by
  refine ⟨?_, ?_, fun hp => ?_⟩
  · rcases hr.world with hw | ⟨fd, d, timer, pick, -, hw⟩
    · rw [hw]
      exact h.world
    · exact (World.cancelTimer_spec h.world hw).2.1
  · rw [hr.co]
    exact h.setCo (by simp)
  · rw [hr.phase] at hp
    cases hp

theorem Dispatched.tidy (h : s.Tidy) (hd : s.Dispatched t) : t.Tidy := by
  cases hd with
  | idle hq hp => exact ⟨h.world, h.unborn, hp⟩
  | null hq hp => exact ⟨(popped_tidy h _).world, h.unborn, hp⟩
  | ran hq ht => exact ht.tidy (popped_tidy h _)
  | skipped hq hd => exact popped_tidy h _
  | resumed hq ht => exact ht.tidy (popped_tidy h _)

theorem Tidy.spawn (h : s.Tidy) (hp : s.phase ≠ .blocked) (c : Nat) : (s.spawn c).Tidy :=
  ⟨World.addExecutor_tidy h.world _, h.setCo (by simp), fun hb => absurd hb hp⟩

/-- An action of the running coroutine that leaves the queue and the timers alone. -/
theorem Tidy.still {r : Except Fault (World Entry Callback)} (h : s.Tidy)
    (hp : s.phase = .running c) (hr : ∀ w, r = .ok w → s.world.Still w)
    (hf : (s.call r).world.fault = none) : (s.call r).Tidy := by
  obtain ⟨w, rfl, heq⟩ := call_alive hf
  rw [heq]
  refine ⟨(hr w rfl).tidy h.world, h.unborn, fun hb => ?_⟩
  cases hp.symm.trans hb

theorem startTimer_tidy {w w' : World Entry Callback} {curMs ms : Nat} {k : Callback} (h : w.Tidy)
    (hr : (startTimer w curMs ms k).2 = .ok w') : w'.Tidy := by
  cases hs : w.stopped with
  | false => exact (World.startTimer_spec h hs hr).1
  | true =>
    simp only [startTimer, World.registerTimer, TimerManager.newTimer, hs, ↓reduceIte] at hr
    cases hr
    exact ⟨h.ordered, h.timers, h.once⟩

theorem Tidy.suspend {wait : Wait} {r : Except Fault (World Entry Callback)} (h : s.Tidy)
    (hr : ∀ w, r = .ok w → w.Tidy) (hf : (s.suspend c wait r).world.fault = none) :
    (s.suspend c wait r).Tidy := by
  obtain ⟨w, rfl, heq⟩ := suspend_alive hf
  rw [heq]
  exact ⟨hr w rfl, h.setCo (by simp), fun hb => by cases hb⟩

theorem Tidy.act {a : CoAction} (h : s.Tidy) (hp : s.phase = .running c) (ha : ActEffect s c a t)
    (hf : t.world.fault = none) : t.Tidy := by
  have hb : s.phase ≠ .blocked := by rw [hp]; simp
  cases ha with
  | ioInner fd d curMs ms =>
    refine h.suspend (fun w hw => ?_) hf
    obtain ⟨u, hu, hre⟩ := ok_of_bind hw
    obtain ⟨⟨r, w'⟩, hreg, rfl⟩ := ok_of_map hre
    exact (World.registerEvent_still hreg).tidy (startTimer_tidy h.world hu)
  | coConnect fd =>
    refine h.suspend (fun w hw => ?_) hf
    obtain ⟨⟨r, w'⟩, hreg, rfl⟩ := ok_of_map hw
    exact (World.registerEvent_still (d := .write) hreg).tidy h.world
  | sleepInner ms curMs => exact h.suspend (fun w hw => startTimer_tidy h.world hw) hf
  | spawn hu => exact h.spawn hb _
  | coSocket fd => exact h.still hp (fun w hw => World.coSocket_still hw) hf
  | coClose fd => exact h.still hp (fun w hw => World.coClose_still hw) hf
  | removeEvent fd events => exact h.still hp (fun w hw => World.removeEvent_still hw) hf
  | setTimeout => exact ⟨⟨h.world.ordered, h.world.timers, h.world.once⟩, h.unborn, h.blocked⟩
  | stop =>
    exact ⟨⟨h.world.ordered, h.world.timers, h.world.once⟩, h.unborn, fun hb' => absurd hb' hb⟩
  | ret => exact ⟨h.world, h.setCo (by simp), fun hb' => by cases hb'⟩

theorem blockPending_alive {clock : Nat → Nat} {batch : List EpollEvent} (h : s.Tidy)
    (hp : s.phase = .blocked) (hb : s.world.epoll.Reports batch)
    (hf : (s.call (s.world.blockPending .run clock batch)).world.fault = none) :
    ∃ w, s.world.Wakes clock batch w ∧
      s.call (s.world.blockPending .run clock batch) = s.setWorld w := by
  obtain ⟨w, hw, heq⟩ := call_alive hf
  exact ⟨w, World.blockPending_wakes h.world hb (h.blocked hp) hw, heq⟩

theorem alive_tidy (h : s.Tidy) (hs : s.alive i = some t) : t.Tidy := by
  obtain ⟨hs, hf⟩ := alive_inv hs
  cases step_effect hs with
  | submit hp hu => exact h.spawn (by simp [hp]) _
  | run hp => exact ⟨h.world, h.unborn, fun hb => by cases hb⟩
  | dispatch hp => exact (dispatch_dispatched hf).tidy h
  | act hp ha => exact h.act hp ha hf
  | blockPending hp hb =>
    obtain ⟨w, hw, heq⟩ := blockPending_alive h hp hb hf
    rw [heq]
    exact ⟨hw.tidy, h.unborn, fun hb' => by cases hb'⟩

theorem init_tidy (pipe : Nat) : (init pipe).Tidy where
  world := by
    refine ⟨List.Pairwise.nil, fun t ht => (by cases ht), fun fd d => ?_⟩
    cases d <;> rfl
  unborn _ _ := rfl
  blocked hp := by cases hp

/-! ## Null pointers -/

theorem Dispatched.null_of_null (hd : s.Dispatched t)
    (hn : none ∈ t.world.scheduler.readyExecutors) : none ∈ s.world.scheduler.readyExecutors := by
  cases hd with
  | idle hq hp => exact hn
  | null hq hp => exact hq ▸ List.mem_cons_self
  | ran hq ht =>
    obtain ⟨w, hw, ht⟩ := ht.world
    rw [ht] at hn
    have hin := World.none_mem_addExecutor hn
    rw [hw.frame.scheduler] at hin
    exact hq ▸ List.mem_cons_of_mem _ hin
  | skipped hq hd => exact hq ▸ List.mem_cons_of_mem _ hn
  | resumed hq ht =>
    rcases ht.world with hw | ⟨fd, d, timer, pick, -, hw⟩
    · rw [hw] at hn
      exact hq ▸ List.mem_cons_of_mem _ hn
    · obtain ⟨m, heq, -⟩ := World.cancelTimer_ok hw
      rw [heq] at hn
      exact hq ▸ List.mem_cons_of_mem _ hn

/-- Most actions of the running coroutine leave the queue and the flags alone. -/
theorem act_frame_cases {a : CoAction} (ha : ActEffect s c a t) (hf : t.world.fault = none) :
    s.world.Frame t.world ∨ (∃ c', t = s.spawn c') ∨ a = .stop ∧ t.world = s.world.stop := by
  have hcall : ∀ {r : Except Fault (World Entry Callback)}, (∀ w, r = .ok w → s.world.Still w) →
      (s.call r).world.fault = none → s.world.Frame (s.call r).world := by
    intro r hr hf
    obtain ⟨w, rfl, heq⟩ := call_alive hf
    rw [heq]
    exact (hr w rfl).frame
  have hsuspend : ∀ {wait : Wait} {r : Except Fault (World Entry Callback)},
      (∀ w, r = .ok w → s.world.Frame w) → (s.suspend c wait r).world.fault = none →
      s.world.Frame (s.suspend c wait r).world := by
    intro wait r hr hf
    obtain ⟨w, rfl, heq⟩ := suspend_alive hf
    rw [heq]
    exact hr w rfl
  cases ha with
  | ioInner fd d curMs ms =>
    refine .inl (hsuspend (fun w hw => ?_) hf)
    obtain ⟨u, hu, hre⟩ := ok_of_bind hw
    obtain ⟨⟨r, w'⟩, hreg, rfl⟩ := ok_of_map hre
    exact (World.startTimer_frame hu).trans (World.registerEvent_frame hreg)
  | coConnect fd =>
    refine .inl (hsuspend (fun w hw => ?_) hf)
    obtain ⟨⟨r, w'⟩, hreg, rfl⟩ := ok_of_map hw
    exact World.registerEvent_frame (d := .write) hreg
  | sleepInner ms curMs => exact .inl (hsuspend (fun w hw => World.startTimer_frame hw) hf)
  | spawn hu => exact .inr (.inl ⟨_, rfl⟩)
  | coSocket fd => exact .inl (hcall (fun w hw => World.coSocket_still hw) hf)
  | coClose fd => exact .inl (hcall (fun w hw => World.coClose_still hw) hf)
  | removeEvent fd events => exact .inl (hcall (fun w hw => World.removeEvent_still hw) hf)
  | setTimeout => exact .inl ⟨rfl, rfl⟩
  | stop => exact .inr (.inr ⟨rfl, rfl⟩)
  | ret => exact .inl ⟨rfl, rfl⟩

theorem null_of_spawn (hn : none ∈ (s.spawn c).world.scheduler.readyExecutors) :
    none ∈ s.world.scheduler.readyExecutors :=
  World.none_mem_addExecutor hn

/-- A step puts a null pointer in the queue exactly when its events hit an empty slot. -/
theorem alive_null_iff (h : s.Tidy) (hn : none ∉ s.world.scheduler.readyExecutors)
    (hs : s.alive i = some t) : none ∉ t.world.scheduler.readyExecutors ↔ s.Filled i := by
  obtain ⟨hs, hf⟩ := alive_inv hs
  cases step_effect hs with
  | submit hp hu => exact iff_of_true (mt null_of_spawn hn) trivial
  | run hp => exact iff_of_true hn trivial
  | dispatch hp => exact iff_of_true (mt (dispatch_dispatched hf).null_of_null hn) trivial
  | act hp ha =>
    refine iff_of_true ?_ trivial
    rcases act_frame_cases ha hf with hw | ⟨c', rfl⟩ | ⟨-, hw⟩
    · rwa [hw.scheduler]
    · exact mt null_of_spawn hn
    · rw [hw]
      simp only [World.stop, Scheduler.stop]
      split <;> exact hn
  | @blockPending clock batch hp hb =>
    obtain ⟨w, hw, heq⟩ := blockPending_alive h hp hb hf
    obtain ⟨l, hq, hl⟩ := hw.queue
    have hqueue : (s.call (s.world.blockPending .run clock batch)).world.scheduler.readyExecutors =
        s.world.scheduler.readyExecutors ++ l := by rw [heq]; exact hq
    rw [hqueue, List.mem_append, or_iff_right hn, hl]
    simp only [Filled]
    constructor
    · intro hno ev hev hfd d hd hx
      exact hno ⟨ev, hev, hfd, d, hd, hx⟩
    · rintro hall ⟨ev, hev, hfd, d, hd, hx⟩
      exact hall ev hev hfd d hd hx

theorem act_phase {a : CoAction} (ha : ActEffect s c a t) (hp : s.phase = .running c) :
    t.phase ≠ .blocked := by
  have hb : s.phase ≠ .blocked := by rw [hp]; simp
  have hsuspend : ∀ wait r, (s.suspend c wait r).phase ≠ .blocked := by
    intro wait r
    cases r with
    | error e => exact hb
    | ok w => simp [suspend]
  cases ha with
  | ioInner => exact hsuspend _ _
  | coConnect => exact hsuspend _ _
  | sleepInner => exact hsuspend _ _
  | spawn => exact hb
  | coSocket => rw [call_phase]; exact hb
  | coClose => rw [call_phase]; exact hb
  | removeEvent => rw [call_phase]; exact hb
  | setTimeout => exact hb
  | stop => exact hb
  | ret => simp

/-- The loop goes to sleep only with nothing to do. -/
def BlocksIdle (s : CoSys) : Prop :=
  s.phase = .blocked → s.world.scheduler.readyExecutors = []

theorem alive_blocksIdle (hn : none ∉ s.world.scheduler.readyExecutors)
    (hs : s.alive i = some t) : t.BlocksIdle := by
  intro hb
  obtain ⟨hs, hf⟩ := alive_inv hs
  cases step_effect hs with
  | submit hp hu => cases hp.symm.trans hb
  | run hp => cases hb
  | dispatch hp =>
    have hd := dispatch_dispatched hf
    revert hb hd
    generalize s.dispatch _ = t
    intro hb hd
    cases hd with
    | idle hq => exact hq
    | null hq => exact absurd (hq ▸ List.mem_cons_self) hn
    | ran hq ht => cases hp.symm.trans (ht.phase.symm.trans hb)
    | skipped hq => cases hp.symm.trans hb
    | resumed hq ht => cases ht.phase.symm.trans hb
  | act hp ha => exact absurd hb (act_phase ha hp)
  | blockPending hp hb' => cases hb

/-- **No null pointer.** In every run the queue stays free of null pointers exactly as long as
the events reported hit only directions in which somebody waits; and until then the loop blocks
only when nothing is queued. -/
theorem null_free_iff {pipe : Nat} {is : List CoInput} {u : CoSys}
    (hr : run alive (init pipe) is = some u) :
    (Along alive (fun s => none ∉ s.world.scheduler.readyExecutors) (init pipe) is ↔
        Meets alive Filled (init pipe) is) ∧
      (Along alive (fun s => none ∉ s.world.scheduler.readyExecutors) (init pipe) is →
        Along alive BlocksIdle (init pipe) is) := by
  have hiff := along_iff_meets (J := Tidy)
    (P := fun s => none ∉ s.world.scheduler.readyExecutors)
    (fun s i t h _ hs _ => alive_tidy h hs) (fun s i t h hn hs => alive_null_iff h hn hs)
    (init_tidy pipe) (by simp [init, World.init]) hr
  refine ⟨hiff, fun h => ?_⟩
  have hall := (hiff.1 h).along (I := fun s => (s.Tidy ∧
    none ∉ s.world.scheduler.readyExecutors) ∧ s.BlocksIdle) ?_
    ⟨⟨init_tidy pipe, by simp [init, World.init]⟩, fun hp => by cases hp⟩
  · exact hall.imp fun _ h => h.2
  · rintro s i t ⟨⟨ht, hn⟩, -⟩ hc hs
    exact ⟨⟨alive_tidy ht hs, (alive_null_iff ht hn hs).2 hc⟩, alive_blocksIdle hn hs⟩

/-- Coroutines 1 and 2 wait for sockets 5 and 6. The peer of 5 hangs up, which also hits the side
of 5 in which nobody waits, and 6 becomes readable in the same call. -/
def hangUp : List CoInput :=
  [.submit 1, .submit 2, .run, .dispatch 0, .act (.coSocket 5), .act (.ioInner 5 .read 0),
    .dispatch 0, .act (.coSocket 6), .act (.ioInner 6 .read 0), .dispatch 0,
    .blockPending (fun _ => 20) [⟨5, epollIn ||| epollHup⟩, ⟨6, epollIn⟩], .dispatch 0,
    .act .ret, .dispatch 0]

/-- Coroutine 1 runs, and the loop blocks with coroutine 2 in the queue. -/
theorem null_free_iff_hangUp : ∃ u, run alive (init 3) hangUp = some u ∧
    (u.phase = .blocked ∧ u.world.scheduler.readyExecutors = [some (.co 2 1)]) ∧
    ¬ Along alive (fun s => none ∉ s.world.scheduler.readyExecutors) (init 3) hangUp := by
  have hfacts : ∀ u ∈ run alive (init 3) hangUp, u.phase = .blocked ∧
      u.world.scheduler.readyExecutors = [some (.co 2 1)] := by decide +kernel
  obtain ⟨u, hu⟩ := Option.isSome_iff_exists.1
    (show (run alive (init 3) hangUp).isSome = true by decide +kernel)
  refine ⟨u, hu, hfacts u hu, ?_⟩
  rw [(null_free_iff hu).1]
  decide +kernel

end CoSys

end NetBase
