import NetBase.IO.Sources
import NetBase.Lib.Runs

/-!
# One wake-up per suspension

The callback of the timer of `ioInner` queues the coroutine whether or not its wait is over,
and it does so from an executor of its own, so an event that comes with the expiry, or between
the expiry and the callback, queues the coroutine a second time; the second entry is taken by
whatever suspension the coroutine is in by then. `Undisputed` excludes exactly that: a timer
expires only in the wait it was made for, and an event wakes a coroutine only while no timer
callback of its own is on the way.
-/

namespace NetBase

open Lib

namespace FdEvents

variable {α : Type} {f : FdEvents α} {d : EventType}

theorem removed_executor (dst : BitVec 32) :
    (f.removed dst).executor d = if d.In dst then f.executor d else none := by
  unfold removed
  cases d <;> split <;> split <;> simp [*]

theorem removed_callOnce (dst : BitVec 32) : (f.removed dst).callOnce d = f.callOnce d := by
  unfold removed
  split <;> split <;> simp

end FdEvents

namespace World

variable {w w' : World Entry Callback} {co : Nat → Coroutine} {c fd first : Nat} {d : EventType}
  {ev : EpollEvent} {batch : List EpollEvent}

def sources (w : World Entry Callback) : Sources where
  slot fd d := (w.entry fd).executor d
  timed := w.timerManager.timers.filterMap Timer.callback
  queue := w.scheduler.readyExecutors

/-- The waits register for one call, the bit of a filled slot is set, and their timers expire
once. -/
structure Plain (w : World Entry Callback) : Prop where
  once : ∀ fd d, (w.entry fd).callOnce d = true
  bits : ∀ fd d, (w.entry fd).executor d ≠ none → EventType.In d (w.entry fd).registeredEvents
  timers : ∀ t ∈ w.timerManager.timers, t.repeats = false ∧ t.callback.isSome = true

structure Sound (w : World Entry Callback) (co : Nat → Coroutine) : Prop where
  plain : w.Plain
  single : w.sources.Single co

/-! ## Calls that only lose sources -/

structure Loses (w w' : World Entry Callback) : Prop where
  once : ∀ fd d, (w'.entry fd).callOnce d = (w.entry fd).callOnce d
  bits : ∀ fd, (w'.entry fd).registeredEvents = (w.entry fd).registeredEvents
  slots : ∀ fd d, (w'.entry fd).executor d = (w.entry fd).executor d ∨
    (w'.entry fd).executor d = none
  timers : w'.timerManager.timers.Sublist w.timerManager.timers
  queue : w'.scheduler.readyExecutors.Sublist w.scheduler.readyExecutors

theorem Loses.of_table (hf : w'.fdEvents = w.fdEvents)
    (ht : w'.timerManager.timers.Sublist w.timerManager.timers)
    (hq : w'.scheduler.readyExecutors.Sublist w.scheduler.readyExecutors) : w.Loses w' := by
  have hentry : ∀ fd, w'.entry fd = w.entry fd := fun fd => by rw [entry, hf]; rfl
  refine ⟨fun fd d => ?_, fun fd => ?_, fun fd d => .inl ?_, ht, hq⟩ <;> rw [hentry]

theorem Sound.loses (h : w.Sound co) (hl : w.Loses w') : w'.Sound co where
  plain := by
    refine ⟨fun fd d => ?_, fun fd d hx => ?_, fun t ht => h.plain.timers t (hl.timers.subset ht)⟩
    · rw [hl.once]
      exact h.plain.once fd d
    · rw [hl.bits]
      rcases hl.slots fd d with hs | hs
      · exact h.plain.bits fd d (hs ▸ hx)
      · exact absurd hs hx
  single := h.single.shrink hl.slots (hl.timers.filterMap _) hl.queue

theorem removeEvent_loses {events : BitVec 32} (h : w.removeEvent fd events = .ok w') :
    w.Loses w' := by
  rcases removeEvent_inv h with ⟨-, rfl⟩ | ⟨f, hf, -, k, rfl⟩
  · exact .of_table rfl (List.Sublist.refl _) (List.Sublist.refl _)
  set dst := ~~~f.registeredEvents &&& events
  have hentry : ∀ g, entry { w with fdEvents := w.fdEvents.set fd (f.removed dst), epoll := k } g =
      if g = fd then f.removed dst else w.entry g := getD_set hf
  refine ⟨fun g d => ?_, fun g => ?_, fun g d => ?_, List.Sublist.refl _, List.Sublist.refl _⟩ <;>
    rw [hentry] <;> split
  · rename_i hg
    rw [FdEvents.removed_callOnce, hg, entry_eq hf]
  · rfl
  · rename_i hg
    rw [FdEvents.removed_registered, hg, entry_eq hf]
  · rfl
  · rename_i hg
    rw [FdEvents.removed_executor, hg, entry_eq hf]
    split
    · exact .inl rfl
    · exact .inr rfl
  · exact .inl rfl

/-- What `ioInner` removes on a time-out leaves its slot empty. -/
theorem removeEvent_clears (hb : (w.entry fd).executor d ≠ none →
    d.In (w.entry fd).registeredEvents) (h : w.removeEvent fd d.mask = .ok w') :
    (w'.entry fd).executor d = none := by
  rcases removeEvent_inv h with ⟨h0, rfl⟩ | ⟨f, hf, h0, k, rfl⟩
  · by_contra hx
    exact hb hx h0
  · apply (congrArg (fun g : FdEvents Entry => g.executor d) (getD_set hf fd)).trans
    simp only [if_true]
    rw [FdEvents.removed_executor, if_neg]
    -- the mask handed to the kernel has only directions that were not registered
    rw [EventType.in_iff, BitVec.getLsbD_and, BitVec.getLsbD_not, EventType.in_iff.1 h0]
    simp

theorem coClose_loses (h : w.coClose fd = .ok w') : w.Loses w' := by
  obtain ⟨u, fds, hu, rfl⟩ := coClose_ok h
  rcases hu with rfl | hu
  · exact .of_table rfl (List.Sublist.refl _) (List.Sublist.refl _)
  · have hl := removeEvent_loses hu
    exact ⟨hl.once, hl.bits, hl.slots, hl.timers, hl.queue⟩

theorem coSocket_loses (h : w.coSocket fd = .ok w') : w.Loses w' := by
  obtain ⟨fds, rfl⟩ := coSocket_ok h
  exact .of_table rfl (List.Sublist.refl _) (List.Sublist.refl _)

theorem cancelTimer_loses {pick : Nat} {timer : Timer Callback}
    (h : w.cancelTimer pick timer = .ok w') : w.Loses w' := by
  obtain ⟨m, rfl, hm⟩ := cancelTimer_ok h
  exact .of_table rfl hm (List.Sublist.refl _)

/-! ## Calls that add a source -/

theorem addExecutor_sound (h : w.Sound co) {e : Option Entry}
    (hp : w.scheduler.stopping = false → (w.sources.push e).Single co) :
    (w.addExecutor e).Sound co := by
  unfold addExecutor
  cases hs : w.scheduler.stopping with
  | true =>
    rw [Scheduler.addExecutor_stopping hs]
    exact h
  | false =>
    rw [Scheduler.addExecutor_running hs]
    exact ⟨⟨h.plain.once, h.plain.bits, h.plain.timers⟩, hp hs⟩

theorem registerEvent_sound {r : Bool} (c fd : Nat) (d : EventType) (h : w.Sound co)
    (hx : (co c).WaitsOn fd d) (hw : ¬ Queued w.scheduler.readyExecutors c)
    (hr : w.registerEvent fd d.mask (some (.co c (co c).suspension)) true = .ok (r, w')) :
    w'.Sound co := by
  rcases registerEvent_ok hr with rfl | ⟨hfit, k, rfl⟩
  · exact h
  set x : Option Entry := some (.co c (co c).suspension)
  refine ⟨⟨fun g d' => ?_, fun g d' hne => ?_, h.plain.timers⟩, ?_⟩
  · apply (registered_callOnce hfit g d').trans
    split
    · rfl
    · exact h.plain.once g d'
  · apply (in_registered hfit g d').2
    replace hne : ((w.registered fd d x true).entry g).executor d' ≠ none := hne
    rw [registered_executor hfit] at hne
    split at hne
    · exact .inr ‹_›
    · exact .inl (h.plain.bits g d' hne)
  · have hsrc : sources { w.registered fd d x true with epoll := k } =
        w.sources.setSlot fd d x := by
      refine Sources.ext ?_ rfl rfl
      funext g d'
      exact registered_executor hfit g d'
    rw [hsrc]
    exact h.single.register hx hw

theorem startTimer_sound {curMs ms : Nat} {k : Callback} (h : w.Sound co)
    (ht : k ∉ w.sources.timed) (hq : k ∉ callbacks w.scheduler.readyExecutors)
    (hd : k.issued ≤ (co k.coroutine).suspension)
    (hw : ∀ c n, k = .wake c n → (co c).Awaits k ∧ ¬ Queued w.scheduler.readyExecutors c)
    (hr : (CoSys.startTimer w curMs ms k).2 = .ok w') :
    w'.Sound co ∧ w'.scheduler = w.scheduler := by
  simp only [CoSys.startTimer, registerTimer, TimerManager.newTimer] at hr
  split at hr
  · cases hr
    exact ⟨h.loses (.of_table rfl (List.Sublist.refl _) (List.Sublist.refl _)), rfl⟩
  · cases hr
    have hperm : (Multi.insert TimerManager.key (Timer.make w.timerManager.nextId
      w.timerManager.nextId curMs ms (some k) false) w.timerManager.timers).Perm _ :=
      Multi.insert_perm _ _
    refine ⟨⟨⟨h.plain.once, h.plain.bits, fun u hu => ?_⟩, ?_⟩, rfl⟩
    · rcases Multi.mem_insert.1 hu with rfl | hu
      · exact ⟨rfl, rfl⟩
      · exact h.plain.timers u hu
    · exact (h.single.timer ht hq hd hw).perm (hperm.symm.filterMap Timer.callback)

/-! ## `blockPending` -/

theorem called_run (ts : List (Timer Callback)) :
    called Entry.run ts = (ts.filterMap Timer.callback).map fun k => some (.run k) := by
  rw [called, List.map_filterMap]

theorem expired_sound {clock : Nat → Nat} (h : w.Sound co)
    (ha : ∀ t ∈ (w.timerManager.takeExpiredTimers clock).1, ∀ k, t.callback = some k →
      (co k.coroutine).Awaits k ∧ ¬ Queued w.scheduler.readyExecutors k.coroutine) :
    (w.expired .run clock).Sound co := by
  set iter := TimerManager.expiredEnd (clock 0) w.timerManager.timers with hiter
  have hdrop : (w.timerManager.takeExpiredTimers clock).2.timers =
      w.timerManager.timers.drop iter := by
    refine congrArg TimerManager.timers (TimerManager.addRepeats_of_once fun t ht => ?_)
    exact (h.plain.timers t (List.mem_of_mem_take ht)).1
  have hsplit : w.sources.timed =
      (w.timerManager.takeExpiredTimers clock).1.filterMap Timer.callback ++
        (w.timerManager.timers.drop iter).filterMap Timer.callback := by
    rw [← List.filterMap_append]
    exact congrArg _ (List.take_append_drop iter _).symm
  refine ⟨⟨h.plain.once, h.plain.bits, fun t ht => ?_⟩, ?_⟩
  · refine h.plain.timers t (List.mem_of_mem_drop (i := iter) ?_)
    exact hdrop ▸ ht
  · have hfires := h.single.fires hsplit fun k hk => by
      obtain ⟨t, ht, htk⟩ := List.mem_filterMap.1 hk
      exact ha t ht k htk
    unfold sources expired
    simp only [hdrop, called_run]
    exact hfires

theorem handled_sources (first : Nat) (hp : w.Plain) {f : FdEvents Entry}
    (hf : w.fdEvents[ev.fd]? = some f) :
    (w.handled first ev).sources = w.sources.event ev := by
  refine Sources.ext ?_ ?_ ?_
  · funext g d
    rw [Sources.event_slot]
    show ((w.handled first ev).entry g).executor d = _
    have honce := hp.once ev.fd d
    rw [entry_eq hf] at honce
    rw [handled_entry first hf]
    by_cases hg : g = ev.fd
    · subst hg
      simp [honce, sources, entry_eq hf]
    · simp [hg, sources]
  · rw [Sources.event_timed]
    rfl
  · rw [Sources.event_queue]
    rfl

theorem handled_sound {f : FdEvents Entry} (h : w.Sound co) (hf : w.fdEvents[ev.fd]? = some f)
    (hk : ∀ d, ev.Hits d → ∀ e, w.sources.slot ev.fd d = some e →
      ∀ k ∈ callbacks w.scheduler.readyExecutors, k.coroutine ≠ e.target) :
    (w.handled first ev).Sound co := by
  have hentry := handled_entry first hf
  refine ⟨⟨fun g d => ?_, fun g d hx => ?_, h.plain.timers⟩, ?_⟩
  · rw [hentry]
    split
    · rw [FdEvents.afterEvent_callOnce, ← entry_eq hf]
      exact h.plain.once ev.fd d
    · exact h.plain.once g d
  · -- a bit is cleared for a direction the event reports, and then the slot is too
    have hslot := congrArg (fun v => v.slot g d) (handled_sources first h.plain hf)
    rw [Sources.event_slot] at hslot
    have hne : ¬ (g = ev.fd ∧ ev.Hits d) := fun hh => hx (hslot.trans (if_pos hh))
    rw [if_neg hne] at hslot
    have hbit := h.plain.bits g d fun h0 => hx (hslot.trans h0)
    rw [hentry]
    split
    · rename_i hg
      rw [hg, entry_eq hf] at hbit
      refine FdEvents.in_left.2 ⟨hbit, fun hin => hne ⟨hg, ?_⟩⟩
      exact EpollEvent.hits_iff.2 (.inl hin.1)
    · exact hbit
  · rw [handled_sources first h.plain hf]
    exact (h.single.event hk).1

theorem handleEvents_sound (h : w.Sound co) (hs : w.scheduler.stopping = false)
    (hn : (batch.map EpollEvent.fd).Nodup)
    (hm : ∀ ev ∈ batch, ∃ m, w.epoll.interest ev.fd = some m)
    (hk : ∀ ev ∈ batch, ev.fd ≠ w.wakeupPipeFd → ∀ d, ev.Hits d →
      ∀ e, w.sources.slot ev.fd d = some e →
      ∀ k ∈ callbacks w.scheduler.readyExecutors, k.coroutine ≠ e.target)
    (hr : w.handleEvents first batch = .ok w') : w'.Sound co := by
  induction batch generalizing w with
  | nil => cases hr; exact h
  | cons ev batch ih =>
    obtain ⟨hfd, hn⟩ := List.nodup_cons.1 hn
    have hm' := fun e he => hm e (List.mem_cons_of_mem _ he)
    have hk' := fun e he => hk e (List.mem_cons_of_mem _ he)
    by_cases hp : ev.fd = w.wakeupPipeFd
    · simp only [handleEvents, handleEvent, hp, if_true] at hr
      exact ih h hs hn hm' hk' hr
    · obtain ⟨u, hu, hr⟩ := ok_of_bind hr
      obtain ⟨m, hev⟩ := hm ev List.mem_cons_self
      have hkept : Kept (w.entry first) := fun d hd => by rw [h.plain.once] at hd; cases hd
      obtain ⟨rfl, f, hf⟩ := handleEvent_ok hkept hp hev hs hu
      have hne : ∀ e ∈ batch, e.fd ≠ ev.fd := fun e he heq => hfd (heq ▸ List.mem_map_of_mem he)
      have hsrc := handled_sources first h.plain hf
      have hkev := hk ev List.mem_cons_self hp
      have hcb : callbacks (w.handled first ev).scheduler.readyExecutors =
          callbacks w.scheduler.readyExecutors :=
        (congrArg (fun v => callbacks v.queue) hsrc).trans (h.single.event hkev).2
      refine ih (handled_sound h hf hkev) hs hn (fun e he => ?_) (fun e he hep d hd x hx => ?_) hr
      · rw [handled_interest_other w (hne e he)]
        exact hm' e he
      · rw [hsrc, Sources.event_slot, if_neg fun hh => hne e he hh.1] at hx
        rw [hcb]
        exact hk' e he hep d hd x hx

theorem blockPending_sound {clock : Nat → Nat} (h : w.Sound co) (hb : w.epoll.Reports batch)
    (hs : w.scheduler.stopping = false)
    (ha : ∀ t ∈ (w.timerManager.takeExpiredTimers clock).1, ∀ k, t.callback = some k →
      (co k.coroutine).Awaits k ∧ ¬ Queued w.scheduler.readyExecutors k.coroutine)
    (hk : ∀ ev ∈ batch, ev.fd ≠ w.wakeupPipeFd → ∀ d, ev.Hits d →
      ∀ e, w.sources.slot ev.fd d = some e →
      ∀ k ∈ callbacks (w.expired .run clock).scheduler.readyExecutors, k.coroutine ≠ e.target)
    (hr : w.blockPending .run clock batch = .ok w') : w'.Sound co := by
  rw [blockPending_eq (fun t ht => (h.plain.timers t ht).2) hs] at hr
  have hexp := expired_sound h ha
  cases batch with
  | nil => cases hr; exact hexp
  | cons first batch =>
    refine handleEvents_sound (w := w.expired .run clock) hexp hs hb.2.1 (fun e he => ?_) hk hr
    obtain ⟨m, hm, -⟩ := hb.interest he
    exact ⟨m, hm⟩

end World

namespace CoSys

variable {s t : CoSys} {c : Nat}

/-- No executor is queued twice, and every entry taken so far ended the suspension it was
issued for. -/
def OneWakeup (s : CoSys) : Prop :=
  (s.world.scheduler.readyExecutors.reduceOption.map Entry.executor).Nodup ∧
    ∀ r ∈ s.resumed, r.issued = r.suspension

/-- The callbacks of the timers a call of `blockPending` takes. -/
def expiring (s : CoSys) (clock : Nat → Nat) : List Callback :=
  (s.world.timerManager.takeExpiredTimers clock).1.filterMap Timer.callback

/-- A time-out that is still wanted: its wait goes on and no event has ended it. -/
def Wanted (s : CoSys) : Callback → Prop
  | .wake _ _ => True
  | .timeout c n fd d => (s.co c).Awaits (.timeout c n fd d) ∧
    ¬ Queued s.world.scheduler.readyExecutors c

instance (s : CoSys) : (k : Callback) → Decidable (s.Wanted k)
  | .wake _ _ => .isTrue trivial
  | .timeout .. => inferInstanceAs (Decidable (_ ∧ _))

/-- The time-outs that expire are still wanted, and the events hit no coroutine whose own
callback is queued or expires in the same call. -/
def Undisputed (s : CoSys) : CoInput → Prop
  | .blockPending clock batch =>
    (∀ k ∈ s.expiring clock, s.Wanted k) ∧
    ∀ ev ∈ batch, ev.fd ≠ s.world.wakeupPipeFd → ∀ d, ev.Hits d →
      ∀ e ∈ (s.world.entry ev.fd).executor d,
      ∀ k ∈ callbacks s.world.scheduler.readyExecutors ++ s.expiring clock, k.coroutine ≠ e.target
  | _ => True

instance (s : CoSys) : (i : CoInput) → Decidable (s.Undisputed i)
  | .blockPending .. => inferInstanceAs (Decidable (_ ∧ _))
  | .submit _ => .isTrue trivial
  | .run => .isTrue trivial
  | .dispatch _ => .isTrue trivial
  | .act _ => .isTrue trivial

structure Orderly (s : CoSys) : Prop where
  sound : s.world.Sound s.co
  matched : ∀ r ∈ s.resumed, r.issued = r.suspension
  running : ∀ c, s.phase = .running c → (s.co c).state = .running
  blocked : s.phase = .blocked → s.world.scheduler.stopping = false

theorem Orderly.oneWakeup (h : s.Orderly) : s.OneWakeup := by
  refine ⟨?_, h.matched⟩
  have hnd := h.sound.single.targets
  have hmap : targets s.world.scheduler.readyExecutors =
      (s.world.scheduler.readyExecutors.reduceOption.map Entry.executor).map
        ExecutorPtr.target := by
    induction s.world.scheduler.readyExecutors with
    | nil => rfl
    | cons x q ih =>
      cases x with
      | none => exact ih
      | some e => cases e <;> exact congrArg _ ih
  rw [show s.world.sources.queue = s.world.scheduler.readyExecutors from rfl, hmap] at hnd
  exact hnd.of_map

/-! ## Actions -/

theorem Orderly.fail (h : s.Orderly) (e : Fault) : (s.fail e).Orderly where
  sound := h.sound.loses (.of_table rfl (List.Sublist.refl _) (List.Sublist.refl _))
  matched := h.matched
  running := h.running
  blocked := h.blocked

theorem Orderly.call {r : Except Fault (World Entry Callback)} (h : s.Orderly)
    (hb : s.phase ≠ .blocked) (hr : ∀ w, r = .ok w → w.Sound s.co) : (s.call r).Orderly := by
  cases r with
  | error e => exact h.fail e
  | ok w => exact ⟨hr w rfl, h.matched, h.running, fun hp => absurd hp hb⟩

theorem Orderly.suspend {wait : Wait} {r : Except Fault (World Entry Callback)} (h : s.Orderly)
    (hr : ∀ w, r = .ok w →
      w.Sound (Function.update s.co c ⟨.waiting wait, (s.co c).suspension + 1⟩)) :
    (s.suspend c wait r).Orderly := by
  cases r with
  | error e => exact h.fail e
  | ok w => exact ⟨hr w rfl, h.matched, fun _ hp => (by cases hp), fun hp => (by cases hp)⟩

/-- The coroutine that runs has no sources, so it may go to its next state. -/
theorem Orderly.next {x : Coroutine} (h : s.Orderly) (hp : s.phase = .running c)
    (hx : (s.co c).suspension ≤ x.suspension) (hu : x.state ≠ .unborn) :
    s.world.Sound (Function.update s.co c x) ∧
      ¬ Queued s.world.scheduler.readyExecutors c := by
  have hs := h.running c hp
  obtain ⟨hc, ht⟩ := h.sound.single.sourceless (c := c) (by simp [hs]) (by simp [hs])
  exact ⟨⟨h.sound.plain, h.sound.single.setCo hc ht hx (absurd · hu)⟩, fun hq => ht hq.mem_targets⟩

/-- A closure made in the next suspension is a new one. -/
theorem Orderly.fresh {k : Callback} (h : s.Orderly) (hp : s.phase = .running k.coroutine)
    (hk : k.issued = (s.co k.coroutine).suspension + 1) :
    k ∉ s.world.sources.timed ∧ k ∉ callbacks s.world.scheduler.readyExecutors := by
  have hs := h.running _ hp
  obtain ⟨-, ht⟩ := h.sound.single.sourceless (c := k.coroutine) (by simp [hs]) (by simp [hs])
  refine ⟨fun hm => ?_, fun hm => ht (callback_mem_targets hm)⟩
  have hle := h.sound.single.dated k hm
  omega

theorem Orderly.ioInner {fd curMs ms : Nat} {d : EventType} (h : s.Orderly)
    (hp : s.phase = .running c) : (s.ioInner c fd d curMs ms).Orderly := by
  set k : Callback := .timeout c ((s.co c).suspension + 1) fd d with hk
  set wait : Wait := .io fd d (startTimer s.world curMs ms k).1 false
  set co := Function.update s.co c ⟨.waiting wait, (s.co c).suspension + 1⟩
  have hself : co c = ⟨.waiting wait, (s.co c).suspension + 1⟩ := Function.update_self ..
  obtain ⟨hnext, hq⟩ := h.next (x := ⟨.waiting wait, (s.co c).suspension + 1⟩) hp
    (Nat.le_succ _) (by simp)
  obtain ⟨ht, hcb⟩ := h.fresh (k := k) hp rfl
  refine Orderly.suspend h fun w hw => (?_ : w.Sound co)
  obtain ⟨u, hst, hre⟩ := ok_of_bind (show ((startTimer s.world curMs ms k).2 >>= _) = _ from hw)
  obtain ⟨⟨r, w'⟩, hreg, rfl⟩ := ok_of_map hre
  have hdated : k.issued ≤ (co k.coroutine).suspension := by
    show _ ≤ (co c).suspension
    rw [hself]
    exact Nat.le_refl _
  obtain ⟨hu, hsched⟩ :=
    World.startTimer_sound hnext ht hcb hdated (fun _ _ hh => by simp [hk] at hh) hst
  refine World.registerEvent_sound (r := r) c fd d hu ?_ (hsched ▸ hq) ?_
  · exact ⟨wait, by rw [hself], rfl, rfl⟩
  · rw [hself]
    exact hreg

theorem Orderly.coConnect {fd : Nat} (h : s.Orderly) (hp : s.phase = .running c) :
    (s.coConnect c fd).Orderly := by
  set x : Coroutine := ⟨.waiting (.connect fd), (s.co c).suspension + 1⟩ with hx
  have hself : Function.update s.co c x c = x := Function.update_self ..
  obtain ⟨hnext, hq⟩ := h.next (x := x) hp (Nat.le_succ _) (by simp [hx])
  apply h.suspend
  intro w hw
  obtain ⟨⟨r, w'⟩, hreg, rfl⟩ := ok_of_map hw
  refine World.registerEvent_sound (r := r) c fd .write hnext ?_ hq ?_
  · exact ⟨.connect fd, by rw [hself], rfl, rfl⟩
  · rw [hself]
    exact hreg

theorem Orderly.sleepInner {ms curMs : Nat} (h : s.Orderly) (hp : s.phase = .running c) :
    (s.sleepInner c ms curMs).Orderly := by
  set k : Callback := .wake c ((s.co c).suspension + 1) with hk
  set x : Coroutine := ⟨.waiting .sleep, (s.co c).suspension + 1⟩ with hx
  have hself : Function.update s.co c x c = x := Function.update_self ..
  obtain ⟨hnext, hq⟩ := h.next (x := x) hp (Nat.le_succ _) (by simp [hx])
  obtain ⟨ht, hcb⟩ := h.fresh (k := k) hp rfl
  apply h.suspend
  intro w hw
  refine (World.startTimer_sound hnext ht hcb ?_ (fun c' n heq => ?_) hw).1
  · show _ ≤ (Function.update s.co c x c).suspension
    rw [hself]
    exact Nat.le_refl _
  · obtain ⟨rfl, -⟩ := Callback.wake.inj (hk.symm.trans heq)
    rw [hself]
    exact ⟨Coroutine.awaits_wake.2 rfl, hq⟩

theorem Orderly.spawn (h : s.Orderly) (hu : (s.co c).state = .unborn) (hb : s.phase ≠ .blocked)
    (hr : s.phase ≠ .running c) : (s.spawn c).Orderly := by
  obtain ⟨hc, ht⟩ := h.sound.single.sourceless (c := c) (by simp [hu]) (by simp [hu])
  have h0 := h.sound.single.unborn c hu
  have hself : Function.update s.co c ⟨.start, 0⟩ c = ⟨.start, 0⟩ := Function.update_self ..
  have hset : s.world.Sound (Function.update s.co c ⟨.start, 0⟩) :=
    ⟨h.sound.plain, h.sound.single.setCo hc ht (by simp [h0]) (fun hh => by cases hh)⟩
  refine ⟨World.addExecutor_sound hset fun _ => ?_, h.matched, fun c' hp => ?_,
    fun hp => absurd hp hb⟩
  · apply hset.single.push_co hc ht
    rw [Entry.Current, hself]
    exact ⟨rfl, .inl rfl⟩
  · have hne : c' ≠ c := by rintro rfl; exact hr hp
    show (Function.update s.co c ⟨.start, 0⟩ c').state = .running
    rw [Function.update_of_ne hne]
    exact h.running c' hp

theorem Orderly.act {a : CoAction} (h : s.Orderly) (hp : s.phase = .running c)
    (ha : ActEffect s c a t) : t.Orderly := by
  have hb : s.phase ≠ .blocked := by rw [hp]; simp
  cases ha with
  | ioInner => exact h.ioInner hp
  | coConnect => exact h.coConnect hp
  | sleepInner => exact h.sleepInner hp
  | @spawn c' hu =>
    apply h.spawn hu hb
    intro hp'
    rw [h.running c' hp'] at hu
    cases hu
  | coSocket => exact h.call hb fun w hw => h.sound.loses (World.coSocket_loses hw)
  | coClose => exact h.call hb fun w hw => h.sound.loses (World.coClose_loses hw)
  | removeEvent => exact h.call hb fun w hw => h.sound.loses (World.removeEvent_loses hw)
  | setTimeout =>
    refine ⟨h.sound.loses ?_, h.matched, h.running, fun hp' => absurd hp' hb⟩
    exact .of_table rfl (List.Sublist.refl _) (List.Sublist.refl _)
  | stop =>
    refine ⟨h.sound.loses (.of_table rfl (List.Sublist.refl _) ?_), h.matched, h.running,
      fun hp' => absurd hp' hb⟩
    simp only [World.stop, Scheduler.stop]
    split <;> exact List.Sublist.refl _
  | ret =>
    refine ⟨(h.next (x := { s.co c with state := .done }) hp (Nat.le_refl _) (by simp)).1,
      h.matched, fun _ hp' => (by cases hp'), fun hp' => (by cases hp')⟩

/-! ## The dispatch loop -/

theorem Orderly.pop (h : s.Orderly) {x : Option Entry} {q : List (Option Entry)}
    (hq : s.world.scheduler.readyExecutors = x :: q) :
    ({ s.world with scheduler := { s.world.scheduler with readyExecutors := q } } :
      World Entry Callback).Sound s.co := by
  refine h.sound.loses (.of_table rfl (List.Sublist.refl _) ?_)
  rw [hq]
  exact List.sublist_cons_self x q

theorem Orderly.runCallback_wake {n : Nat} (h : s.Orderly) (hb : s.phase ≠ .blocked)
    (ha : (s.co c).Awaits (.wake c n)) (ht : .wake c n ∉ s.world.sources.timed)
    (hq : c ∉ targets s.world.scheduler.readyExecutors) : (s.runCallback (.wake c n)).Orderly := by
  have hx := Coroutine.awaits_wake.1 ha
  have hc : s.world.sources.Clear c := by
    refine ⟨fun fd d e he hec => ?_, fun m hm => ?_⟩
    · obtain ⟨-, ⟨wait, hwait, hon⟩, -⟩ := h.sound.single.slots fd d e he
      rw [hec, hx] at hwait
      cases hwait
      exact hon
    · exact ht (ha.unique (h.sound.single.sleepers c m hm).1 rfl ▸ hm)
  refine ⟨World.addExecutor_sound h.sound fun _ => ?_, h.matched, h.running,
    fun hp => absurd hp hb⟩
  apply h.sound.single.push_co hc hq
  rw [Entry.Current, hx]
  exact ⟨rfl, .inr ⟨_, rfl⟩⟩

/-- The time-out removes the event, and with it the slot of the coroutine, before it queues the
coroutine. -/
theorem Orderly.runCallback_timeout {n fd : Nat} {d : EventType} (h : s.Orderly)
    (hb : s.phase ≠ .blocked) (ha : (s.co c).Awaits (.timeout c n fd d))
    (hq : c ∉ targets s.world.scheduler.readyExecutors) :
    (s.runCallback (.timeout c n fd d)).Orderly := by
  obtain ⟨timer, hx⟩ := Coroutine.awaits_timeout.1 ha
  simp only [CoSys.runCallback, hx, if_true]
  cases hr : s.world.removeEvent fd d.mask with
  | error e =>
    have hf := h.fail e
    exact ⟨hf.sound, hf.matched, hf.running, hf.blocked⟩
  | ok w =>
    have hl := World.removeEvent_loses hr
    have hw := h.sound.loses hl
    have hc : w.sources.Clear c := by
      refine ⟨fun g d' e he hec => ?_, fun m hm => ?_⟩
      · obtain ⟨-, ⟨wait, hwait, hon⟩, -⟩ := hw.single.slots g d' e he
        rw [hec, hx] at hwait
        cases hwait
        obtain ⟨rfl, rfl⟩ := hon
        have hnone := World.removeEvent_clears (h.sound.plain.bits _ _) hr
        cases hnone.symm.trans he
      · have hm' := Coroutine.awaits_wake.1 (hw.single.sleepers c m hm).1
        rw [hx] at hm'
        cases hm'
    have hqw : c ∉ targets w.scheduler.readyExecutors := fun hm =>
      hq ((hl.queue.filterMap _).subset hm)
    set x : Coroutine := ⟨.waiting (.io fd d timer true), n⟩
    have hset : w.Sound (Function.update s.co c x) :=
      ⟨hw.plain, hw.single.setCo hc hqw (by rw [hx]) (fun hu => by cases hu)⟩
    refine ⟨World.addExecutor_sound hset fun _ => ?_, h.matched, fun c' hp => ?_,
      fun hp => absurd hp hb⟩
    · apply hset.single.push_co hc hqw
      rw [Entry.Current, Function.update_self]
      exact ⟨rfl, .inr ⟨_, rfl⟩⟩
    · have hrun := h.running c' hp
      have hne : c' ≠ c := by
        rintro rfl
        rw [hx] at hrun
        cases hrun
      show (Function.update s.co c x c').state = .running
      rw [Function.update_of_ne hne]
      exact hrun

/-- The callback of an awaited timer queues its coroutine in place of itself. -/
theorem Orderly.runCallback {k : Callback} (h : s.Orderly) (hb : s.phase ≠ .blocked)
    (ha : (s.co k.coroutine).Awaits k) (ht : k ∉ s.world.sources.timed)
    (hq : k.coroutine ∉ targets s.world.scheduler.readyExecutors) : (s.runCallback k).Orderly := by
  cases k with
  | wake c n => exact h.runCallback_wake hb ha ht hq
  | timeout c n fd d => exact h.runCallback_timeout hb ha hq

theorem Orderly.resume {n pick : Nat} (h : s.Orderly) (hn : Entry.Current s.co (.co c n))
    (hc : s.world.sources.Clear c) (hq : c ∉ targets s.world.scheduler.readyExecutors) :
    (s.resume c n pick).Orderly := by
  have hset : s.world.Sound (Function.update s.co c { s.co c with state := .running }) :=
    ⟨h.sound.plain, h.sound.single.setCo hc hq (Nat.le_refl _) (fun hu => by cases hu)⟩
  have hrun : Orderly { s.setCo c { s.co c with state := .running } with
      phase := .running c, resumed := s.resumed ++ [⟨c, n, (s.co c).suspension⟩] } := by
    refine ⟨hset, fun r hr => ?_, fun c' hp => ?_, fun hp => by cases hp⟩
    · rcases List.mem_append.1 hr with hr | hr
      · exact h.matched r hr
      · cases List.mem_singleton.1 hr
        exact hn.1
    · cases hp
      show (Function.update s.co c _ c).state = .running
      rw [Function.update_self]
  unfold CoSys.resume
  simp only
  split
  · exact hrun.call (by simp) fun w hw => hset.loses (World.cancelTimer_loses hw)
  · exact hrun

theorem Orderly.idle (h : s.Orderly) :
    Orderly { s with phase := if s.world.scheduler.stopping then .left else .blocked } := by
  refine ⟨h.sound, h.matched, fun c hp => ?_, fun hp => ?_⟩
  · simp only at hp
    split at hp <;> cases hp
  · simp only at hp
    split at hp
    · cases hp
    · exact eq_false_of_ne_true ‹_›

theorem Orderly.dispatch {pick : Nat} (h : s.Orderly) (hp : s.phase = .loop) :
    (s.dispatch pick).Orderly := by
  cases hq : s.world.scheduler.readyExecutors with
  | nil =>
    simp only [CoSys.dispatch, Scheduler.takeReady, hq]
    exact h.idle
  | cons x q =>
    have hs : Orderly { s with world := { s.world with
        scheduler := { s.world.scheduler with readyExecutors := q } } } :=
      ⟨h.pop hq, h.matched, h.running, h.blocked⟩
    simp only [CoSys.dispatch, Scheduler.takeReady, hq]
    cases x with
    | none => exact hs.idle
    | some e =>
      cases e with
      | run k =>
        obtain ⟨ha, ht, hk⟩ := h.sound.single.head_run hq
        exact hs.runCallback (by simp [hp]) ha ht hk
      | co c n =>
        obtain ⟨hn, hc, hk⟩ := h.sound.single.head_co hq
        simp only
        split
        · exact hs
        · exact hs.resume hn ⟨hc.slots, hc.timed⟩ hk

theorem Orderly.blockPending {clock : Nat → Nat} {batch : List EpollEvent} (h : s.Orderly)
    (hp : s.phase = .blocked) (hb : s.world.epoll.Reports batch)
    (hc : s.Undisputed (.blockPending clock batch)) :
    Orderly { s.call (s.world.blockPending .run clock batch) with phase := .loop } := by
  have hphase : ∀ {u : CoSys}, u.world.Sound u.co → (∀ r ∈ u.resumed, r.issued = r.suspension) →
      Orderly { u with phase := .loop } := fun hu hm =>
    ⟨hu, hm, fun _ hp' => (by cases hp'), fun hp' => (by cases hp')⟩
  cases hr : s.world.blockPending .run clock batch with
  | error e => exact hphase (h.fail e).sound h.matched
  | ok w =>
    refine hphase (u := s.setWorld w) ?_ h.matched
    refine World.blockPending_sound h.sound hb (h.blocked hp) (fun t ht k hk => ?_)
      (fun ev hev hfd d hd e he k hk => ?_) hr
    · have hw := hc.1 k (List.mem_filterMap.2 ⟨t, ht, hk⟩)
      cases k with
      | wake c n =>
        refine h.sound.single.sleepers c n (List.mem_filterMap.2 ⟨t, ?_, hk⟩)
        exact TimerManager.mem_takeExpired_pending ht
      | timeout c n fd d => exact hw
    · apply hc.2 ev hev hfd d hd e he k
      rw [World.expired] at hk
      simp only [callbacks_append] at hk
      rcases List.mem_append.1 hk with hk | hk
      · exact List.mem_append_left _ hk
      · rw [World.called_run, mem_callbacks, List.mem_map] at hk
        obtain ⟨l, hl, heq⟩ := hk
        cases heq
        exact List.mem_append_right _ hl

theorem step_orderly {i : CoInput} (h : s.Orderly) (hc : s.Undisputed i)
    (hs : s.step i = some t) : t.Orderly := by
  cases step_effect hs with
  | submit hp hu => exact h.spawn hu (by simp [hp]) (by simp [hp])
  | run hp => exact ⟨h.sound, h.matched, fun _ hp' => (by cases hp'), fun hp' => (by cases hp')⟩
  | dispatch hp => exact h.dispatch hp
  | act hp ha => exact h.act hp ha
  | blockPending hp hb => exact h.blockPending hp hb hc

theorem init_orderly (pipe : Nat) : (init pipe).Orderly where
  sound := by
    have hslot : ∀ fd d, ((init pipe).world.entry fd).executor d = none := fun fd d => by
      cases d <;> rfl
    refine ⟨⟨fun fd d => ?_, fun fd d hx => absurd (hslot fd d) hx, fun t ht => ?_⟩, ?_⟩
    · cases d <;> rfl
    · cases ht
    · refine ⟨fun fd d e he => ?_, fun e he => ?_, List.nodup_nil, List.nodup_nil, fun k hk => ?_,
        fun c n hk => ?_, fun c _ => rfl⟩
      · cases (hslot fd d).symm.trans he
      all_goals contradiction
  matched r hr := by cases hr
  running c hp := by cases hp
  blocked hp := by cases hp

/-- **One wake-up per suspension.** In every run whose calls of `blockPending` are undisputed:
in every state no executor is queued twice, and every entry taken from the queue ended the
suspension it was issued for. -/
theorem one_wakeup {pipe : Nat} {is : List CoInput} (hm : Meets step Undisputed (init pipe) is) :
    Along step OneWakeup (init pipe) is :=
  (hm.along (fun _ _ _ h hc hs => step_orderly h hc hs) (init_orderly pipe)).imp
    fun _ h => h.oneWakeup

/-- Coroutine 1 reads from a socket and is woken by the event, coroutine 2 reads and times
out, then both sleep. -/
theorem one_wakeup_two : ∃ s, run step (init 3)
    [.submit 1, .submit 2, .run,
      .dispatch 0, .act (.coSocket 5), .act (.ioInner 5 .read 0),
      .dispatch 0, .act (.coSocket 6), .act (.setTimeout 6 .read 10), .act (.ioInner 6 .read 0),
      .dispatch 0, .blockPending (fun _ => 5) [⟨5, epollIn⟩],
      .dispatch 0, .act (.sleepInner 100 5), .dispatch 0, .blockPending (fun _ => 10) [],
      .dispatch 0, .dispatch 0, .act (.sleepInner 100 10), .dispatch 0,
      .blockPending (fun _ => 200) [], .dispatch 0, .dispatch 0, .dispatch 0, .act .ret] = some s ∧
    s.OneWakeup := by
  refine ⟨_, Option.eq_some_of_isSome (by decide +kernel), ?_⟩
  exact (one_wakeup (by decide +kernel)).last (Option.eq_some_of_isSome _)

/-- A read with a time-out of 10 ms; the timer expires and the socket becomes readable in one
call of `blockPending`. The event queues coroutine 1, the callback queues it again, and the
second entry, issued for the read, ends the sleep the coroutine went into after it. -/
theorem not_one_wakeup :
    (∃ s, run step (init 3)
        [.submit 1, .run, .dispatch 0, .act (.coSocket 5), .act (.setTimeout 5 .read 10),
          .act (.ioInner 5 .read 0), .dispatch 0, .blockPending (fun _ => 10) [⟨5, epollIn⟩],
          .dispatch 0] = some s ∧
      s.world.scheduler.readyExecutors = [some (.co 1 1), some (.co 1 1)] ∧ ¬ s.OneWakeup) ∧
    ∃ s, run step (init 3)
        [.submit 1, .run, .dispatch 0, .act (.coSocket 5), .act (.setTimeout 5 .read 10),
          .act (.ioInner 5 .read 0), .dispatch 0, .blockPending (fun _ => 10) [⟨5, epollIn⟩],
          .dispatch 0, .dispatch 0, .act (.sleepInner 1000 10), .dispatch 0] = some s ∧
      ⟨1, 1, 2⟩ ∈ s.resumed ∧ ¬ s.OneWakeup := by
  refine ⟨?_, ?_⟩
  · refine run_and ?_ fun s _ hq h => ?_
    · exact ⟨_, Option.eq_some_of_isSome (by decide +kernel), by decide +kernel⟩
    · have hnd := h.1
      rw [hq] at hnd
      exact absurd hnd (by decide)
  · refine run_and ?_ fun s _ hr h => ?_
    · exact ⟨_, Option.eq_some_of_isSome (by decide +kernel), by decide +kernel⟩
    · cases h.2 _ hr

end CoSys

end NetBase
