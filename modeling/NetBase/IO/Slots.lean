import NetBase.IO.Sync

/-!
# The executors of the table

A slot of `fd_events_` is meant to hold an executor exactly while its direction is registered.
The bits are cleared by the directions an event reports and by the flags of the first event of
the batch; the slots by the directions it hits, an error or a hang-up hitting both, and by the
flags of its own entry. `Matching` lists what a batch has to satisfy for the two to agree.

A null pointer in the ready queue is what the dispatch loop takes for "nothing to do", so it
blocks, or leaves, while executors are queued behind it.
-/

namespace NetBase

/-- What the kernel reports of a direction is registered. -/
theorem EventType.in_of_within {d : EventType} {x reg : BitVec 32}
    (h : x &&& ~~~(reg ||| epollErr ||| epollHup) = 0) (hd : d.In x) : d.In reg := by
  rw [EventType.in_iff] at hd ⊢
  have hbit := congrArg (fun y => y.getLsbD d.bit) h
  have herr : epollErr.getLsbD d.bit = false := by cases d <;> decide
  have hhup : epollHup.getLsbD d.bit = false := by cases d <;> decide
  have hlt : d.bit < 32 := by cases d <;> decide
  simp only [BitVec.getLsbD_and, BitVec.getLsbD_not, BitVec.getLsbD_or, hd, herr, hhup, hlt] at hbit
  simpa using hbit

namespace World

open Lib

variable {α κ : Type} {mk : κ → α} {w w' : World α κ} {fd g first : Nat} {ev : EpollEvent}
  {f : FdEvents α} {d : EventType} {batch : List EpollEvent}

def Slotted (w : World α κ) : Prop :=
  ∀ fd d, (w.entry fd).executor d ≠ none ↔ EventType.In d (w.entry fd).registeredEvents

/-- No call has stopped the process, the slots are those of the registered directions, the
queue holds no null pointer, and when the loop takes nothing no executor is queued. -/
def SlotsMatch (w : World α κ) : Prop :=
  w.fault = none ∧ w.Slotted ∧ none ∉ w.scheduler.readyExecutors ∧
    (w.scheduler.takeReady.1 = none → ∀ x, some x ∉ w.scheduler.readyExecutors)

/-- An event that clears the slots it clears the bits of. -/
def Matching (w : World α κ) (first : Nat) (ev : EpollEvent) : Prop :=
  ∀ d : EventType,
    (d.In ev.events → first < w.fdEvents.length ∧
      (w.entry first).callOnce d = (w.entry ev.fd).callOnce d) ∧
    (ev.Fails → d.In (w.entry ev.fd).registeredEvents ∧
      (d.In ev.events ∨ (w.entry ev.fd).callOnce d = false))

instance (w : World α κ) (first : Nat) (ev : EpollEvent) : Decidable (w.Matching first ev) :=
  inferInstanceAs (Decidable (∀ _, _))

/-- The calls that keep slots and bits together. -/
def Matches (w : World α κ) : Op α κ → Prop
  | .registerEvent fd type _ _ => w.stopped = true ∨ EventType.ofMask type = none ∨
    Fits w.fdEvents fd ∧ ((w.entry fd).registeredEvents ≠ 0 → w.epoll.interest fd ≠ none)
  | .removeEvent fd events => (w.entry fd).registeredEvents &&& events = 0
  | .coClose fd => w.fds.hasFd fd = true → (w.entry fd).registeredEvents = 0
  | .coSocket fd => Fits w.fds.contexts fd
  | .blockPending _ batch => ∀ first ∈ batch.head?, ∀ ev ∈ batch, ev.fd ≠ w.wakeupPipeFd →
    w.Matching first.fd ev
  | _ => True

instance (w : World α κ) : (op : Op α κ) → Decidable (w.Matches op)
  | .registerEvent .. => inferInstanceAs (Decidable (_ ∨ _ ∨ _ ∧ (_ → _)))
  | .removeEvent .. => inferInstanceAs (Decidable (_ = _))
  | .coClose _ => inferInstanceAs (Decidable (_ → _))
  | .coSocket _ => inferInstanceAs (Decidable (Fits _ _))
  | .blockPending .. => inferInstanceAs (Decidable (∀ _ ∈ _, _))
  | .addExecutor _ => .isTrue trivial
  | .registerTimer .. => .isTrue trivial
  | .stop => .isTrue trivial
  | .takeReady => .isTrue trivial

/-- The invariant: a descriptor the kernel knows is registered as the table says. -/
structure Tracked (w : World α κ) : Prop where
  alive : w.fault = none
  regular : w.Regular
  known : ∀ fd, fd ≠ w.wakeupPipeFd → w.epoll.interest fd ≠ none → w.Synced fd
  slotted : w.Slotted
  nonNull : none ∉ w.scheduler.readyExecutors

theorem Tracked.slotsMatch (h : w.Tracked) : w.SlotsMatch := by
  refine ⟨h.alive, h.slotted, h.nonNull, fun ht x hx => ?_⟩
  cases hr : w.scheduler.readyExecutors with
  | nil => rw [hr] at hx; cases hx
  | cons e rest =>
    simp only [Scheduler.takeReady, hr] at ht
    exact h.nonNull (by rw [hr, ht]; exact List.mem_cons_self)

/-- A call that touches only the queue, the timers and the contexts. -/
theorem Tracked.frame (h : w.Tracked) (ht : ∀ t ∈ w'.timerManager.timers, t.callback.isSome)
    (hf : w'.fdEvents = w.fdEvents) (hk : w'.epoll = w.epoll)
    (hw : w'.wakeupPipeFd = w.wakeupPipeFd) (he : w'.fault = w.fault)
    (hq : none ∉ w'.scheduler.readyExecutors) : w'.Tracked := by
  have hentry : ∀ g, w'.entry g = w.entry g := fun g => by rw [entry, hf]; rfl
  refine ⟨he ▸ h.alive, ⟨ht, fun g => hentry g ▸ h.regular.kept g⟩, fun g hg hi => ?_,
    fun g d => ?_, hq⟩
  · rw [hk] at hi
    exact (h.known g (hw ▸ hg) hi).congr (hentry g) (by rw [hk])
  · rw [hentry]
    exact h.slotted g d

/-! ## Events -/

/-- What a batch needs of the state it is handled in. -/
structure Due (w : World α κ) (first : Nat) (batch : List EpollEvent) : Prop where
  tracked : w.Tracked
  running : w.scheduler.stopping = false
  distinct : (batch.map EpollEvent.fd).Nodup
  known : ∀ ev ∈ batch, w.epoll.interest ev.fd ≠ none
  within : ∀ ev ∈ batch, ev.fd ≠ w.wakeupPipeFd →
    ∀ d : EventType, d.In ev.events → d.In (w.entry ev.fd).registeredEvents
  matching : ∀ ev ∈ batch, ev.fd ≠ w.wakeupPipeFd → w.Matching first ev

theorem Due.tail (h : w.Due first (ev :: batch)) : w.Due first batch where
  tracked := h.tracked
  running := h.running
  distinct := (List.nodup_cons.1 h.distinct).2
  known e he := h.known e (List.mem_cons_of_mem _ he)
  within e he := h.within e (List.mem_cons_of_mem _ he)
  matching e he := h.matching e (List.mem_cons_of_mem _ he)

/-- A direction an event hits is registered. -/
theorem Due.hit (h : w.Due first (ev :: batch)) (hfd : ev.fd ≠ w.wakeupPipeFd)
    (hd : ev.Hits d) : d.In (w.entry ev.fd).registeredEvents := by
  rcases EpollEvent.hits_iff.1 hd with hd | hd
  · exact h.within ev List.mem_cons_self hfd d hd
  · exact ((h.matching ev List.mem_cons_self hfd d).2 hd).1

/-- Slots and bits are cleared together. -/
theorem Due.cleared (h : w.Due first (ev :: batch)) (hfd : ev.fd ≠ w.wakeupPipeFd) :
    (ev.Hits d ∧ (w.entry ev.fd).callOnce d = true) ↔
      (d.In ev.events ∧ (w.entry first).callOnce d = true) := by
  obtain ⟨hin, hfail⟩ := h.matching ev List.mem_cons_self hfd d
  rw [EpollEvent.hits_iff]
  constructor
  · rintro ⟨hd | hd, hc⟩
    · exact ⟨hd, (hin hd).2.trans hc⟩
    · rcases (hfail hd).2 with hr | hr
      · exact ⟨hr, (hin hr).2.trans hc⟩
      · rw [hc] at hr; cases hr
  · exact fun ⟨hd, hc⟩ => ⟨.inl hd, (hin hd).2.symm.trans hc⟩

theorem Due.handled_tracked (h : w.Due first (ev :: batch)) (hfd : ev.fd ≠ w.wakeupPipeFd)
    (hf : w.fdEvents[ev.fd]? = some f) : (w.handled first ev).Tracked := by
  have ht := h.tracked
  have hk := h.known ev List.mem_cons_self
  have hentry := handled_entry first hf
  refine ⟨ht.alive, handled_regular ht.regular hf, fun g hg hi => ?_, fun g d => ?_, ?_⟩
  · by_cases hgf : g = ev.fd
    · subst hgf
      exact handled_synced (ht.known _ hfd hk) hk
    · rw [handled_interest_other w hgf] at hi
      exact (ht.known g hg hi).congr (by rw [hentry, if_neg hgf]) (handled_interest_other w hgf)
  · rw [hentry]
    split
    · have hs := ht.slotted ev.fd d
      have hc := h.cleared (d := d) hfd
      rw [entry_eq hf] at hs hc
      rw [FdEvents.afterEvent_executor]
      show _ ↔ d.In ((w.entry first).left ev f.registeredEvents)
      rw [FdEvents.in_left, ← hs, ← hc]
      split
      · rename_i hcl
        simp [hcl]
      · rename_i hcl
        simp [hcl]
    · exact ht.slotted g d
  · intro hn
    rcases List.mem_append.1 hn with hn | hn
    · exact ht.nonNull hn
    · obtain ⟨d, hd, hx⟩ := FdEvents.mem_woken hn
      exact (ht.slotted ev.fd d).2 (h.hit hfd hd) hx.symm

/-- Handling the first event leaves the others as they were. -/
theorem Due.handled (h : w.Due first (ev :: batch)) (hfd : ev.fd ≠ w.wakeupPipeFd)
    (hf : w.fdEvents[ev.fd]? = some f) : (w.handled first ev).Due first batch := by
  have hne : ∀ e ∈ batch, e.fd ≠ ev.fd := fun e he heq =>
    (List.nodup_cons.1 h.distinct).1 (heq ▸ List.mem_map_of_mem he)
  have hentry : ∀ e ∈ batch, (w.handled first ev).entry e.fd = w.entry e.fd := fun e he => by
    rw [handled_entry first hf, if_neg (hne e he)]
  have honce : ∀ d, ((w.handled first ev).entry first).callOnce d = (w.entry first).callOnce d := by
    intro d
    rw [handled_entry first hf]
    split
    · rename_i h
      rw [FdEvents.afterEvent_callOnce, h, entry_eq hf]
    · rfl
  refine ⟨h.handled_tracked hfd hf, h.running, h.tail.distinct, fun e he => ?_,
    fun e he hep d hd => ?_, fun e he hep d => ?_⟩
  · rw [handled_interest_other w (hne e he)]
    exact h.tail.known e he
  · rw [hentry e he]
    exact h.tail.within e he hep d hd
  · rw [hentry e he, honce d, handled_length]
    exact h.tail.matching e he hep d

theorem handleEvents_tracked (h : w.Due first batch) :
    ∃ w', w.handleEvents first batch = .ok w' ∧ w'.Tracked := by
  induction batch generalizing w with
  | nil => exact ⟨w, rfl, h.tracked⟩
  | cons ev batch ih =>
    by_cases hfd : ev.fd = w.wakeupPipeFd
    · simp only [handleEvents, handleEvent, hfd, if_true]
      exact ih h.tail
    · have hk := h.known ev List.mem_cons_self
      obtain ⟨f, m, hf, hm⟩ := (h.tracked.known _ hfd hk).present hk
      have heq := handleEvent_eq hfd hf hm h.running
        (fun d hd => ((h.matching ev List.mem_cons_self hfd d).1 hd).1)
        (h.tracked.regular.kept first)
      simp only [handleEvents, heq]
      exact ih (h.handled hfd hf)

/-! ## Calls -/

theorem blockPending_tracked {clock : Nat → Nat} (h : w.Tracked) (hb : w.epoll.Reports batch)
    (hs : w.scheduler.stopping = false) (hc : w.Matches (.blockPending clock batch)) :
    (w.after (w.blockPending mk clock batch)).Tracked := by
  have hq : none ∉ (w.expired mk clock).scheduler.readyExecutors := by
    simp only [expired, List.mem_append, not_or]
    refine ⟨h.nonNull, fun hn => ?_⟩
    obtain ⟨t, -, ht⟩ := List.mem_filterMap.1 hn
    cases hk : t.callback <;> simp [hk] at ht
  have hexp : (w.expired mk clock).Tracked :=
    h.frame (expired_timers h.regular.timers) rfl rfl rfl rfl hq
  rw [blockPending_eq h.regular.timers hs]
  cases batch with
  | nil => exact hexp
  | cons first batch =>
    have hdue : (w.expired mk clock).Due first.fd (first :: batch) := by
      refine ⟨hexp, hs, hb.2.1, fun e he => ?_, fun e he hep d hd => ?_, hc first rfl⟩
      · obtain ⟨m, hm, -⟩ := hb.interest he
        exact Option.ne_none_iff_exists'.2 ⟨m, hm⟩
      · obtain ⟨m, hm, hw⟩ := hb.interest he
        have hsync := h.known e.fd hep (Option.ne_none_iff_exists'.2 ⟨m, hm⟩)
        show d.In (w.entry e.fd).registeredEvents
        rw [hsync.mask, kernelMask, hm]
        exact EventType.in_of_within hw hd
    obtain ⟨u, hu, hr⟩ := handleEvents_tracked hdue
    simp only [hu]
    exact hr

theorem registerEvent_tracked {type : BitVec 32} {x : α} {b : Bool} (h : w.Tracked)
    (hfd : fd ≠ w.wakeupPipeFd) (hc : w.Matches (.registerEvent fd type x b)) :
    (w.after ((w.registerEvent fd type (some x) b).map Prod.snd)).Tracked := by
  by_cases hst : w.stopped = true
  · simp only [registerEvent, hst, if_true, Except.map, after]
    exact h
  have hst' : w.stopped = false := by simpa using hst
  cases hd : EventType.ofMask type with
  | none =>
    rw [registerEvent_ignored hst' hd]
    simp only [Except.map, after]
    have hentry := growFor_entry w fd
    refine ⟨h.alive, ⟨h.regular.timers, fun g => ?_⟩, fun g hg hi => ?_, fun g d => ?_, h.nonNull⟩
    · rw [hentry]
      exact h.regular.kept g
    · exact (h.known g hg hi).congr (hentry g) rfl
    · rw [hentry]
      exact h.slotted g d
  | some d =>
    obtain rfl := EventType.ofMask_some hd
    obtain ⟨hfit, hpres⟩ : Fits w.fdEvents fd ∧
        ((w.entry fd).registeredEvents ≠ 0 → w.epoll.interest fd ≠ none) := by
      rcases hc with hc | hc | hc
      · exact absurd hc hst
      · rw [hd] at hc; cases hc
      · exact hc
    have habsent : (w.entry fd).registeredEvents = 0 ↔ w.epoll.interest fd = none := by
      by_cases hi : w.epoll.interest fd = none
      · exact iff_of_true (by by_contra h0; exact hpres h0 hi) hi
      · exact (h.known fd hfd hi).absent
    have hsync : w.Synced fd := by
      by_cases hi : w.epoll.interest fd = none
      · exact ⟨by rw [habsent.2 hi, kernelMask, hi], habsent⟩
      · exact h.known fd hfd hi
    rw [registerEvent_eq hst' hfit habsent]
    simp only [Except.map, after]
    refine ⟨h.alive, registered_regular h.regular hfit, fun g hg hi => ?_, fun g d' => ?_,
      h.nonNull⟩
    · by_cases hgf : g = fd
      · subst hgf
        exact registered_synced hsync hfit
      · rw [registered_interest_other hgf] at hi
        exact (h.known g hg hi).congr (by rw [registered_entry hfit, if_neg hgf])
          (registered_interest_other hgf)
    · rw [registered_executor hfit, in_registered hfit, ← h.slotted g d']
      split <;> simp [*]

theorem coClose_tracked (h : w.Tracked) (hc : w.Matches (.coClose fd)) :
    (w.after (w.coClose fd)).Tracked := by
  have hclose : ∀ fds, Tracked { w with fds := fds, epoll := w.epoll.close fd } := fun fds => by
    refine ⟨h.alive, ⟨h.regular.timers, h.regular.kept⟩, fun g hg hi => ?_, h.slotted, h.nonNull⟩
    have hgf : g ≠ fd := by rintro rfl; exact hi (by simp [Epoll.close])
    have hsame : (w.epoll.close fd).interest g = w.epoll.interest g := by simp [Epoll.close, hgf]
    exact (h.known g hg (hsame ▸ hi)).congr rfl hsame
  unfold coClose
  split
  · rename_i hhas
    have h0 : (w.entry fd).registeredEvents &&& epollBoth = 0 := by
      rw [show (w.entry fd).registeredEvents = 0 from hc hhas]; simp
    rw [removeEvent_eq_self h0]
    exact hclose _
  · exact hclose _

theorem step_tracked {op : Op α κ} (h : w.Tracked) (hc : w.Matches op)
    (hs : step mk w op = some w') : w'.Tracked := by
  cases step_effect hs with
  | registerEvent hfd => exact registerEvent_tracked h hfd hc
  | removeEvent =>
    rw [removeEvent_eq_self hc]
    exact h
  | coClose => exact coClose_tracked h hc
  | @coSocket fd =>
    have hlen : fd < (growFor none w.fds.contexts fd).length := length_growFor.2.2 hc
    simp only [coSocket, FdManager.setContext, hlen, if_true]
    exact h.frame h.regular.timers rfl rfl rfl rfl h.nonNull
  | addExecutor =>
    refine h.frame h.regular.timers rfl rfl rfl rfl ?_
    simp only [addExecutor, Scheduler.addExecutor]
    split
    · exact h.nonNull
    · simpa using h.nonNull
  | registerTimer =>
    simp only [registerTimer]
    split
    · exact h.frame h.regular.timers rfl rfl rfl rfl h.nonNull
    · refine h.frame (fun u hu => ?_) rfl rfl rfl rfl h.nonNull
      rcases Multi.mem_insert.1 hu with rfl | hu
      · rfl
      · exact h.regular.timers u hu
  | stop =>
    refine h.frame h.regular.timers rfl rfl rfl rfl ?_
    simp only [stop, Scheduler.stop]
    split <;> exact h.nonNull
  | takeReady =>
    refine h.frame h.regular.timers rfl rfl rfl rfl ?_
    cases hr : w.scheduler.readyExecutors with
    | nil => simp [Scheduler.takeReady, hr]
    | cons e rest =>
      simp only [Scheduler.takeReady, hr]
      exact fun hn => h.nonNull (hr ▸ List.mem_cons_of_mem _ hn)
  | blockPending hb hst => exact blockPending_tracked h hb hst hc

theorem init_tracked (pipe : Nat) : (init pipe : World α κ).Tracked where
  alive := rfl
  regular := init_regular pipe
  known fd hfd _ := (init_inSync pipe).2 fd hfd
  slotted fd d := iff_of_false (fun h => h (by cases d <;> rfl)) (EventType.in_zero d)
  nonNull := by simp [init]

/-- **When slots and bits agree.** In every run whose calls all satisfy `Matches`: in every
state a slot is filled exactly when its direction is registered, no null pointer is queued or
called through, and the dispatch loop neither blocks nor leaves with an executor queued. -/
theorem slots_match {pipe : Nat} {ops : List (Op α κ)}
    (hm : Meets (step mk) Matches (init pipe) ops) :
    Along (step mk) SlotsMatch (init pipe) ops :=
  (hm.along (fun _ _ _ h hc hs => step_tracked h hc hs) (init_tracked pipe)).imp
    fun _ h => h.slotsMatch

/-- Two sockets, one waiting for input and one for output, served by one batch. -/
theorem slots_match_served : ∃ w, run (step id) (init 3 : World Nat Nat)
    [.coSocket 5, .coSocket 6, .registerEvent 5 epollIn 7 true, .registerEvent 6 epollOut 8 true,
      .blockPending (fun _ => 0) [⟨5, epollIn⟩, ⟨3, epollIn⟩, ⟨6, epollOut⟩], .takeReady,
      .addExecutor 9] = some w ∧ w.SlotsMatch := by
  refine ⟨_, Option.eq_some_of_isSome (by decide +kernel), ?_⟩
  exact (slots_match (by decide +kernel)).last (Option.eq_some_of_isSome _)

/-- A removed registration keeps its bit without an executor. A hang-up on a socket that only
waits for input queues the null executor of the other direction, and the loop takes it for an
empty queue while executor 9 is waiting. -/
theorem not_slots_match :
    (∃ w, run (step id) (init 3 : World Nat Nat)
        [.coSocket 5, .registerEvent 5 epollIn 7 true, .removeEvent 5 epollIn] = some w ∧
      ((w.entry 5).readExecutor = none ∧ (w.entry 5).registeredEvents = epollIn) ∧
      ¬ w.SlotsMatch) ∧
    ∃ w, run (step id) (init 3 : World Nat Nat)
        [.coSocket 5, .registerEvent 5 epollIn 7 true,
          .blockPending (fun _ => 0) [⟨5, epollIn ||| epollHup⟩], .addExecutor 9, .takeReady] =
        some w ∧ w.scheduler.readyExecutors = [none, some 9] ∧ ¬ w.SlotsMatch := by
  refine ⟨?_, ?_⟩
  · refine run_and ⟨_, rfl, rfl, rfl⟩ fun w _ hw h => ?_
    exact (h.2.1 5 .read).2 (by rw [hw.2]; decide) hw.1
  · refine run_and ?_ fun w _ hw h => h.2.2.1 (by simp [hw])
    exact ⟨_, Option.eq_some_of_isSome (by decide +kernel), by decide +kernel⟩

end World

end NetBase
