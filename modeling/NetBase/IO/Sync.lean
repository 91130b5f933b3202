import NetBase.Lib.Runs
import NetBase.IO.Events

/-!
# The table and the kernel

`fd_events_[fd].registered_events` is meant to be the kernel's mask of `fd`. `InSync` is that
statement for every descriptor but the wake-up pipe, which `initPipe` adds behind the table's
back; a call that an assertion or an index past the table stops is out of it too.

Registration and the event loop keep the two copies equal. `removeEvent` does not: it computes
the complement of the registered events and leaves them registered, and so `co_close` leaves a
table entry for a descriptor the kernel has forgotten. `inSync_iff` gives the runs in which the
copies agree throughout.
-/

namespace NetBase.World

open Lib

variable {α κ : Type} {mk : κ → α} {w w' : World α κ} {fd g first : Nat} {ev : EpollEvent}
  {f : FdEvents α} {d : EventType}

/-- The kernel's mask without `EPOLLET`. -/
def kernelMask (w : World α κ) (fd : Nat) : BitVec 32 :=
  match w.epoll.interest fd with
  | none => 0
  | some m => m &&& ~~~epollEt

structure Synced (w : World α κ) (fd : Nat) : Prop where
  mask : (w.entry fd).registeredEvents = w.kernelMask fd
  absent : (w.entry fd).registeredEvents = 0 ↔ w.epoll.interest fd = none

def InSync (w : World α κ) : Prop := w.fault = none ∧ ∀ fd, fd ≠ w.wakeupPipeFd → w.Synced fd

/-- The calls that keep the two copies equal. -/
def Keeps (w : World α κ) : Op α κ → Prop
  | .registerEvent fd type _ _ =>
    w.stopped = true ∨ EventType.ofMask type = none ∨ Fits w.fdEvents fd
  | .removeEvent fd events => (w.entry fd).registeredEvents &&& events = 0
  | .coClose fd => (w.entry fd).registeredEvents = 0
  | .coSocket fd => Fits w.fds.contexts fd
  | .blockPending _ batch => ∀ first ∈ batch.head?, ∀ ev ∈ batch, ev.fd ≠ w.wakeupPipeFd →
    ∀ d : EventType, d.In ev.events → first.fd < w.fdEvents.length
  | _ => True

instance (w : World α κ) : (op : Op α κ) → Decidable (w.Keeps op)
  | .registerEvent .. => inferInstanceAs (Decidable (_ ∨ _ ∨ _))
  | .removeEvent .. => inferInstanceAs (Decidable (_ = _))
  | .coClose _ => inferInstanceAs (Decidable (_ = _))
  | .coSocket _ => inferInstanceAs (Decidable (Fits _ _))
  | .blockPending .. => inferInstanceAs (Decidable (∀ _ ∈ _, _))
  | .addExecutor _ => .isTrue trivial
  | .registerTimer .. => .isTrue trivial
  | .stop => .isTrue trivial
  | .takeReady => .isTrue trivial

/-- What holds besides: pending timers have callbacks, lasting registrations executors. -/
structure Regular (w : World α κ) : Prop where
  timers : ∀ t ∈ w.timerManager.timers, t.callback.isSome
  kept : ∀ fd, Kept (w.entry fd)

/-! ## Masks without `EPOLLET` -/

theorem and_not_et (m : BitVec 32) : (m &&& ~~~epollEt) &&& ~~~epollEt = m &&& ~~~epollEt := by
  rw [BitVec.and_assoc, BitVec.and_self]

theorem Synced.not_et (h : w.Synced fd) :
    (w.entry fd).registeredEvents &&& ~~~epollEt = (w.entry fd).registeredEvents := by
  rw [h.mask, kernelMask]
  split
  · simp
  · exact and_not_et _

theorem or_mask_not_et {x : BitVec 32} (h : x &&& ~~~epollEt = x) (d : EventType) :
    (x ||| d.mask) &&& ~~~epollEt = x ||| d.mask := by
  have hd : d.mask &&& ~~~epollEt = d.mask := by cases d <;> decide
  rw [BitVec.and_comm, BitVec.and_or_distrib_left, BitVec.and_comm, h, BitVec.and_comm, hd]

theorem or_et_not_et {x : BitVec 32} (h : x &&& ~~~epollEt = x) :
    (x ||| epollEt) &&& ~~~epollEt = x := by
  have he : ~~~epollEt &&& epollEt = 0 := by decide
  rw [BitVec.and_comm, BitVec.and_or_distrib_left, BitVec.and_comm, h, he]
  simp

theorem or_mask_ne_zero (x : BitVec 32) (d : EventType) : x ||| d.mask ≠ 0 := by
  have hd : d.mask ≠ 0 := by cases d <;> decide
  intro h
  exact hd (BitVec.or_eq_zero_iff.1 h).2

/-- Only the empty mask lies in its own complement. -/
theorem eq_zero_of_compl {x y z : BitVec 32} (h : x = ~~~x &&& y &&& z) : x = 0 := by
  have hx : x &&& x = x &&& (~~~x &&& y &&& z) := by rw [← h]
  rw [BitVec.and_self, BitVec.and_assoc, ← BitVec.and_assoc x, BitVec.and_not_self] at hx
  simpa using hx

theorem left_not_et (f : FdEvents α) (ev : EpollEvent) {x : BitVec 32} (h : x &&& ~~~epollEt = x) :
    f.left ev x &&& ~~~epollEt = f.left ev x := by
  have hdrop : ∀ {x : BitVec 32} (d : EventType), x &&& ~~~epollEt = x →
      (x &&& ~~~d.mask) &&& ~~~epollEt = x &&& ~~~d.mask := by
    intro x d h
    rw [BitVec.and_assoc, BitVec.and_comm (~~~d.mask), ← BitVec.and_assoc, h]
  simp only [FdEvents.left]
  split <;> split
  · exact hdrop _ (hdrop _ h)
  · exact hdrop _ h
  · exact hdrop _ h
  · exact h

/-! ## One call -/

theorem Synced.congr (h : w.Synced fd) (he : w'.entry fd = w.entry fd)
    (hk : w'.epoll.interest fd = w.epoll.interest fd) : w'.Synced fd := by
  obtain ⟨hm, ha⟩ := h
  refine ⟨?_, ?_⟩
  · rw [he, hm, kernelMask, kernelMask, hk]
  · rw [he, hk]
    exact ha

/-- A synced descriptor the kernel knows is in the table. -/
theorem Synced.present (h : w.Synced fd) (hk : w.epoll.interest fd ≠ none) :
    ∃ f m, w.fdEvents[fd]? = some f ∧ w.epoll.interest fd = some m := by
  obtain ⟨m, hm⟩ := Option.ne_none_iff_exists'.1 hk
  cases hf : w.fdEvents[fd]? with
  | some f => exact ⟨f, m, rfl, hm⟩
  | none => exact absurd (h.absent.1 (by simp [entry, hf, FdEvents.fresh])) hk

/-- The call keeps the copies equal, and the table regular, exactly under `c`. -/
structure Exact (w' : World α κ) (c : Prop) : Prop where
  keeps : c → w'.Regular ∧ w'.InSync
  breaks : ¬ c → ¬ w'.InSync

theorem exact_of_true {c : Prop} (hc : c) (h : w'.Regular ∧ w'.InSync) : Exact w' c :=
  ⟨fun _ => h, fun hn => absurd hc hn⟩

theorem not_inSync_error (w : World α κ) (e : Fault) : ¬ (w.after (.error e)).InSync :=
  fun h => by cases h.1

/-- A call that changes neither the table nor the kernel. -/
theorem Regular.frame (hj : w.Regular) (hp : w.InSync)
    (ht : ∀ t ∈ w'.timerManager.timers, t.callback.isSome) (hf : w'.fdEvents = w.fdEvents)
    (hk : w'.epoll = w.epoll)
    (hw : w'.wakeupPipeFd = w.wakeupPipeFd) (he : w'.fault = w.fault) :
    w'.Regular ∧ w'.InSync := by
  have hentry : ∀ g, w'.entry g = w.entry g := fun g => by rw [entry, hf]; rfl
  refine ⟨⟨ht, fun g => hentry g ▸ hj.kept g⟩, he ▸ hp.1, fun g hg => ?_⟩
  exact (hp.2 g (hw ▸ hg)).congr (hentry g) (by rw [hk])

theorem registered_synced {x : Option α} {b : Bool} (h : w.Synced fd) (hfit : Fits w.fdEvents fd) :
    (w.registered fd d x b).Synced fd := by
  have hmask := or_mask_not_et h.not_et d
  have hne := or_mask_ne_zero (w.entry fd).registeredEvents d
  refine ⟨?_, ?_⟩ <;> rw [registered_entry hfit, if_pos rfl]
  · simp only [kernelMask, registered, Epoll.put_self]
    split
    · exact (or_et_not_et hmask).symm
    · exact hmask.symm
  · exact iff_of_false hne (by simp [registered])

theorem registered_interest_other {x : Option α} {b : Bool} (hg : g ≠ fd) :
    (w.registered fd d x b).epoll.interest g = w.epoll.interest g := by
  simp [registered, hg]

theorem registered_regular {x : α} {b : Bool} (hj : w.Regular) (hfit : Fits w.fdEvents fd) :
    (w.registered fd d (some x) b).Regular := by
  refine ⟨hj.timers, fun g d' hc => ?_⟩
  rw [registered_callOnce hfit] at hc
  rw [registered_executor hfit]
  split
  · rfl
  · rename_i hne
    rw [if_neg hne] at hc
    exact hj.kept g d' hc

theorem registerEvent_exact {type : BitVec 32} {x : α} {b : Bool} (hj : w.Regular)
    (hp : w.InSync) (hfd : fd ≠ w.wakeupPipeFd) :
    Exact (w.after ((w.registerEvent fd type (some x) b).map Prod.snd))
      (Keeps w (.registerEvent fd type x b)) := by
  by_cases hst : w.stopped = true
  · apply exact_of_true (.inl hst)
    simp only [registerEvent, hst, if_true, Except.map, after]
    exact ⟨hj, hp⟩
  have hst' : w.stopped = false := by simpa using hst
  cases hd : EventType.ofMask type with
  | none =>
    apply exact_of_true (.inr (.inl hd))
    rw [registerEvent_ignored hst' hd]
    simp only [Except.map, after]
    have hentry := growFor_entry w fd
    refine ⟨⟨hj.timers, fun g => ?_⟩, hp.1, fun g hg => (hp.2 g hg).congr (hentry g) rfl⟩
    rw [hentry]
    exact hj.kept g
  | some d =>
    obtain rfl := EventType.ofMask_some hd
    by_cases hfit : Fits w.fdEvents fd
    · apply exact_of_true (.inr (.inr hfit))
      have hsync := hp.2 fd hfd
      rw [registerEvent_eq hst' hfit hsync.absent]
      simp only [Except.map, after]
      refine ⟨registered_regular hj hfit, hp.1, fun g hg => ?_⟩
      by_cases hgf : g = fd
      · subst hgf
        exact registered_synced hsync hfit
      · exact (hp.2 g hg).congr (by rw [registered_entry hfit, if_neg hgf])
          (registered_interest_other hgf)
    · refine ⟨fun hk => ?_, fun _ => ?_⟩
      · rcases hk with hk | hk | hk
        · exact absurd hk hst
        · rw [hd] at hk; cases hk
        · exact absurd hk hfit
      · rw [registerEvent_outOfRange hst' hfit]
        exact not_inSync_error w _

/-- A call of `removeEvent` that removes something leaves the kernel with events the table
does not have. -/
theorem removeEvent_breaks {events : BitVec 32} (hfd : fd ≠ w.wakeupPipeFd)
    (h : (w.entry fd).registeredEvents &&& events ≠ 0) :
    ¬ (w.after (w.removeEvent fd events)).InSync := by
  cases hr : w.removeEvent fd events with
  | error e => exact not_inSync_error w e
  | ok w' =>
    cases hf : w.fdEvents[fd]? with
    | none => exact absurd (by simp [entry, hf, FdEvents.fresh]) h
    | some f =>
      rw [entry_eq hf] at h
      have heq := removeEvent_ok hf h hr
      intro hs
      have hsync : w'.Synced fd := hs.2 fd (by rw [heq]; exact hfd)
      have hentry : (w'.entry fd).registeredEvents = f.registeredEvents := by
        rw [heq]
        exact (congrArg FdEvents.registeredEvents (getD_set hf fd)).trans (by simp)
      have hmask := hsync.mask
      rw [hentry, kernelMask, heq, Epoll.put_self] at hmask
      have hzero : f.registeredEvents = 0 := by
        by_cases h0 : ~~~f.registeredEvents &&& events = 0
        · simpa only [h0, if_true] using hmask
        · simp only [h0, if_false] at hmask
          exact eq_zero_of_compl hmask
      exact h (by rw [hzero]; simp)

theorem removeEvent_exact {events : BitVec 32} (hj : w.Regular) (hp : w.InSync)
    (hfd : fd ≠ w.wakeupPipeFd) :
    Exact (w.after (w.removeEvent fd events)) (Keeps w (.removeEvent fd events)) := by
  refine ⟨fun hk => ?_, removeEvent_breaks hfd⟩
  rw [removeEvent_eq_self hk]
  exact ⟨hj, hp⟩

/-- `removeEvent` never changes the registered events of an entry. -/
theorem removeEvent_registered {events : BitVec 32} (hr : w.removeEvent fd events = .ok w') :
    w'.wakeupPipeFd = w.wakeupPipeFd ∧
      (w'.entry fd).registeredEvents = (w.entry fd).registeredEvents := by
  rcases removeEvent_inv hr with ⟨-, rfl⟩ | ⟨f, hf, -, k, rfl⟩
  · exact ⟨rfl, rfl⟩
  · rw [entry_eq hf]
    exact ⟨rfl, (congrArg FdEvents.registeredEvents (getD_set hf fd)).trans (by simp)⟩

/-- Whatever `removeEvent` did: after `co_close` the entry has its events, the kernel has not. -/
theorem coClose_registered (hr : w.coClose fd = .ok w') : w'.wakeupPipeFd = w.wakeupPipeFd ∧
    (w'.entry fd).registeredEvents = (w.entry fd).registeredEvents ∧
    w'.epoll.interest fd = none := by
  obtain ⟨u, fds, hu, rfl⟩ := coClose_ok hr
  rcases hu with rfl | hu
  · exact ⟨rfl, rfl, by simp [Epoll.close]⟩
  · obtain ⟨hp, he⟩ := removeEvent_registered hu
    exact ⟨hp, he, by simp [Epoll.close]⟩

theorem coClose_exact (hj : w.Regular) (hp : w.InSync) (hfd : fd ≠ w.wakeupPipeFd) :
    Exact (w.after (w.coClose fd)) (Keeps w (.coClose fd)) := by
  refine ⟨fun hk => ?_, fun hk hs => ?_⟩
  · have h0 : (w.entry fd).registeredEvents &&& epollBoth = 0 := by
      rw [show (w.entry fd).registeredEvents = 0 from hk]; simp
    have hclose : ∀ fds, InSync { w with fds := fds, epoll := w.epoll.close fd } := fun fds => by
      refine ⟨hp.1, fun g hg => ?_⟩
      by_cases hgf : g = fd
      · subst hgf
        refine ⟨?_, ?_⟩
        · simp only [kernelMask, Epoll.close, Epoll.put_self]
          exact hk
        · exact iff_of_true hk (by simp [Epoll.close])
      · exact (hp.2 g hg).congr rfl (by simp [Epoll.close, hgf])
    unfold coClose
    split
    · rw [removeEvent_eq_self h0]
      exact ⟨⟨hj.timers, hj.kept⟩, hclose _⟩
    · exact ⟨⟨hj.timers, hj.kept⟩, hclose _⟩
  · cases hr : w.coClose fd with
    | error e => rw [hr] at hs; exact not_inSync_error w e hs
    | ok u =>
      rw [hr] at hs
      obtain ⟨hpipe, he, hnone⟩ := coClose_registered hr
      have hsync : u.Synced fd :=
        hs.2 fd (by rw [show (w.after (.ok u)) = u from rfl, hpipe]; exact hfd)
      exact hk (he.symm.trans (hsync.absent.2 hnone))

theorem coSocket_exact (hj : w.Regular) (hp : w.InSync) :
    Exact (w.after (w.coSocket fd)) (Keeps w (.coSocket fd)) := by
  refine ⟨fun hk => ?_, fun hk => ?_⟩
  · have hlen : fd < (growFor none w.fds.contexts fd).length := length_growFor.2.2 hk
    simp only [coSocket, FdManager.setContext, hlen, if_true]
    exact hj.frame hp hj.timers rfl rfl rfl rfl
  · have hlen : ¬ fd < (growFor none w.fds.contexts fd).length := fun h => hk (length_growFor.2.1 h)
    simp only [coSocket, FdManager.setContext, hlen, if_false]
    exact not_inSync_error w _

/-! ## A batch of events -/

/-- The table and the kernel take the same `left_events`. -/
theorem handled_synced (h : w.Synced ev.fd) (hk : w.epoll.interest ev.fd ≠ none) :
    (w.handled first ev).Synced ev.fd := by
  obtain ⟨f, m, hf, hm⟩ := h.present hk
  have hne := left_not_et (w.entry first) ev h.not_et
  rw [entry_eq hf] at hne
  set left := (w.entry first).left ev f.registeredEvents with hleft
  have hreg : ((w.handled first ev).entry ev.fd).registeredEvents = left := by
    rw [handled_entry first hf, if_pos rfl]; rfl
  have hkernel : (w.handled first ev).epoll.interest ev.fd =
      if left = f.registeredEvents then w.epoll.interest ev.fd
      else if left = 0 then none else some left := by
    simp only [handled, entry_eq hf, ← hleft]
    split
    · rfl
    · simp
  by_cases hl : left = f.registeredEvents
  · rw [if_pos hl] at hkernel
    refine ⟨?_, ?_⟩
    · rw [hreg, kernelMask, hkernel, hl, ← entry_eq hf, h.mask, kernelMask]
    · rw [hreg, hkernel, hl, ← entry_eq hf]
      exact h.absent
  · rw [if_neg hl] at hkernel
    by_cases h0 : left = 0
    · rw [if_pos h0] at hkernel
      exact ⟨by rw [hreg, kernelMask, hkernel]; exact h0, by rw [hreg, hkernel]; simp [h0]⟩
    · rw [if_neg h0] at hkernel
      refine ⟨?_, ?_⟩
      · rw [hreg, kernelMask, hkernel]
        exact hne.symm
      · rw [hreg, hkernel]
        exact iff_of_false h0 (by simp)

theorem handled_regular (hj : w.Regular) (hf : w.fdEvents[ev.fd]? = some f) :
    (w.handled first ev).Regular := by
  refine ⟨hj.timers, fun g => ?_⟩
  rw [handled_entry first hf]
  split
  · intro d hc
    have hex := hj.kept ev.fd d
    rw [entry_eq hf] at hex
    rw [FdEvents.afterEvent_callOnce] at hc
    simpa [hc] using hex hc
  · exact hj.kept g

theorem handled_keeps (first : Nat) (hj : w.Regular) (hp : w.InSync) (hfd : ev.fd ≠ w.wakeupPipeFd)
    (hk : w.epoll.interest ev.fd ≠ none) :
    (w.handled first ev).Regular ∧ (w.handled first ev).InSync := by
  have hsync := hp.2 _ hfd
  obtain ⟨f, m, hf, hm⟩ := hsync.present hk
  refine ⟨handled_regular hj hf, hp.1, fun g hg => ?_⟩
  by_cases hgf : g = ev.fd
  · subst hgf
    exact handled_synced hsync hk
  · exact (hp.2 g hg).congr (by rw [handled_entry first hf, if_neg hgf])
      (handled_interest_other w hgf)

/-- What a batch needs of the state it is handled in. -/
structure Ready (w : World α κ) (batch : List EpollEvent) : Prop where
  regular : w.Regular
  inSync : w.InSync
  running : w.scheduler.stopping = false
  distinct : (batch.map EpollEvent.fd).Nodup
  known : ∀ ev ∈ batch, w.epoll.interest ev.fd ≠ none

variable {batch : List EpollEvent}

theorem Ready.tail (h : w.Ready (ev :: batch)) : w.Ready batch where
  regular := h.regular
  inSync := h.inSync
  running := h.running
  distinct := (List.nodup_cons.1 h.distinct).2
  known e he := h.known e (List.mem_cons_of_mem _ he)

/-- Handling the first event leaves the others to be handled. -/
theorem Ready.handled (h : w.Ready (ev :: batch)) (hfd : ev.fd ≠ w.wakeupPipeFd) :
    (w.handled first ev).Ready batch := by
  obtain ⟨hr, hs⟩ :=
    handled_keeps first h.regular h.inSync hfd (h.known ev List.mem_cons_self)
  refine ⟨hr, hs, h.running, h.tail.distinct, fun e he => ?_⟩
  have hne : e.fd ≠ ev.fd := fun heq =>
    (List.nodup_cons.1 h.distinct).1 (heq ▸ List.mem_map_of_mem he)
  rw [handled_interest_other w hne]
  exact h.tail.known e he

theorem Ready.handleEvent (first : Nat) (h : w.Ready (ev :: batch)) (hfd : ev.fd ≠ w.wakeupPipeFd)
    (h₀ : ∀ d : EventType, d.In ev.events → first < w.fdEvents.length) :
    w.handleEvent first ev = .ok (w.handled first ev) := by
  obtain ⟨f, m, hf, hm⟩ := (h.inSync.2 _ hfd).present (h.known ev List.mem_cons_self)
  exact handleEvent_eq hfd hf hm h.running h₀ (h.regular.kept first)

theorem handleEvents_ok (first : Nat) (h : w.Ready batch)
    (h₀ : ∀ ev ∈ batch, ev.fd ≠ w.wakeupPipeFd → ∀ d : EventType, d.In ev.events →
      first < w.fdEvents.length) :
    ∃ w', w.handleEvents first batch = .ok w' ∧ w'.Regular ∧ w'.InSync := by
  induction batch generalizing w with
  | nil => exact ⟨w, rfl, h.regular, h.inSync⟩
  | cons ev batch ih =>
    by_cases hfd : ev.fd = w.wakeupPipeFd
    · simp only [handleEvents, World.handleEvent, hfd, if_true]
      exact ih h.tail fun e he => h₀ e (List.mem_cons_of_mem _ he)
    · have heq := h.handleEvent first hfd (h₀ ev List.mem_cons_self hfd)
      simp only [handleEvents, heq]
      apply ih (h.handled hfd)
      intro e he hep d hd
      rw [handled_length]
      exact h₀ e (List.mem_cons_of_mem _ he) hep d hd

/-- The first event that reports a direction looks up the flags of an entry past the table. -/
theorem handleEvents_outOfRange (first : Nat) (h : w.Ready batch) (hlen : w.fdEvents.length ≤ first)
    (hbad : ∃ ev ∈ batch, ev.fd ≠ w.wakeupPipeFd ∧ ∃ d : EventType, d.In ev.events) :
    w.handleEvents first batch = .error .outOfRange := by
  induction batch generalizing w with
  | nil => obtain ⟨ev, he, -⟩ := hbad; cases he
  | cons ev batch ih =>
    by_cases hfd : ev.fd = w.wakeupPipeFd
    · simp only [handleEvents, World.handleEvent, hfd, if_true]
      apply ih h.tail hlen
      obtain ⟨e, he, hep, hd⟩ := hbad
      rcases List.mem_cons.1 he with rfl | he
      · exact absurd hfd hep
      · exact ⟨e, he, hep, hd⟩
    · obtain ⟨f, m, hf, hm⟩ := (h.inSync.2 _ hfd).present (h.known ev List.mem_cons_self)
      by_cases hd : ∃ d : EventType, d.In ev.events
      · obtain ⟨d, hd⟩ := hd
        simp only [handleEvents, handleEvent_outOfRange hfd hf hd hlen]
        rfl
      · have heq := h.handleEvent first hfd fun d hd' => absurd ⟨d, hd'⟩ hd
        simp only [handleEvents, heq]
        apply ih (h.handled hfd) (by rw [handled_length]; exact hlen)
        obtain ⟨e, he, hep, hd'⟩ := hbad
        rcases List.mem_cons.1 he with rfl | he
        · exact absurd hd' hd
        · exact ⟨e, he, hep, hd'⟩

theorem blockPending_exact {clock : Nat → Nat} (hj : w.Regular) (hp : w.InSync)
    (hb : w.epoll.Reports batch) (hs : w.scheduler.stopping = false) :
    Exact (w.after (w.blockPending mk clock batch)) (Keeps w (.blockPending clock batch)) := by
  obtain ⟨hreg, hsync⟩ : (w.expired mk clock).Regular ∧ (w.expired mk clock).InSync :=
    hj.frame hp (expired_timers hj.timers) rfl rfl rfl rfl
  rw [blockPending_eq hj.timers hs]
  cases batch with
  | nil => exact exact_of_true (fun first hf => by cases hf) ⟨hreg, hsync⟩
  | cons first batch =>
    have hready : (w.expired mk clock).Ready (first :: batch) := by
      refine ⟨hreg, hsync, hs, hb.2.1, fun e he => ?_⟩
      obtain ⟨m, hm, -⟩ := hb.interest he
      exact Option.ne_none_iff_exists'.2 ⟨m, hm⟩
    refine ⟨fun hk => ?_, fun hk => ?_⟩
    · obtain ⟨u, hu, hr⟩ := handleEvents_ok first.fd hready (hk first rfl)
      simp only [hu]
      exact hr
    · simp only [Keeps, List.head?_cons, Option.mem_some_iff, forall_eq'] at hk
      push Not at hk
      obtain ⟨e, he, hep, d, hd, hlen⟩ := hk
      simp only [handleEvents_outOfRange first.fd hready hlen ⟨e, he, hep, d, hd⟩]
      exact not_inSync_error w _

/-! ## Whole runs -/

theorem registerTimer_keeps {t : Timer κ} {tm : TimerManager κ} (hj : w.Regular) (hp : w.InSync)
    (htm : tm.timers = w.timerManager.timers) (ht : t.callback.isSome) :
    let r := w.after ((({ w with timerManager := tm } : World α κ).registerTimer t).map Prod.snd)
    r.Regular ∧ r.InSync := by
  have htm' : ∀ u ∈ tm.timers, u.callback.isSome := htm ▸ hj.timers
  unfold registerTimer
  split
  · exact hj.frame hp htm' rfl rfl rfl rfl
  · simp only [TimerManager.addTimer, ht, if_true]
    refine hj.frame hp (fun u hu => ?_) rfl rfl rfl rfl
    rcases Multi.mem_insert.1 hu with rfl | hu
    · exact ht
    · exact htm' u hu

theorem step_exact {op : Op α κ} (hj : w.Regular) (hp : w.InSync)
    (h : step mk w op = some w') : Exact w' (Keeps w op) := by
  cases step_effect h with
  | registerEvent hfd => exact registerEvent_exact hj hp hfd
  | removeEvent hfd => exact removeEvent_exact hj hp hfd
  | coClose hfd => exact coClose_exact hj hp hfd
  | coSocket => exact coSocket_exact hj hp
  | addExecutor => exact exact_of_true trivial (hj.frame hp hj.timers rfl rfl rfl rfl)
  | registerTimer => exact exact_of_true trivial (registerTimer_keeps hj hp rfl rfl)
  | stop => exact exact_of_true trivial (hj.frame hp hj.timers rfl rfl rfl rfl)
  | takeReady => exact exact_of_true trivial (hj.frame hp hj.timers rfl rfl rfl rfl)
  | blockPending hb hs => exact blockPending_exact hj hp hb hs

theorem init_regular (pipe : Nat) : (init pipe : World α κ).Regular :=
  ⟨fun t ht => (List.not_mem_nil ht).elim, fun fd d hc => by cases d <;> cases hc⟩

theorem init_inSync (pipe : Nat) : (init pipe : World α κ).InSync := by
  refine ⟨rfl, fun fd hfd => ⟨?_, ?_⟩⟩
  · simp only [kernelMask, init, if_neg (show fd ≠ pipe from hfd)]
    rfl
  · exact iff_of_true rfl (if_neg hfd)

/-- **When the table is the kernel's.** For every run: `registered_events` is the kernel's mask
in every state, and no assertion of `epoll_ctl` and no index fails, exactly when every call of
the run is one that `Keeps` the copies equal. -/
theorem inSync_iff {pipe : Nat} {ops : List (Op α κ)}
    (hr : run (step mk) (init pipe) ops = some w) :
    Along (step mk) InSync (init pipe) ops ↔ Meets (step mk) Keeps (init pipe) ops :=
  along_iff_meets (J := Regular)
    (fun _ _ _ hj hp hs hp' => by
      have hex := step_exact hj hp hs
      by_contra hn
      exact hex.breaks (fun hc => hn (hex.keeps hc).1) hp')
    (fun _ _ _ hj hp hs => by
      have hex := step_exact hj hp hs
      exact ⟨fun hp' => by by_contra hc; exact hex.breaks hc hp', fun hc => (hex.keeps hc).2⟩)
    (init_regular pipe) (init_inSync pipe) hr

/-- A socket waits for input, is served, closed, and its number used again. -/
theorem inSync_served : Along (step id) InSync (init 3 : World Nat Nat)
    [.coSocket 5, .registerEvent 5 epollIn 7 true, .blockPending (fun _ => 0) [⟨5, epollIn⟩],
      .coClose 5, .coSocket 5, .registerEvent 5 epollOut 8 true] :=
  run_of_isSome (by decide +kernel) fun _ hr => (inSync_iff hr).2 (by decide +kernel)

/-- After `removeEvent` the kernel does not know the descriptor, the table still does; and a
socket that gets the number of one closed while waiting runs into the assertion. -/
theorem not_inSync :
    (∃ w, run (step id) (init 3 : World Nat Nat)
        [.coSocket 5, .registerEvent 5 epollIn 7 true, .removeEvent 5 epollIn] = some w ∧
      w.epoll.interest 5 = none ∧ (w.entry 5).registeredEvents = epollIn ∧ ¬ w.InSync) ∧
    ∃ w, run (step id) (init 3 : World Nat Nat)
        [.coSocket 5, .registerEvent 5 epollIn 7 true, .coClose 5, .coSocket 5,
          .registerEvent 5 epollIn 8 true] = some w ∧
      w.fault = some .assertFailed ∧ ¬ w.InSync := by
  have hstale : ∀ w : World Nat Nat, w.wakeupPipeFd = 3 → w.epoll.interest 5 = none →
      (w.entry 5).registeredEvents = epollIn → ¬ w.InSync := by
    intro w hp hk hreg h
    have h0 := (h.2 5 (by rw [hp]; decide)).absent.2 hk
    exact absurd (hreg.symm.trans h0) (by decide)
  refine ⟨⟨_, rfl, rfl, rfl, hstale _ rfl rfl rfl⟩, ⟨_, rfl, rfl, fun h => ?_⟩⟩
  cases h.1

end NetBase.World
