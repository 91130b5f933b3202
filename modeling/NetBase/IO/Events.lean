import NetBase.IO.IOManager

/-!
# What the manager's calls do

Each call of the manager in closed form, on the states where it does not stop the process.
Entries of the table are read with `entry`: past the end of the vector an entry is the default
one, as `resize` will make it.
-/

namespace NetBase

namespace FdEvents

variable {α : Type}

/-- Clear the directions of `reg` the event reports, where `first` is registered for one call. -/
def left (first : FdEvents α) (ev : EpollEvent) (reg : BitVec 32) : BitVec 32 :=
  let drop := fun (m : BitVec 32) (d : EventType) =>
    if d.In ev.events ∧ first.callOnce d = true then m &&& ~~~d.mask else m
  drop (drop reg .read) .write

theorem in_left {first : FdEvents α} {ev : EpollEvent} {reg : BitVec 32} {d : EventType} :
    d.In (first.left ev reg) ↔ d.In reg ∧ ¬ (d.In ev.events ∧ first.callOnce d = true) := by
  simp only [left]
  cases d <;> split <;> split <;> simp [EventType.in_sub_mask, *]

/-- The executors the event queues. -/
def woken (f : FdEvents α) (ev : EpollEvent) : List (Option α) :=
  (if ev.Hits .read then [f.readExecutor] else []) ++
    if ev.Hits .write then [f.writeExecutor] else []

/-- The entry after the event, `left` of its events being registered. -/
def afterEvent (f : FdEvents α) (ev : EpollEvent) (left : BitVec 32) : FdEvents α :=
  { f with
    registeredEvents := left
    readExecutor := if ev.Hits .read ∧ f.readCallOnce = true then none else f.readExecutor
    writeExecutor := if ev.Hits .write ∧ f.writeCallOnce = true then none else f.writeExecutor }

variable {f : FdEvents α} {ev : EpollEvent} {left : BitVec 32} {d : EventType}

@[simp] theorem afterEvent_callOnce : (f.afterEvent ev left).callOnce d = f.callOnce d := by
  cases d <;> rfl

@[simp] theorem afterEvent_executor : (f.afterEvent ev left).executor d =
    if ev.Hits d ∧ f.callOnce d = true then none else f.executor d := by
  cases d <;> rfl

/-- The entry `removeEvent` leaves, `dst` being the mask it gives the kernel. -/
def removed (f : FdEvents α) (dst : BitVec 32) : FdEvents α :=
  let f := if EventType.read.In dst then f else f.setExecutor none .read
  if EventType.write.In dst then f else f.setExecutor none .write

@[simp] theorem removed_registered (dst : BitVec 32) :
    (f.removed dst).registeredEvents = f.registeredEvents := by
  unfold removed
  split <;> split <;> simp

/-- The entry after the read half of `enqueue`. -/
def afterRead (f : FdEvents α) (ev : EpollEvent) : FdEvents α :=
  if ev.Hits .read ∧ f.callOnce .read = true then f.setExecutor none .read else f

theorem afterRead_executor_write : (f.afterRead ev).executor .write = f.executor .write := by
  unfold afterRead
  split <;> rfl

theorem afterRead_afterEvent :
    (if ev.Hits .write ∧ (f.afterRead ev).callOnce .write = true then
      (f.afterRead ev).setExecutor none .write else f.afterRead ev) =
      f.afterEvent ev f.registeredEvents := by
  obtain ⟨reg, onceRead, onceWrite, exRead, exWrite⟩ := f
  unfold afterRead
  cases onceRead <;> cases onceWrite <;> by_cases hr : ev.Hits .read <;>
    by_cases hw : ev.Hits .write <;> simp [afterEvent, callOnce, setExecutor, hr, hw]

theorem mem_woken {x : Option α} (h : x ∈ f.woken ev) : ∃ d, ev.Hits d ∧ x = f.executor d := by
  rcases List.mem_append.1 h with h | h
  · split at h
    · exact ⟨.read, ‹_›, List.mem_singleton.1 h⟩
    · cases h
  · split at h
    · exact ⟨.write, ‹_›, List.mem_singleton.1 h⟩
    · cases h

end FdEvents

namespace World

variable {α κ : Type} {mk : κ → α} {w : World α κ} {fd first : Nat} {ev : EpollEvent}
  {f : FdEvents α} {d : EventType}

def entry (w : World α κ) (fd : Nat) : FdEvents α := w.fdEvents[fd]?.getD .fresh

theorem entry_eq (h : w.fdEvents[fd]? = some f) : w.entry fd = f := by simp [entry, h]

theorem getD_set {l : List (FdEvents α)} {g : FdEvents α} (h : l[fd]? = some f) (i : Nat) :
    ((l.set fd g)[i]?).getD .fresh = if i = fd then g else l[i]?.getD .fresh := by
  have hlt := (List.getElem?_eq_some_iff.1 h).1
  by_cases hi : i = fd
  · subst hi
    simp [hlt]
  · simp [hi, List.getElem?_set_ne (Ne.symm hi)]

/-! ## The events of a batch -/

/-- Every direction registered for more than one call has an executor. -/
def Kept (f : FdEvents α) : Prop := ∀ d, f.callOnce d = false → (f.executor d).isSome

theorem leftEvents_eq {left : BitVec 32} (h : d.In ev.events → first < w.fdEvents.length)
    (hx : Kept (w.entry first)) :
    w.leftEvents first ev left d =
      .ok (if d.In ev.events ∧ (w.entry first).callOnce d = true then left &&& ~~~d.mask
        else left) := by
  unfold leftEvents
  by_cases hin : d.In ev.events
  · have hf := List.getElem?_eq_getElem (h hin)
    have he := entry_eq hf
    simp only [hin, if_true, index_ok.2 hf, true_and, ← he]
    cases hc : (w.entry first).callOnce d with
    | true => simp [pure, Except.pure, bind, Except.bind, hc]
    | false =>
      obtain ⟨x, hx⟩ := Option.isSome_iff_exists.1 (hx d hc)
      simp [hx, pure, Except.pure, bind, Except.bind, hc]
  · simp [hin, pure, Except.pure]

theorem leftEvents_outOfRange {left : BitVec 32} (hin : d.In ev.events)
    (h : w.fdEvents.length ≤ first) : w.leftEvents first ev left d = .error .outOfRange := by
  simp [leftEvents, hin, index, List.getElem?_eq_none h, bind, Except.bind]

theorem updateEvents_eq {left m : BitVec 32} (hf : w.fdEvents[fd]? = some f)
    (hm : w.epoll.interest fd = some m) :
    w.updateEvents fd f left = .ok { w with
      fdEvents := w.fdEvents.set fd { f with registeredEvents := left }
      epoll := if left = f.registeredEvents then w.epoll
        else w.epoll.put fd (if left = 0 then none else some left) } := by
  unfold updateEvents
  by_cases hl : left = f.registeredEvents
  · have hsame : w.fdEvents.set fd f = w.fdEvents := by
      obtain ⟨hlt, hget⟩ := List.getElem?_eq_some_iff.1 hf
      rw [← hget]
      exact List.set_getElem_self hlt
    subst hl
    simp [hsame, pure, Except.pure]
  · rw [if_pos hl, if_neg hl]
    by_cases h0 : left = 0
    · rw [if_neg (not_not.2 h0), if_pos h0, Epoll.epollDel, hm]
      rfl
    · rw [if_pos h0, if_neg h0, Epoll.epollMod, hm]
      rfl

theorem enqueue_eq (hf : w.fdEvents[ev.fd]? = some f) (hs : w.scheduler.stopping = false) :
    w.enqueue ev d = .ok { w with
      fdEvents := w.fdEvents.set ev.fd
        (if ev.Hits d ∧ f.callOnce d = true then f.setExecutor none d else f)
      scheduler := { w.scheduler with
        readyExecutors := w.scheduler.readyExecutors ++
          (if ev.Hits d then [f.executor d] else []) } } := by
  have hsame : w.fdEvents.set ev.fd f = w.fdEvents := by
    obtain ⟨hlt, hget⟩ := List.getElem?_eq_some_iff.1 hf
    rw [← hget]
    exact List.set_getElem_self hlt
  unfold enqueue
  by_cases hh : ev.Hits d
  · simp only [hh, if_true, index_ok.2 hf, true_and, Scheduler.addExecutor_running hs]
    cases hc : f.callOnce d <;> simp [hsame, pure, Except.pure, bind, Except.bind, hc]
  · simp [hh, hsame, pure, Except.pure]

theorem enqueue_both (hf : w.fdEvents[ev.fd]? = some f) (hs : w.scheduler.stopping = false) :
    (w.enqueue ev .read >>= fun w => w.enqueue ev .write) = .ok { w with
      fdEvents := w.fdEvents.set ev.fd (f.afterEvent ev f.registeredEvents)
      scheduler := { w.scheduler with
        readyExecutors := w.scheduler.readyExecutors ++ f.woken ev } } := by
  have hlt := (List.getElem?_eq_some_iff.1 hf).1
  rw [enqueue_eq hf hs]
  refine (enqueue_eq (f := f.afterRead ev) ?_ ?_).trans ?_
  · simp [hlt, FdEvents.afterRead]
  · exact hs
  · simp only [List.set_set, FdEvents.afterRead_afterEvent, FdEvents.afterRead_executor_write,
      List.append_assoc]
    rfl

/-- The state after an event that is not the pipe's. -/
def handled (w : World α κ) (first : Nat) (ev : EpollEvent) : World α κ :=
  let f := w.entry ev.fd
  let left := (w.entry first).left ev f.registeredEvents
  { w with
    fdEvents := w.fdEvents.set ev.fd (f.afterEvent ev left)
    epoll := if left = f.registeredEvents then w.epoll
      else w.epoll.put ev.fd (if left = 0 then none else some left)
    scheduler := { w.scheduler with
      readyExecutors := w.scheduler.readyExecutors ++ f.woken ev } }

theorem handleEvent_eq {m : BitVec 32} (hp : ev.fd ≠ w.wakeupPipeFd)
    (hf : w.fdEvents[ev.fd]? = some f) (hm : w.epoll.interest ev.fd = some m)
    (hs : w.scheduler.stopping = false)
    (h₀ : ∀ d : EventType, d.In ev.events → first < w.fdEvents.length)
    (hx : Kept (w.entry first)) : w.handleEvent first ev = .ok (w.handled first ev) := by
  have hlt := (List.getElem?_eq_some_iff.1 hf).1
  unfold handleEvent
  rw [if_neg hp, index_ok.2 hf]
  simp only [bind, Except.bind, leftEvents_eq (h₀ _) hx, updateEvents_eq hf hm]
  refine (enqueue_both (f := { f with
    registeredEvents := (w.entry first).left ev f.registeredEvents }) ?_ ?_).trans ?_
  · simp only [List.getElem?_set_self hlt]
    rfl
  · exact hs
  · simp [handled, entry_eq hf, FdEvents.left, FdEvents.afterEvent, FdEvents.woken]

theorem handleEvent_outOfRange (hp : ev.fd ≠ w.wakeupPipeFd) (hf : w.fdEvents[ev.fd]? = some f)
    (hin : d.In ev.events) (h : w.fdEvents.length ≤ first) :
    w.handleEvent first ev = .error .outOfRange := by
  unfold handleEvent
  rw [if_neg hp, index_ok.2 hf]
  by_cases hr : EventType.read.In ev.events
  · simp [bind, Except.bind, leftEvents_outOfRange hr h]
  · cases d with
    | read => exact absurd hin hr
    | write =>
      have hskip : w.leftEvents first ev f.registeredEvents .read = .ok f.registeredEvents := by
        simp [leftEvents, hr, pure, Except.pure]
      simp [bind, Except.bind, hskip, leftEvents_outOfRange hin h]

/-- An event is handled as `handled` says, or stops the process. -/
theorem handleEvent_ok {w' : World α κ} {m : BitVec 32} (hx : Kept (w.entry first))
    (hp : ev.fd ≠ w.wakeupPipeFd) (hm : w.epoll.interest ev.fd = some m)
    (hs : w.scheduler.stopping = false)
    (h : w.handleEvent first ev = .ok w') :
    w' = w.handled first ev ∧ ∃ f, w.fdEvents[ev.fd]? = some f := by
  cases hf : w.fdEvents[ev.fd]? with
  | none =>
    rw [handleEvent, if_neg hp, index, hf] at h
    cases h
  | some f =>
    by_cases hin : ∀ d : EventType, d.In ev.events → first < w.fdEvents.length
    · rw [handleEvent_eq hp hf hm hs hin hx] at h
      cases h
      exact ⟨rfl, f, rfl⟩
    · simp only [not_forall, not_lt] at hin
      obtain ⟨d, hd, hlen⟩ := hin
      rw [handleEvent_outOfRange hp hf hd hlen] at h
      cases h

theorem handled_entry (first : Nat) (hf : w.fdEvents[ev.fd]? = some f) (g : Nat) :
    (w.handled first ev).entry g = if g = ev.fd then
      f.afterEvent ev ((w.entry first).left ev f.registeredEvents) else w.entry g := by
  simp only [handled, entry_eq hf]
  exact getD_set hf g

theorem handled_length (w : World α κ) (first : Nat) (ev : EpollEvent) :
    (w.handled first ev).fdEvents.length = w.fdEvents.length := by simp [handled]

theorem handled_interest_other (w : World α κ) {g : Nat} (hg : g ≠ ev.fd) :
    (w.handled first ev).epoll.interest g = w.epoll.interest g := by
  simp only [handled]
  split
  · rfl
  · simp [hg]

/-! ## Expired timers -/

/-- The queue entries made of the callbacks of the timers. -/
def called (mk : κ → α) (ts : List (Timer κ)) : List (Option α) :=
  ts.filterMap fun t => t.callback.map fun k => some (mk k)

theorem runTimers_eq (mk : κ → α) {ts : List (Timer κ)} (h : ∀ t ∈ ts, t.callback.isSome)
    (hs : w.scheduler.stopping = false) :
    w.runTimers mk ts = .ok { w with scheduler := { w.scheduler with
      readyExecutors := w.scheduler.readyExecutors ++ called mk ts } } := by
  induction ts generalizing w with
  | nil => simp [runTimers, called]
  | cons t ts ih =>
    obtain ⟨k, hk⟩ := Option.isSome_iff_exists.1 (h t List.mem_cons_self)
    have hadd : w.addExecutor (some (mk k)) = { w with scheduler := { w.scheduler with
        readyExecutors := w.scheduler.readyExecutors ++ [some (mk k)] } } := by
      simp [addExecutor, Scheduler.addExecutor_running hs]
    simp only [runTimers, hk, hadd]
    refine (ih (fun u hu => h u (List.mem_cons_of_mem _ hu)) ?_).trans ?_
    · exact hs
    · simp [called, hk]

/-- The state after the expired timers have been queued. -/
def expired (mk : κ → α) (w : World α κ) (clock : Nat → Nat) : World α κ :=
  { w with
    timerManager := (w.timerManager.takeExpiredTimers clock).2
    scheduler := { w.scheduler with
      readyExecutors := w.scheduler.readyExecutors ++
        called mk (w.timerManager.takeExpiredTimers clock).1 } }

theorem blockPending_eq {clock : Nat → Nat} {batch : List EpollEvent}
    (ht : ∀ t ∈ w.timerManager.timers, t.callback.isSome) (hs : w.scheduler.stopping = false) :
    w.blockPending mk clock batch = match batch with
      | [] => .ok (w.expired mk clock)
      | first :: _ => (w.expired mk clock).handleEvents first.fd batch := by
  have hexp : ∀ t ∈ (w.timerManager.takeExpiredTimers clock).1, t.callback.isSome :=
    fun t hm => ht t (TimerManager.mem_takeExpired_pending hm)
  have heq := runTimers_eq mk
    (w := { w with timerManager := (w.timerManager.takeExpiredTimers clock).2 }) hexp hs
  unfold blockPending
  simp only [heq, bind, Except.bind]
  rfl

theorem expired_timers {clock : Nat → Nat} (ht : ∀ t ∈ w.timerManager.timers, t.callback.isSome) :
    ∀ t ∈ (w.expired mk clock).timerManager.timers, t.callback.isSome := by
  intro t hm
  rcases TimerManager.pending_after_take hm with h | ⟨u, hu, -, -, hc⟩
  · exact ht t h
  · rw [hc]
    exact ht u (TimerManager.mem_takeExpired_pending hu)

/-! ## Registration -/

theorem growFor_entry (w : World α κ) (fd g : Nat) :
    ({ w with fdEvents := growFor .fresh w.fdEvents fd } : World α κ).entry g = w.entry g := by
  simp only [entry]
  exact getD_growFor FdEvents.fresh w.fdEvents fd g

/-- The state after a registration. -/
def registered (w : World α κ) (fd : Nat) (d : EventType) (x : Option α) (b : Bool) : World α κ :=
  let f := w.entry fd
  let dst := f.registeredEvents ||| d.mask
  { w with
    fdEvents := (growFor .fresh w.fdEvents fd).set fd
      { (f.setExecutor x d).setCallOnce b d with registeredEvents := dst }
    epoll := w.epoll.put fd (some (if f.registeredEvents = 0 then dst ||| epollEt else dst)) }

theorem registerEvent_eq {x : Option α} {b : Bool} (hst : w.stopped = false)
    (hfit : Fits w.fdEvents fd)
    (hk : (w.entry fd).registeredEvents = 0 ↔ w.epoll.interest fd = none) :
    w.registerEvent fd d.mask x b = .ok (true, w.registered fd d x b) := by
  have hd : EventType.ofMask d.mask = some d := by cases d <;> decide
  have hf : (growFor .fresh w.fdEvents fd)[fd]? = some (w.entry fd) := growFor_at hfit
  unfold registerEvent
  rw [if_neg (by simp [hst])]
  simp only [hd, index_ok.2 hf, bind, Except.bind, registered]
  by_cases h0 : (w.entry fd).registeredEvents = 0
  · rw [if_neg (not_not.2 h0), if_pos h0, Epoll.epollAdd, hk.1 h0]
    rfl
  · obtain ⟨m, hm⟩ := Option.ne_none_iff_exists'.1 (fun hn => h0 (hk.2 hn))
    rw [if_pos h0, if_neg h0, Epoll.epollMod, hm]
    rfl

theorem registerEvent_outOfRange {x : Option α} {b : Bool} (hst : w.stopped = false)
    (hfit : ¬ Fits w.fdEvents fd) :
    w.registerEvent fd d.mask x b = .error .outOfRange := by
  have hd : EventType.ofMask d.mask = some d := by cases d <;> decide
  have hlen : (growFor .fresh w.fdEvents fd).length ≤ fd :=
    Nat.le_of_not_lt fun h => hfit (length_growFor.2.1 h)
  unfold registerEvent
  rw [if_neg (by simp [hst])]
  simp [hd, index, List.getElem?_eq_none hlen, bind, Except.bind]

theorem registerEvent_ignored {type : BitVec 32} {x : Option α} {b : Bool}
    (hst : w.stopped = false) (hd : EventType.ofMask type = none) :
    w.registerEvent fd type x b =
      .ok (false, { w with fdEvents := growFor .fresh w.fdEvents fd }) := by
  unfold registerEvent
  rw [if_neg (by simp [hst])]
  simp only [hd]

/-- A registration does nothing or what `registered` says, the kernel's set apart. -/
theorem registerEvent_ok {w' : World α κ} {x : Option α} {b r : Bool}
    (h : w.registerEvent fd d.mask x b = .ok (r, w')) :
    w' = w ∨ Fits w.fdEvents fd ∧ ∃ k, w' = { w.registered fd d x b with epoll := k } := by
  by_cases hst : w.stopped = true
  · rw [registerEvent, if_pos hst] at h
    cases h
    exact .inl rfl
  · have hst' : w.stopped = false := by simpa using hst
    by_cases hfit : Fits w.fdEvents fd
    · have hd : EventType.ofMask d.mask = some d := by cases d <;> decide
      have hf : (growFor .fresh w.fdEvents fd)[fd]? = some (w.entry fd) := growFor_at hfit
      unfold registerEvent at h
      rw [if_neg hst] at h
      simp only [hd, index_ok.2 hf, bind, Except.bind] at h
      split at h <;> split at h
      · cases h
      · cases h
        exact .inr ⟨hfit, _, rfl⟩
      · cases h
      · cases h
        exact .inr ⟨hfit, _, rfl⟩
    · rw [registerEvent_outOfRange hst' hfit] at h
      cases h

theorem registered_entry {x : Option α} {b : Bool} (hfit : Fits w.fdEvents fd) (g : Nat) :
    (w.registered fd d x b).entry g = if g = fd then
      { ((w.entry fd).setExecutor x d).setCallOnce b d with
        registeredEvents := (w.entry fd).registeredEvents ||| d.mask } else w.entry g := by
  apply (getD_set (growFor_at hfit) g).trans
  split
  · rfl
  · exact getD_growFor FdEvents.fresh w.fdEvents fd g

theorem registered_executor {x : Option α} {b : Bool} (hfit : Fits w.fdEvents fd) (g : Nat)
    (d' : EventType) : ((w.registered fd d x b).entry g).executor d' =
      if g = fd ∧ d' = d then x else (w.entry g).executor d' := by
  rw [registered_entry hfit]
  by_cases hg : g = fd
  · subst hg
    cases d <;> cases d' <;> simp [FdEvents.executor, FdEvents.setExecutor, FdEvents.setCallOnce]
  · simp [hg]

theorem registered_callOnce {x : Option α} {b : Bool} (hfit : Fits w.fdEvents fd) (g : Nat)
    (d' : EventType) : ((w.registered fd d x b).entry g).callOnce d' =
      if g = fd ∧ d' = d then b else (w.entry g).callOnce d' := by
  rw [registered_entry hfit]
  by_cases hg : g = fd
  · subst hg
    cases d <;> cases d' <;> simp [FdEvents.callOnce, FdEvents.setExecutor, FdEvents.setCallOnce]
  · simp [hg]

theorem in_registered {x : Option α} {b : Bool} (hfit : Fits w.fdEvents fd) (g : Nat)
    (d' : EventType) : d'.In ((w.registered fd d x b).entry g).registeredEvents ↔
      d'.In (w.entry g).registeredEvents ∨ g = fd ∧ d' = d := by
  rw [registered_entry hfit]
  by_cases hg : g = fd
  · subst hg
    simp only [if_true, true_and]
    exact EventType.in_or_mask
  · simp [hg]

theorem removeEvent_eq_self {events : BitVec 32}
    (h : (w.entry fd).registeredEvents &&& events = 0) : w.removeEvent fd events = .ok w := by
  unfold removeEvent
  cases hf : w.fdEvents[fd]? with
  | none => rfl
  | some f =>
    rw [entry_eq hf] at h
    simp [h]

/-- When `removeEvent` does something: the kernel gets the complement, the entry loses its
executors and keeps its events. -/
theorem removeEvent_ok {events : BitVec 32} {w' : World α κ} (hf : w.fdEvents[fd]? = some f)
    (h : f.registeredEvents &&& events ≠ 0) (hr : w.removeEvent fd events = .ok w') :
    let dst := ~~~f.registeredEvents &&& events
    w' = { w with
      fdEvents := w.fdEvents.set fd (f.removed dst)
      epoll := w.epoll.put fd (if dst = 0 then none else some dst) } := by
  intro dst
  unfold removeEvent at hr
  simp only [hf] at hr
  rw [if_neg h] at hr
  by_cases h0 : dst = 0
  · rw [if_neg (not_not.2 h0), Epoll.epollDel] at hr
    rw [if_pos h0]
    cases hk : w.epoll.interest fd with
    | none => rw [hk] at hr; cases hr
    | some m => rw [hk] at hr; cases hr; rfl
  · rw [if_pos h0, Epoll.epollMod] at hr
    rw [if_neg h0]
    cases hk : w.epoll.interest fd with
    | none => rw [hk] at hr; cases hr
    | some m => rw [hk] at hr; cases hr; rfl

/-- Either way: nothing was registered and nothing happens, or `removeEvent_ok`. -/
theorem removeEvent_inv {events : BitVec 32} {w' : World α κ}
    (hr : w.removeEvent fd events = .ok w') :
    (w.entry fd).registeredEvents &&& events = 0 ∧ w' = w ∨
      ∃ f, w.fdEvents[fd]? = some f ∧ f.registeredEvents &&& events ≠ 0 ∧
        ∃ k, w' = { w with
          fdEvents := w.fdEvents.set fd (f.removed (~~~f.registeredEvents &&& events))
          epoll := k } := by
  by_cases h : (w.entry fd).registeredEvents &&& events = 0
  · rw [removeEvent_eq_self h] at hr
    cases hr
    exact .inl ⟨h, rfl⟩
  · cases hf : w.fdEvents[fd]? with
    | none => exact absurd (by simp [entry, hf, FdEvents.fresh]) h
    | some f =>
      rw [entry_eq hf] at h
      exact .inr ⟨f, rfl, h, _, removeEvent_ok hf h hr⟩

/-! ## The other calls -/

theorem coClose_ok {w' : World α κ} (h : w.coClose fd = .ok w') :
    ∃ u fds, (u = w ∨ w.removeEvent fd epollBoth = .ok u) ∧
      w' = { u with fds, epoll := u.epoll.close fd } := by
  unfold coClose at h
  split at h
  · obtain ⟨v, hv, hw⟩ := ok_of_bind h
    obtain ⟨u, hu, rfl⟩ := ok_of_map hv
    cases hw
    exact ⟨u, _, .inr hu, rfl⟩
  · cases h
    exact ⟨w, _, .inl rfl, rfl⟩

theorem coSocket_ok {w' : World α κ} (h : w.coSocket fd = .ok w') : ∃ fds, w' = { w with fds } := by
  obtain ⟨fds, -, hw⟩ := ok_of_bind h
  cases hw
  exact ⟨fds, rfl⟩

theorem cancelTimer_ok {w' : World α κ} {pick : Nat} {timer : Timer κ}
    (h : w.cancelTimer pick timer = .ok w') : ∃ m, w' = { w with timerManager := m } ∧
      m.timers.Sublist w.timerManager.timers := by
  obtain ⟨m, hm, hw⟩ := ok_of_bind h
  cases hw
  refine ⟨m, rfl, ?_⟩
  simp only [TimerManager.removeTimer] at hm
  split at hm
  · cases hm
    exact List.eraseIdx_sublist _ _
  · cases hm

/-- The calls that are possible, with the state after them. -/
inductive OpEffect (mk : κ → α) (w : World α κ) : Op α κ → World α κ → Prop where
  | registerEvent {fd : Nat} {type : BitVec 32} {x : α} {b : Bool} (hfd : fd ≠ w.wakeupPipeFd) :
      OpEffect mk w (.registerEvent fd type x b)
        (w.after ((w.registerEvent fd type (some x) b).map Prod.snd))
  | removeEvent {fd : Nat} {events : BitVec 32} (hfd : fd ≠ w.wakeupPipeFd) :
      OpEffect mk w (.removeEvent fd events) (w.after (w.removeEvent fd events))
  | coClose {fd : Nat} (hfd : fd ≠ w.wakeupPipeFd) :
      OpEffect mk w (.coClose fd) (w.after (w.coClose fd))
  | coSocket {fd : Nat} (hfd : fd ≠ w.wakeupPipeFd) (hi : w.epoll.interest fd = none) :
      OpEffect mk w (.coSocket fd) (w.after (w.coSocket fd))
  | addExecutor (x : α) : OpEffect mk w (.addExecutor x) (w.addExecutor (some x))
  | registerTimer (curMs interval : Nat) (callback : κ) (repeats : Bool) :
      OpEffect mk w (.registerTimer curMs interval callback repeats)
        (w.after (({ w with timerManager :=
            (w.timerManager.newTimer curMs interval (some callback) repeats).2 }.registerTimer
          (w.timerManager.newTimer curMs interval (some callback) repeats).1).map Prod.snd))
  | stop : OpEffect mk w .stop w.stop
  | takeReady : OpEffect mk w .takeReady { w with scheduler := w.scheduler.takeReady.2 }
  | blockPending {clock : Nat → Nat} {batch : List EpollEvent} (hb : w.epoll.Reports batch)
      (hs : w.scheduler.stopping = false) :
      OpEffect mk w (.blockPending clock batch) (w.after (w.blockPending mk clock batch))

theorem step_effect {w' : World α κ} {op : Op α κ} (h : step mk w op = some w') :
    OpEffect mk w op w' := by
  unfold step at h
  split at h
  · cases h
  cases op with
  | registerEvent fd type x b =>
    simp only at h
    split at h
    · cases h
    · cases h; exact .registerEvent ‹_›
  | removeEvent fd events =>
    simp only at h
    split at h
    · cases h
    · cases h; exact .removeEvent ‹_›
  | coClose fd =>
    simp only at h
    split at h
    · cases h
    · cases h; exact .coClose ‹_›
  | coSocket fd =>
    simp only at h
    split at h
    · cases h
    · rename_i hno
      cases h
      exact .coSocket (fun hfd => hno (.inl hfd)) (by_contra fun hi => hno (.inr hi))
  | addExecutor x => cases h; exact .addExecutor x
  | registerTimer curMs interval callback repeats => cases h; exact .registerTimer ..
  | stop => cases h; exact .stop
  | takeReady => cases h; exact .takeReady
  | blockPending clock batch =>
    simp only at h
    split at h
    · rename_i hb
      cases h
      exact .blockPending hb.1 hb.2
    · cases h

end World

end NetBase
