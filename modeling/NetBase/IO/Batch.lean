import NetBase.Lib.Runs
import NetBase.Lib.Traced
import NetBase.IO.Events

/-!
# Batches of events

`blockPending` handles the events `epoll_wait` reported in one loop. Handling a batch should
come to the same as a call for each of its events. To say so, the loop is written once more
with a log: every access to `fd_events_`, every `epoll_ctl` and every `addExecutor`.
Forgetting the log gives back the loop of the manager.

The loop looks up the flags of the first event of the batch for every event, so a batch is
handled event by event only as long as no later event makes it look.
-/

namespace NetBase

open Lib

inductive Ctl where
  | mod (fd : Nat) (events : BitVec 32)
  | del (fd : Nat)
  deriving DecidableEq, Repr

inductive IoEffect (α : Type) where
  /-- While an event of `fd` is handled, `fd_events_[i]` is accessed. -/
  | index (fd i : Nat)
  | epollCtl (c : Ctl)
  | addExecutor (executor : Option α)
  deriving DecidableEq, Repr

/-- The effect is a call. -/
def IoEffect.isCall {α : Type} : IoEffect α → Bool
  | .index _ _ => false
  | .epollCtl _ => true
  | .addExecutor _ => true

namespace World

variable {α κ : Type}

/-! ## The loop with its log -/

def indexT (w : World α κ) (fd i : Nat) : Traced (IoEffect α) Fault (FdEvents α) := do
  .emit (.index fd i)
  .lift (index w.fdEvents i)

def runTimersT (mk : κ → α) (w : World α κ) :
    List (Timer κ) → Traced (IoEffect α) Fault (World α κ)
  | [] => return w
  | t :: ts =>
    match t.callback with
    | none => .lift (.error .assertFailed)
    | some k => do
      .emit (.addExecutor (some (mk k)))
      (w.addExecutor (some (mk k))).runTimersT mk ts

def leftEventsT (w : World α κ) (first : Nat) (ev : EpollEvent) (left : BitVec 32)
    (d : EventType) : Traced (IoEffect α) Fault (BitVec 32) :=
  if d.In ev.events then do
    let f ← w.indexT ev.fd first
    if f.callOnce d then return left &&& ~~~d.mask
    else
      match f.executor d with
      | some _ => return left
      | none => .lift (.error .nullExecutor)
  else return left

def updateEventsT (w : World α κ) (fd : Nat) (f : FdEvents α) (left : BitVec 32) :
    Traced (IoEffect α) Fault (World α κ) :=
  if left ≠ f.registeredEvents then do
    .emit (.epollCtl (if left ≠ 0 then .mod fd left else .del fd))
    .lift (w.updateEvents fd f left)
  else return w

def enqueueT (w : World α κ) (ev : EpollEvent) (d : EventType) :
    Traced (IoEffect α) Fault (World α κ) :=
  if ev.Hits d then do
    let f ← w.indexT ev.fd ev.fd
    .emit (.addExecutor (f.executor d))
    .lift (w.enqueue ev d)
  else return w

def handleEventT (w : World α κ) (first : Nat) (ev : EpollEvent) :
    Traced (IoEffect α) Fault (World α κ) :=
  if ev.fd = w.wakeupPipeFd then return w
  else do
    let f ← w.indexT ev.fd ev.fd
    let left ← w.leftEventsT first ev f.registeredEvents .read
    let left ← w.leftEventsT first ev left .write
    let w ← w.updateEventsT ev.fd f left
    let w ← w.enqueueT ev .read
    w.enqueueT ev .write

def handleEventsT (w : World α κ) (first : Nat) :
    List EpollEvent → Traced (IoEffect α) Fault (World α κ)
  | [] => return w
  | ev :: batch => do
    let w ← w.handleEventT first ev
    w.handleEventsT first batch

def blockPendingT (mk : κ → α) (w : World α κ) (clock : Nat → Nat) (batch : List EpollEvent) :
    Traced (IoEffect α) Fault (World α κ) := do
  let (timers, timerManager) := w.timerManager.takeExpiredTimers clock
  let w ← { w with timerManager }.runTimersT mk timers
  match batch with
  | [] => return w
  | first :: _ => w.handleEventsT first.fd batch

/-! ## One call per event -/

/-- A call for every event of the batch; the clock reads `clock` in each. -/
def eachPendingT (mk : κ → α) (w : World α κ) (clock : Nat → Nat) :
    List EpollEvent → Traced (IoEffect α) Fault (World α κ)
  | [] => return w
  | ev :: batch => do
    let w ← w.blockPendingT mk clock [ev]
    w.eachPendingT mk clock batch

/-- A call that finds the expired timers and no event, then one for every event. -/
def oneByOneT (mk : κ → α) (w : World α κ) (clock later : Nat → Nat) (batch : List EpollEvent) :
    Traced (IoEffect α) Fault (World α κ) := do
  let w ← w.blockPendingT mk clock []
  w.eachPendingT mk later batch

/-- Handling the batch at once leaves the same table and makes the same calls as handling it
event by event, and looks only at the entry of the event at hand. -/
structure PerEvent (mk : κ → α) (w : World α κ) (clock later : Nat → Nat)
    (batch : List EpollEvent) : Prop where
  table : (w.blockPendingT mk clock batch).result.map (fun w => w.fdEvents) =
    (w.oneByOneT mk clock later batch).result.map fun w => w.fdEvents
  calls : (w.blockPendingT mk clock batch).log.filter IoEffect.isCall =
    (w.oneByOneT mk clock later batch).log.filter IoEffect.isCall
  own : ∀ fd i, .index fd i ∈ (w.blockPendingT mk clock batch).log → i = fd

/-- The event reports a direction of a descriptor that is not the pipe. -/
def Looks (w : World α κ) (ev : EpollEvent) : Prop :=
  ev.fd ≠ w.wakeupPipeFd ∧ ∃ d : EventType, d.In ev.events

/-- The event calls `reuse()` through a null pointer of its own entry. -/
def Crashes (w : World α κ) (ev : EpollEvent) : Prop :=
  ev.fd ≠ w.wakeupPipeFd ∧ ∃ d : EventType, d.In ev.events ∧
    (w.entry ev.fd).callOnce d = false ∧ (w.entry ev.fd).executor d = none

/-- No event but the first reports a direction, or the first one crashes. -/
def Alone (w : World α κ) : List EpollEvent → Prop
  | [] => True
  | first :: rest => (∀ ev ∈ rest, ¬ w.Looks ev) ∨ w.Crashes first

/-! ## The log forgotten -/

section
variable {mk : κ → α} {w w' : World α κ} {first : Nat} {ev : EpollEvent} {left : BitVec 32}
  {d : EventType} {batch : List EpollEvent} {f : FdEvents α}

@[simp] theorem indexT_result (w : World α κ) (fd i : Nat) :
    (w.indexT fd i).result = index w.fdEvents i := rfl

theorem runTimersT_result (ts : List (Timer κ)) :
    (w.runTimersT mk ts).result = w.runTimers mk ts := by
  induction ts generalizing w with
  | nil => rfl
  | cons t ts ih =>
    unfold runTimersT runTimers
    cases t.callback with
    | none => rfl
    | some k => exact ih

theorem leftEventsT_result :
    (w.leftEventsT first ev left d).result = w.leftEvents first ev left d := by
  unfold leftEventsT leftEvents
  split
  · rw [Traced.result_bind, indexT_result]
    congr 1
    funext f
    split
    · rfl
    · cases f.executor d <;> rfl
  · rfl

theorem updateEventsT_result (fd : Nat) :
    (w.updateEventsT fd f left).result = w.updateEvents fd f left := by
  unfold updateEventsT
  split
  · rfl
  · rename_i h
    rw [updateEvents, if_neg h]
    rfl

theorem enqueueT_result : (w.enqueueT ev d).result = w.enqueue ev d := by
  unfold enqueueT
  split
  · rename_i hh
    rw [Traced.result_bind, indexT_result]
    cases hf : index w.fdEvents ev.fd with
    | error e =>
      simp only [enqueue, if_pos hh, hf]
      rfl
    | ok f => rfl
  · rename_i hh
    rw [enqueue, if_neg hh]
    rfl

theorem handleEventT_result : (w.handleEventT first ev).result = w.handleEvent first ev := by
  unfold handleEventT handleEvent
  split
  · rfl
  · simp only [Traced.result_bind, indexT_result, leftEventsT_result, updateEventsT_result,
      enqueueT_result]

theorem handleEventsT_result :
    (w.handleEventsT first batch).result = w.handleEvents first batch := by
  induction batch generalizing w with
  | nil => rfl
  | cons ev batch ih =>
    simp only [handleEventsT, handleEvents, Traced.result_bind, handleEventT_result, ih]

/-- Without its log the loop is the manager's. -/
theorem blockPendingT_result {clock : Nat → Nat} :
    (w.blockPendingT mk clock batch).result = w.blockPending mk clock batch := by
  unfold blockPendingT blockPending
  rw [Traced.result_bind, runTimersT_result]
  congr 1
  funext w
  cases batch with
  | nil => rfl
  | cons ev batch => exact handleEventsT_result

/-! ## What handling an event leaves alone -/

/-- `w'` differs from `w` in the entry and the interest of `fd` and in the ready queue. -/
structure Touches (fd : Nat) (w w' : World α κ) : Prop where
  pipe : w'.wakeupPipeFd = w.wakeupPipeFd
  timers : w'.timerManager = w.timerManager
  stopping : w'.scheduler.stopping = w.scheduler.stopping
  length : w'.fdEvents.length = w.fdEvents.length
  interest : ∀ g, g ≠ fd → w'.epoll.interest g = w.epoll.interest g

theorem Touches.refl (fd : Nat) (w : World α κ) : Touches fd w w :=
  ⟨rfl, rfl, rfl, rfl, fun _ _ => rfl⟩

theorem Touches.trans {fd : Nat} {w'' : World α κ} (h : Touches fd w w') (h' : Touches fd w' w'') :
    Touches fd w w'' :=
  ⟨h'.pipe.trans h.pipe, h'.timers.trans h.timers, h'.stopping.trans h.stopping,
    h'.length.trans h.length, fun g hg => (h'.interest g hg).trans (h.interest g hg)⟩

theorem updateEvents_touches {fd : Nat} (h : w.updateEvents fd f left = .ok w') :
    Touches fd w w' := by
  unfold updateEvents Epoll.epollMod Epoll.epollDel at h
  split at h
  · split at h
    all_goals
      cases hi : w.epoll.interest fd with
      | none => rw [hi] at h; cases h
      | some m =>
        rw [hi] at h
        cases h
        exact ⟨rfl, rfl, rfl, List.length_set, fun g hg => Epoll.put_other _ _ hg⟩
  · cases h
    exact .refl _ _

theorem enqueue_touches (h : w.enqueue ev d = .ok w') : Touches ev.fd w w' := by
  unfold enqueue at h
  split at h
  · obtain ⟨f, -, h⟩ := ok_of_bind h
    have hst := (w.scheduler.addExecutor_flags (f.executor d)).1
    dsimp only at h
    split at h
    · cases h
      refine ⟨rfl, rfl, hst, ?_, fun _ _ => rfl⟩
      dsimp only
      split
      · exact List.length_set
      · rfl
    · cases h
  · cases h
    exact .refl _ _

theorem handleEvent_touches (h : w.handleEvent first ev = .ok w') : Touches ev.fd w w' := by
  unfold handleEvent at h
  split at h
  · cases h
    exact .refl _ _
  · obtain ⟨f, -, h⟩ := ok_of_bind h
    obtain ⟨l₁, -, h⟩ := ok_of_bind h
    obtain ⟨l₂, -, h⟩ := ok_of_bind h
    obtain ⟨w₁, h₁, h⟩ := ok_of_bind h
    obtain ⟨w₂, h₂, h₃⟩ := ok_of_bind h
    exact ((updateEvents_touches h₁).trans (enqueue_touches h₂)).trans (enqueue_touches h₃)

/-- Queuing the expired timers touches the ready queue only. -/
theorem runTimers_frame {ts : List (Timer κ)} (h : w.runTimers mk ts = .ok w') :
    w'.fdEvents = w.fdEvents ∧ w'.epoll = w.epoll ∧ w'.wakeupPipeFd = w.wakeupPipeFd ∧
      w'.timerManager = w.timerManager ∧ w'.scheduler.stopping = w.scheduler.stopping := by
  induction ts generalizing w with
  | nil => cases h; exact ⟨rfl, rfl, rfl, rfl, rfl⟩
  | cons t ts ih =>
    unfold runTimers at h
    split at h
    · cases h
    · rename_i k _
      have hst := (w.scheduler.addExecutor_flags (some (mk k))).1
      obtain ⟨h1, h2, h3, h4, h5⟩ := ih h
      exact ⟨h1, h2, h3, h4, h5.trans hst⟩

/-! ## Events one by one -/

/-- The events, each looked up under its own descriptor. -/
def eachT (w : World α κ) : List EpollEvent → Traced (IoEffect α) Fault (World α κ)
  | [] => return w
  | ev :: batch => do
    let w ← w.handleEventT ev.fd ev
    w.eachT batch

theorem leftEventsT_skip (h : ¬ d.In ev.events) : w.leftEventsT first ev left d = pure left :=
  if_neg h

/-- Only an event that reports a direction looks at the first one. -/
theorem handleEventT_first (h : ¬ w.Looks ev) (first first' : Nat) :
    w.handleEventT first ev = w.handleEventT first' ev := by
  unfold handleEventT
  split
  · rfl
  · rename_i hp
    have hno : ∀ d : EventType, ¬ d.In ev.events := fun d hd => h ⟨hp, d, hd⟩
    simp only [leftEventsT_skip (hno _)]

theorem handleEventsT_eq_each (h : ∀ ev ∈ batch, ¬ w.Looks ev) (first : Nat) :
    w.handleEventsT first batch = w.eachT batch := by
  induction batch generalizing w with
  | nil => rfl
  | cons ev batch ih =>
    unfold handleEventsT eachT
    rw [handleEventT_first (h ev List.mem_cons_self) first ev.fd]
    refine Traced.bind_congr fun w' hw' => ih fun e he hl => ?_
    rw [handleEventT_result] at hw'
    refine h e (List.mem_cons_of_mem _ he) ⟨?_, hl.2⟩
    rw [← (handleEvent_touches hw').pipe]
    exact hl.1

theorem takeExpired_none {clock : Nat → Nat} {m : TimerManager κ}
    (h : ∀ t ∈ m.timers, clock 0 < t.targetTimestamp) :
    m.takeExpiredTimers clock = ([], m) := by
  have hend : TimerManager.expiredEnd (clock 0) m.timers = 0 := by
    unfold TimerManager.expiredEnd Multi.lowerBound
    cases hm : m.timers with
    | nil => rfl
    | cons t ts =>
      have ht := h t (hm ▸ List.mem_cons_self)
      have h1 : ¬ TimerManager.key t < clock 0 := Nat.not_lt.2 ht.le
      have h2 : ¬ t.targetTimestamp = clock 0 := ht.ne'
      simp [h1, h2]
  simp only [TimerManager.takeExpiredTimers, hend, List.take_zero, List.drop_zero,
    TimerManager.addRepeats]

/-- With no timer due, the calls for single events are those events. -/
theorem eachPendingT_eq {later : Nat → Nat}
    (h : ∀ t ∈ w.timerManager.timers, later 0 < t.targetTimestamp) :
    w.eachPendingT mk later batch = w.eachT batch := by
  induction batch generalizing w with
  | nil => rfl
  | cons ev batch ih =>
    have hone : w.blockPendingT mk later [ev] = w.handleEventT ev.fd ev := by
      unfold blockPendingT
      rw [takeExpired_none h]
      exact Traced.bind_pure _
    unfold eachPendingT eachT
    rw [hone]
    refine Traced.bind_congr fun w' hw' => ih ?_
    rw [handleEventT_result] at hw'
    rw [(handleEvent_touches hw').timers]
    exact h

/-! ## What is looked at -/

theorem mem_indexT {fd i : Nat} {o : IoEffect α} (h : o ∈ (w.indexT fd i).log) :
    o = .index fd i := List.mem_singleton.1 h

theorem index_leftEventsT {fd i : Nat} (h : .index fd i ∈ (w.leftEventsT first ev left d).log) :
    fd = ev.fd ∧ i = first ∧ d.In ev.events := by
  unfold leftEventsT at h
  split at h
  · rename_i hd
    rcases Traced.mem_log_bind h with h | ⟨f, -, h⟩
    · cases mem_indexT h
      exact ⟨rfl, rfl, hd⟩
    · split at h
      · cases h
      · split at h <;> cases h
  · cases h

theorem index_updateEventsT {fd i g : Nat} (h : .index fd i ∈ (w.updateEventsT g f left).log) :
    False := by
  unfold updateEventsT at h
  split at h
  · rcases Traced.mem_log_bind h with h | ⟨-, -, h⟩
    · cases List.mem_singleton.1 h
    · cases h
  · cases h

theorem index_enqueueT {fd i : Nat} (h : .index fd i ∈ (w.enqueueT ev d).log) :
    fd = ev.fd ∧ i = ev.fd := by
  unfold enqueueT at h
  split at h
  · rcases Traced.mem_log_bind h with h | ⟨f, -, h⟩
    · cases mem_indexT h
      exact ⟨rfl, rfl⟩
    · rcases Traced.mem_log_bind h with h | ⟨-, -, h⟩
      · cases List.mem_singleton.1 h
      · cases h
  · cases h

/-- An event of `fd` looks at the entry of `fd` and, reporting a direction, at the first one. -/
theorem index_handleEventT {fd i : Nat} (h : .index fd i ∈ (w.handleEventT first ev).log) :
    fd = ev.fd ∧ (i = ev.fd ∨ i = first) := by
  unfold handleEventT at h
  split at h
  · cases h
  · rcases Traced.mem_log_bind h with h | ⟨f, -, h⟩
    · cases mem_indexT h
      exact ⟨rfl, .inl rfl⟩
    rcases Traced.mem_log_bind h with h | ⟨l₁, -, h⟩
    · obtain ⟨h1, h2, -⟩ := index_leftEventsT h
      exact ⟨h1, .inr h2⟩
    rcases Traced.mem_log_bind h with h | ⟨l₂, -, h⟩
    · obtain ⟨h1, h2, -⟩ := index_leftEventsT h
      exact ⟨h1, .inr h2⟩
    rcases Traced.mem_log_bind h with h | ⟨w₁, -, h⟩
    · exact (index_updateEventsT h).elim
    rcases Traced.mem_log_bind h with h | ⟨w₂, -, h⟩
    · obtain ⟨h1, h2⟩ := index_enqueueT h
      exact ⟨h1, .inl h2⟩
    · obtain ⟨h1, h2⟩ := index_enqueueT h
      exact ⟨h1, .inl h2⟩

theorem index_runTimersT {fd i : Nat} {ts : List (Timer κ)}
    (h : .index fd i ∈ (w.runTimersT mk ts).log) : False := by
  induction ts generalizing w with
  | nil => cases h
  | cons t ts ih =>
    unfold runTimersT at h
    split at h
    · cases h
    · rcases Traced.mem_log_bind h with h | ⟨-, -, h⟩
      · cases List.mem_singleton.1 h
      · exact ih h

/-- Events looked up under their own descriptors look nowhere else. -/
theorem index_eachT {fd i : Nat} (h : .index fd i ∈ (w.eachT batch).log) : i = fd := by
  induction batch generalizing w with
  | nil => cases h
  | cons ev batch ih =>
    rcases Traced.mem_log_bind h with h | ⟨w', -, h⟩
    · obtain ⟨rfl, hi⟩ := index_handleEventT h
      exact hi.elim id id
    · exact ih h

theorem looks_logged (hl : w.Looks ev) (hf : w.fdEvents[ev.fd]? = some f) (first : Nat) :
    .index ev.fd first ∈ (w.handleEventT first ev).log := by
  obtain ⟨hp, d, hd⟩ := hl
  have hlog : ∀ {d : EventType} {left : BitVec 32}, d.In ev.events →
      .index ev.fd first ∈ (w.leftEventsT first ev left d).log := by
    intro d left hd
    unfold leftEventsT
    rw [if_pos hd]
    exact Traced.mem_log_left (List.mem_singleton.2 rfl) _
  unfold handleEventT
  rw [if_neg hp]
  apply Traced.mem_log_right (index_ok.2 hf)
  by_cases hr : EventType.read.In ev.events
  · exact Traced.mem_log_left (hlog hr) _
  · cases d with
    | read => exact absurd hd hr
    | write =>
      rw [leftEventsT_skip hr]
      exact Traced.mem_log_left (hlog hd) _

/-! ## Events that are handled without stopping the process -/

theorem leftEvents_returns (left : BitVec 32) (h : d.In ev.events → ∃ g,
    w.fdEvents[first]? = some g ∧ (g.callOnce d = false → (g.executor d).isSome)) :
    ∃ left', w.leftEvents first ev left d = .ok left' := by
  unfold leftEvents
  by_cases hd : d.In ev.events
  · obtain ⟨g, hg, hx⟩ := h hd
    rw [if_pos hd, index_ok.2 hg]
    cases hc : g.callOnce d with
    | true => exact ⟨_, by simp [bind, Except.bind, hc]; rfl⟩
    | false =>
      obtain ⟨x, hx⟩ := Option.isSome_iff_exists.1 (hx hc)
      exact ⟨left, by simp [bind, Except.bind, hc, hx]; rfl⟩
  · exact ⟨left, if_neg hd⟩

theorem handleEvent_returns {m : BitVec 32} (hf : w.fdEvents[ev.fd]? = some f)
    (hm : w.epoll.interest ev.fd = some m) (hs : w.scheduler.stopping = false)
    (h : ∀ d : EventType, d.In ev.events → ∃ g, w.fdEvents[first]? = some g ∧
      (g.callOnce d = false → (g.executor d).isSome)) :
    ∃ w', w.handleEvent first ev = .ok w' := by
  unfold handleEvent
  split
  · exact ⟨w, rfl⟩
  · obtain ⟨l₁, h₁⟩ := leftEvents_returns f.registeredEvents (h .read)
    obtain ⟨l₂, h₂⟩ := leftEvents_returns l₁ (h .write)
    have hlt := (List.getElem?_eq_some_iff.1 hf).1
    rw [index_ok.2 hf]
    simp only [bind, Except.bind, h₁, h₂, updateEvents_eq hf hm]
    refine ⟨_, enqueue_both (f := { f with registeredEvents := l₂ }) ?_ hs⟩
    simp only [List.getElem?_set_self hlt]

/-- The process goes on when the first event is handled, unless it crashes on its own entry. -/
theorem handleEvent_own {m : BitVec 32} (hf : w.fdEvents[ev.fd]? = some f)
    (hm : w.epoll.interest ev.fd = some m) (hs : w.scheduler.stopping = false)
    (hc : ¬ w.Crashes ev) (hp : ev.fd ≠ w.wakeupPipeFd) :
    ∃ w', w.handleEvent ev.fd ev = .ok w' := by
  refine handleEvent_returns hf hm hs fun d hd => ⟨f, hf, fun ho => ?_⟩
  cases hx : f.executor d with
  | some x => rfl
  | none => exact absurd ⟨hp, d, hd, by rw [entry_eq hf]; exact ⟨ho, hx⟩⟩ hc

theorem handleEventT_crashes (hc : w.Crashes ev) :
    ∃ e, (w.handleEventT ev.fd ev).result = .error e := by
  rw [handleEventT_result]
  cases hr : w.handleEvent ev.fd ev with
  | error e => exact ⟨e, rfl⟩
  | ok w' =>
    obtain ⟨hp, d, hd, ho, hx⟩ := hc
    unfold handleEvent at hr
    rw [if_neg hp] at hr
    obtain ⟨f, hf, hr⟩ := ok_of_bind hr
    obtain ⟨l₁, h₁, hr⟩ := ok_of_bind hr
    obtain ⟨l₂, h₂, -⟩ := ok_of_bind hr
    rw [entry_eq (index_ok.1 hf)] at ho hx
    have hnull : ∀ left, w.leftEvents ev.fd ev left d = .error .nullExecutor := by
      intro left
      unfold leftEvents
      rw [if_pos hd, hf]
      simp [bind, Except.bind, ho, hx]
    cases d with
    | read => rw [hnull] at h₁; cases h₁
    | write => rw [hnull] at h₂; cases h₂

/-- What the events of a batch find: their entries, the kernel's interest, an open queue. -/
structure Met (w : World α κ) (batch : List EpollEvent) : Prop where
  entries : ∀ ev ∈ batch, ev.fd ≠ w.wakeupPipeFd →
    (∃ f, w.fdEvents[ev.fd]? = some f) ∧ ∃ m, w.epoll.interest ev.fd = some m
  distinct : (batch.map EpollEvent.fd).Nodup
  accepting : w.scheduler.stopping = false

theorem Met.tail (h : w.Met (ev :: batch)) (ht : Touches ev.fd w w') : w'.Met batch := by
  obtain ⟨hne, hd⟩ := List.nodup_cons.1 h.distinct
  refine ⟨fun e he hp => ?_, hd, ht.stopping.trans h.accepting⟩
  rw [ht.pipe] at hp
  obtain ⟨⟨f, hf⟩, m, hm⟩ := h.entries e (List.mem_cons_of_mem _ he) hp
  have hlt := (List.getElem?_eq_some_iff.1 hf).1
  have hne' : e.fd ≠ ev.fd := fun h => hne (h ▸ List.mem_map_of_mem he)
  exact ⟨⟨_, List.getElem?_eq_getElem (ht.length ▸ hlt)⟩, m, (ht.interest _ hne').trans hm⟩

/-- By induction on the batch: the events before the first that looks are handled, and that one
looks at `first`. -/
theorem Met.looks_logged (h : w.Met batch) (hl : ∃ ev ∈ batch, w.Looks ev) (first : Nat) :
    ∃ ev ∈ batch, .index ev.fd first ∈ (w.handleEventsT first batch).log := by
  induction batch generalizing w with
  | nil => obtain ⟨ev, he, -⟩ := hl; cases he
  | cons ev batch ih =>
    by_cases hle : w.Looks ev
    · obtain ⟨⟨f, hf⟩, -⟩ := h.entries ev List.mem_cons_self hle.1
      exact ⟨ev, List.mem_cons_self, Traced.mem_log_left (World.looks_logged hle hf first) _⟩
    · have hret : ∃ w', w.handleEvent first ev = .ok w' := by
        by_cases hp : ev.fd = w.wakeupPipeFd
        · exact ⟨w, if_pos hp⟩
        · obtain ⟨⟨f, hf⟩, m, hm⟩ := h.entries ev List.mem_cons_self hp
          exact handleEvent_returns hf hm h.accepting fun d hd => absurd ⟨hp, d, hd⟩ hle
      obtain ⟨w', hw'⟩ := hret
      have ht := handleEvent_touches hw'
      have hl' : ∃ e ∈ batch, w'.Looks e := by
        obtain ⟨e, he, hle'⟩ := hl
        rcases List.mem_cons.1 he with rfl | he
        · exact absurd hle' hle
        · exact ⟨e, he, ht.pipe ▸ hle'.1, hle'.2⟩
      obtain ⟨e, he, hlog⟩ := ih (h.tail ht) hl'
      exact ⟨e, List.mem_cons_of_mem _ he,
        Traced.mem_log_right (handleEventT_result.trans hw') hlog⟩

/-! ## Reachable states -/

/-- The kernel watches only descriptors of the table, the pipe apart, and pending timers have
callbacks. -/
structure Covered (w : World α κ) : Prop where
  known : ∀ fd, fd ≠ w.wakeupPipeFd → w.epoll.interest fd ≠ none → fd < w.fdEvents.length
  timers : ∀ t ∈ w.timerManager.timers, t.callback.isSome

/-- The table does not shrink, and what the kernel watches in addition is in the table. -/
structure Spreads (w w' : World α κ) : Prop where
  pipe : w'.wakeupPipeFd = w.wakeupPipeFd
  length : w.fdEvents.length ≤ w'.fdEvents.length
  interest : ∀ fd, w'.epoll.interest fd ≠ none →
    w.epoll.interest fd ≠ none ∨ fd < w'.fdEvents.length

theorem Spreads.of_eq (hp : w'.wakeupPipeFd = w.wakeupPipeFd) (hf : w'.fdEvents = w.fdEvents)
    (hk : w'.epoll = w.epoll) : Spreads w w' :=
  ⟨hp, by rw [hf], fun fd h => .inl (by rw [hk] at h; exact h)⟩

theorem Spreads.trans {w'' : World α κ} (h : Spreads w w') (h' : Spreads w' w'') :
    Spreads w w'' := by
  refine ⟨h'.pipe.trans h.pipe, h.length.trans h'.length, fun fd hi => ?_⟩
  rcases h'.interest fd hi with hi | hi
  · rcases h.interest fd hi with hi | hi
    · exact .inl hi
    · exact .inr (hi.trans_le h'.length)
  · exact .inr hi

theorem Covered.spreads (h : w.Covered) (hs : Spreads w w')
    (ht : ∀ t ∈ w'.timerManager.timers, t.callback.isSome) : w'.Covered := by
  refine ⟨fun fd hp hi => ?_, ht⟩
  rw [hs.pipe] at hp
  rcases hs.interest fd hi with hi | hi
  · exact (h.known fd hp hi).trans_le hs.length
  · exact hi

/-- An `epoll_ctl` for `fd`. -/
theorem put_interest {k : Epoll} {fd g : Nat} {m : Option (BitVec 32)}
    (h : (k.put fd m).interest g ≠ none) : k.interest g ≠ none ∨ g = fd := by
  by_cases hg : g = fd
  · exact .inr hg
  · rw [Epoll.put_other _ _ hg] at h
    exact .inl h

theorem registerEvent_spreads {fd : Nat} {type : BitVec 32} {x : Option α} {b r : Bool}
    (h : w.registerEvent fd type x b = .ok (r, w')) :
    Spreads w w' ∧ w'.timerManager = w.timerManager := by
  unfold registerEvent Epoll.epollMod Epoll.epollAdd at h
  split at h
  · cases h
    exact ⟨.of_eq rfl rfl rfl, rfl⟩
  · have hgrow : w.fdEvents.length ≤ (growFor FdEvents.fresh w.fdEvents fd).length :=
      length_growFor.1
    dsimp only at h
    split at h
    · cases h
      exact ⟨⟨rfl, hgrow, fun g hg => .inl hg⟩, rfl⟩
    · obtain ⟨f, hf, h⟩ := ok_of_bind h
      have hlt := (List.getElem?_eq_some_iff.1 (index_ok.1 hf)).1
      have hput : ∀ (m : BitVec 32) (v : FdEvents α),
          Spreads w { w with
            fdEvents := (growFor .fresh w.fdEvents fd).set fd v,
            epoll := w.epoll.put fd (some m) } :=
        fun m v => ⟨rfl, by simpa using hgrow, fun g hg => (put_interest hg).imp id fun hg => by
          subst hg; simpa using hlt⟩
      split at h <;> cases hi : w.epoll.interest fd with
      | none =>
        rw [hi] at h
        cases h <;> exact ⟨hput _ _, rfl⟩
      | some m =>
        rw [hi] at h
        cases h <;> exact ⟨hput _ _, rfl⟩

theorem removeEvent_spreads {fd : Nat} {events : BitVec 32}
    (h : w.removeEvent fd events = .ok w') :
    Spreads w w' ∧ w'.timerManager = w.timerManager := by
  unfold removeEvent Epoll.epollMod Epoll.epollDel at h
  split at h
  · cases h
    exact ⟨.of_eq rfl rfl rfl, rfl⟩
  · rename_i f hf
    have hlt := (List.getElem?_eq_some_iff.1 hf).1
    have hput : ∀ (m : Option (BitVec 32)) (v : FdEvents α),
        Spreads w { w with fdEvents := w.fdEvents.set fd v, epoll := w.epoll.put fd m } :=
      fun m v => ⟨rfl, by simp, fun g hg => (put_interest hg).imp id fun hg => by
        subst hg; simpa using hlt⟩
    split at h
    · cases h
      exact ⟨.of_eq rfl rfl rfl, rfl⟩
    · dsimp only at h
      split at h <;> cases hi : w.epoll.interest fd with
      | none => rw [hi] at h; cases h
      | some m =>
        rw [hi] at h
        cases h
        exact ⟨hput _ _, rfl⟩

theorem coClose_spreads {fd : Nat} (h : w.coClose fd = .ok w') :
    Spreads w w' ∧ w'.timerManager = w.timerManager := by
  have hclose : ∀ (u : World α κ) (fds : FdManager),
      Spreads u { u with fds, epoll := u.epoll.close fd } := by
    refine fun u fds => ⟨rfl, Nat.le_refl _, fun g hg => ?_⟩
    by_cases hgf : g = fd
    · subst hgf
      simp [Epoll.close] at hg
    · exact .inl (by simpa [Epoll.close, hgf] using hg)
  obtain ⟨u, fds, hu, rfl⟩ := coClose_ok h
  rcases hu with rfl | hu
  · exact ⟨hclose u fds, rfl⟩
  · obtain ⟨hs, ht⟩ := removeEvent_spreads hu
    exact ⟨hs.trans (hclose u fds), ht⟩

theorem handleEvent_spreads (h : w.handleEvent first ev = .ok w') : Spreads w w' := by
  have ht := handleEvent_touches h
  refine ⟨ht.pipe, ht.length.ge, fun g hg => ?_⟩
  by_cases hgf : g = ev.fd
  · subst hgf
    unfold handleEvent at h
    split at h
    · cases h
      exact .inl hg
    · obtain ⟨f, hf, -⟩ := ok_of_bind h
      exact .inr (ht.length ▸ (List.getElem?_eq_some_iff.1 (index_ok.1 hf)).1)
  · rw [ht.interest g hgf] at hg
    exact .inl hg

theorem handleEvents_spreads (h : w.handleEvents first batch = .ok w') :
    Spreads w w' ∧ w'.timerManager = w.timerManager := by
  induction batch generalizing w with
  | nil => cases h; exact ⟨.of_eq rfl rfl rfl, rfl⟩
  | cons ev batch ih =>
    obtain ⟨u, hu, h⟩ := ok_of_bind h
    obtain ⟨hs, ht⟩ := ih h
    exact ⟨(handleEvent_spreads hu).trans hs, ht.trans (handleEvent_touches hu).timers⟩

/-- A call that stops the process changes nothing but the fault. -/
theorem Covered.after {r : Except Fault (World α κ)} (h : w.Covered)
    (hr : ∀ w', r = .ok w' → w'.Covered) : (w.after r).Covered := by
  cases r with
  | ok w' => exact hr w' rfl
  | error e => exact h.spreads (.of_eq rfl rfl rfl) h.timers

theorem step_covered {op : Op α κ} (h : w.Covered) (hs : step mk w op = some w') : w'.Covered := by
  cases step_effect hs with
  | registerEvent =>
    apply h.after
    intro u hu
    obtain ⟨⟨r, u⟩, hr, rfl⟩ := ok_of_map hu
    obtain ⟨hsp, ht⟩ := registerEvent_spreads hr
    exact h.spreads hsp (by rw [ht]; exact h.timers)
  | removeEvent =>
    apply h.after
    intro u hu
    obtain ⟨hsp, ht⟩ := removeEvent_spreads hu
    exact h.spreads hsp (by rw [ht]; exact h.timers)
  | coClose =>
    apply h.after
    intro u hu
    obtain ⟨hsp, ht⟩ := coClose_spreads hu
    exact h.spreads hsp (by rw [ht]; exact h.timers)
  | coSocket =>
    apply h.after
    intro u hu
    obtain ⟨fds, rfl⟩ := coSocket_ok hu
    exact h.spreads (.of_eq rfl rfl rfl) h.timers
  | addExecutor => exact h.spreads (.of_eq rfl rfl rfl) h.timers
  | registerTimer =>
    apply h.after
    intro u hu
    obtain ⟨⟨r, u⟩, hr, rfl⟩ := ok_of_map hu
    unfold registerTimer at hr
    split at hr
    · cases hr
      exact h.spreads (.of_eq rfl rfl rfl) h.timers
    · obtain ⟨tm, htm, hr⟩ := ok_of_bind hr
      cases hr
      unfold TimerManager.addTimer at htm
      split at htm
      · cases htm
        refine h.spreads (.of_eq rfl rfl rfl) fun t ht => ?_
        rcases Multi.mem_insert.1 ht with rfl | ht
        · rfl
        · exact h.timers t ht
      · cases htm
  | stop => exact h.spreads (.of_eq rfl rfl rfl) h.timers
  | takeReady => exact h.spreads (.of_eq rfl rfl rfl) h.timers
  | @blockPending clock batch hb hst =>
    apply h.after
    intro u hu
    have hexp : (w.expired mk clock).Covered :=
      h.spreads (.of_eq rfl rfl rfl) (expired_timers h.timers)
    rw [blockPending_eq h.timers hst] at hu
    cases batch with
    | nil => cases hu; exact hexp
    | cons first batch =>
      obtain ⟨hsp, ht⟩ := handleEvents_spreads hu
      exact hexp.spreads hsp (by rw [ht]; exact hexp.timers)

theorem reach_covered {pipe : Nat} {ops : List (Op α κ)}
    (hr : run (step mk) (init pipe) ops = some w) : w.Covered := by
  refine run_inv (fun _ _ _ h hs => step_covered h hs) ⟨fun fd hp hi => ?_, fun t ht => ?_⟩ hr
  · simp [init, show fd ≠ pipe from hp] at hi
  · cases ht

end

/-! ## Batches -/

section
variable {mk : κ → α} {w w' : World α κ} {clock later : Nat → Nat} {batch : List EpollEvent}
  {first : EpollEvent}

/-- The part of a call that queues the expired timers. -/
def expiredT (mk : κ → α) (w : World α κ) (clock : Nat → Nat) :
    Traced (IoEffect α) Fault (World α κ) :=
  { w with timerManager := (w.timerManager.takeExpiredTimers clock).2 }.runTimersT mk
    (w.timerManager.takeExpiredTimers clock).1

theorem expiredT_frame (h : (w.expiredT mk clock).result = .ok w') :
    w'.fdEvents = w.fdEvents ∧ w'.epoll = w.epoll ∧ w'.wakeupPipeFd = w.wakeupPipeFd ∧
      w'.timerManager = (w.timerManager.takeExpiredTimers clock).2 ∧
      w'.scheduler.stopping = w.scheduler.stopping :=
  runTimers_frame (runTimersT_result _ ▸ h)

theorem blockPendingT_cons : w.blockPendingT mk clock (first :: batch) =
    w.expiredT mk clock >>= fun w => w.handleEventsT first.fd (first :: batch) := rfl

theorem oneByOneT_eq
    (hl : ∀ t ∈ (w.timerManager.takeExpiredTimers clock).2.timers, later 0 < t.targetTimestamp) :
    w.oneByOneT mk clock later batch = w.expiredT mk clock >>= fun w => w.eachT batch := by
  have hnil : w.blockPendingT mk clock [] = w.expiredT mk clock := Traced.bind_pure _
  unfold oneByOneT
  rw [hnil]
  refine Traced.bind_congr fun w' hw' => eachPendingT_eq ?_
  rw [(expiredT_frame hw').2.2.2.1]
  exact hl

/-- A batch in which the look-ups of the later events do not matter is handled event by event. -/
theorem blockPendingT_alone (h : w.Alone batch) :
    w.blockPendingT mk clock batch = w.expiredT mk clock >>= fun w => w.eachT batch := by
  cases batch with
  | nil => rfl
  | cons first rest =>
    rw [blockPendingT_cons]
    refine Traced.bind_congr fun u hu => Traced.bind_congr fun v hv => ?_
    obtain ⟨hf, -, hp, -, -⟩ := expiredT_frame hu
    rcases h with h | h
    · rw [handleEventT_result] at hv
      refine handleEventsT_eq_each (fun ev he hlk => h ev he ⟨?_, hlk.2⟩) _
      rw [← hp, ← (handleEvent_touches hv).pipe]
      exact hlk.1
    · have hc : u.Crashes first := by
        unfold Crashes entry at h ⊢
        rw [hf, hp]
        exact h
      obtain ⟨e, he⟩ := handleEventT_crashes hc
      rw [hv] at he
      cases he

/-- A reachable state finds the events of a batch in its table. -/
theorem met_expired {pipe : Nat} {ops : List (Op α κ)}
    (hr : run (step mk) (init pipe) ops = some w) (hb : w.epoll.Reports batch)
    (hs : w.scheduler.stopping = false) (h : (w.expiredT mk clock).result = .ok w') :
    w'.Met batch := by
  obtain ⟨hf, hk, hp, -, hst⟩ := expiredT_frame h
  refine ⟨fun ev he hne => ?_, hb.2.1, hst.trans hs⟩
  obtain ⟨m, hm, -⟩ := hb.interest he
  rw [hp] at hne
  rw [hf, hk]
  have hlt := (reach_covered hr).known ev.fd hne (by simp [hm])
  exact ⟨⟨_, List.getElem?_eq_getElem hlt⟩, m, hm⟩

theorem expiredT_returns {pipe : Nat} {ops : List (Op α κ)}
    (hr : run (step mk) (init pipe) ops = some w) (hs : w.scheduler.stopping = false) :
    ∃ w', (w.expiredT mk clock).result = .ok w' := by
  have hcb : ∀ t ∈ (w.timerManager.takeExpiredTimers clock).1, t.callback.isSome :=
    fun t ht => (reach_covered hr).timers t (TimerManager.mem_takeExpired_pending ht)
  unfold expiredT
  rw [runTimersT_result, runTimers_eq mk hcb (by exact hs)]
  exact ⟨_, rfl⟩

/-- Unless the first event crashes, it is handled, and the later events meet what they need. -/
theorem Met.handle_first (h : w.Met (first :: batch)) (hc : ¬ w.Crashes first) :
    ∃ w', w.handleEvent first.fd first = .ok w' := by
  by_cases hp : first.fd = w.wakeupPipeFd
  · exact ⟨w, if_pos hp⟩
  · obtain ⟨⟨f, hf⟩, m, hm⟩ := h.entries first List.mem_cons_self hp
    exact handleEvent_own hf hm h.accepting hc hp

/-- Otherwise a later event looks at the entry of the first. -/
theorem looks_elsewhere {pipe : Nat} {ops : List (Op α κ)}
    (hr : run (step mk) (init pipe) ops = some w) (hb : w.epoll.Reports batch)
    (hs : w.scheduler.stopping = false) (h : ¬ w.Alone batch) :
    ∃ fd i, .index fd i ∈ (w.blockPendingT mk clock batch).log ∧ i ≠ fd := by
  cases batch with
  | nil => exact absurd trivial h
  | cons first rest =>
    simp only [Alone, not_or, not_forall, not_not] at h
    obtain ⟨⟨ev, he, hlk⟩, hc⟩ := h
    obtain ⟨u, hu⟩ : ∃ u, (w.expiredT mk clock).result = .ok u := expiredT_returns hr hs
    obtain ⟨hf, -, hp, -, -⟩ := expiredT_frame hu
    have hm := met_expired hr hb hs hu
    have hc' : ¬ u.Crashes first := by
      unfold Crashes entry at hc ⊢
      rw [hf, hp]
      exact hc
    obtain ⟨v, hv⟩ := hm.handle_first hc'
    have ht := handleEvent_touches hv
    have hlk' : v.Looks ev := ⟨by rw [ht.pipe, hp]; exact hlk.1, hlk.2⟩
    obtain ⟨e, he', hlog⟩ := (hm.tail ht).looks_logged ⟨ev, he, hlk'⟩ first.fd
    refine ⟨e.fd, first.fd, ?_, fun heq => ?_⟩
    · rw [blockPendingT_cons]
      exact Traced.mem_log_right hu (Traced.mem_log_right (handleEventT_result.trans hv) hlog)
    · exact (List.nodup_cons.1 hb.2.1).1 (heq ▸ List.mem_map_of_mem he')

/-- In a reachable state, a batch that `epoll_wait` may report is handled event by event exactly
when no event after the first reports a direction, the pipe's apart, or the first one crashes.
The dispatch loop blocks only while the scheduler accepts executors, and no timer falls due
between the calls for the single events: its callback would be queued among them. -/
theorem perEvent_iff {pipe : Nat} {ops : List (Op α κ)}
    (hr : run (step mk) (init pipe) ops = some w) (hb : w.epoll.Reports batch)
    (hs : w.scheduler.stopping = false)
    (hl : ∀ t ∈ (w.timerManager.takeExpiredTimers clock).2.timers, later 0 < t.targetTimestamp) :
    PerEvent mk w clock later batch ↔ w.Alone batch := by
  constructor
  · intro h
    by_contra hn
    obtain ⟨fd, i, hlog, hne⟩ : ∃ fd i,
        .index fd i ∈ (w.blockPendingT mk clock batch).log ∧ i ≠ fd :=
      looks_elsewhere hr hb hs hn
    exact hne (h.own fd i hlog)
  · intro h
    have heq : w.blockPendingT mk clock batch = _ := blockPendingT_alone h
    refine ⟨by rw [heq, oneByOneT_eq hl], by rw [heq, oneByOneT_eq hl], fun fd i hlog => ?_⟩
    rw [heq] at hlog
    rcases Traced.mem_log_bind hlog with hlog | ⟨u, -, hlog⟩
    · exact (index_runTimersT hlog).elim
    · exact index_eachT hlog

/-- Two readers: a coroutine's on descriptor 5, a persistent one on 6. -/
def twoReaders : List (Op Nat Nat) :=
  [.registerEvent 5 epollIn 50 true, .registerEvent 6 epollIn 60 false]

/-- Descriptor 5 is readable and 6 hung up. -/
theorem perEvent_hangUp : ∃ w, run (step id) (init 4) twoReaders = some w ∧
    PerEvent id w (fun _ => 0) (fun _ => 0) [⟨5, epollIn⟩, ⟨6, epollHup⟩] := by
  have hr : run (step id) (init 4) twoReaders = some _ := rfl
  refine ⟨_, hr, (perEvent_iff hr (by decide) rfl (by decide)).2 (.inl fun ev he hlk => ?_)⟩
  obtain rfl := List.mem_singleton.1 he
  obtain ⟨-, d, hd⟩ := hlk
  cases d <;> exact absurd hd (by decide)

/-- With both readable, the flag of descriptor 5 makes `blockPending` drop the interest of 6. -/
theorem not_perEvent : ∃ w, run (step id) (init 4) twoReaders = some w ∧
    w.epoll.Reports [⟨5, epollIn⟩, ⟨6, epollIn⟩] ∧ w.scheduler.stopping = false ∧
    .index 6 5 ∈ (w.blockPendingT id (fun _ => 0) [⟨5, epollIn⟩, ⟨6, epollIn⟩]).log ∧
    .epollCtl (.del 6) ∈ (w.blockPendingT id (fun _ => 0) [⟨5, epollIn⟩, ⟨6, epollIn⟩]).log ∧
    ¬ PerEvent id w (fun _ => 0) (fun _ => 0) [⟨5, epollIn⟩, ⟨6, epollIn⟩] := by
  refine ⟨_, rfl, by decide, rfl, by decide, by decide, fun h => ?_⟩
  exact absurd h.calls (by decide)

end

end World

end NetBase
