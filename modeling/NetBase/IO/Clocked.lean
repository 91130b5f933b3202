import NetBase.IO.OneWakeup

/-!
# Clock readings and wake-ups

The coroutines of `CoIo` together with the thread's base executor, and what the clock has read.
The base executor is current before `run()` and after it. Its state is not `Exec` then, so
its `yield()` returns at once; a wake-up it registered enters it from the dispatch loop, and
from then on it is suspended like any other.

For each executor `target` is the target of the timer of its latest suspension and `furthest` the
largest reading of the clock since, by the timer's constructor and by the loop; the suspension is
ripe once that has reached the target. The invariant `Punctual` follows a timer from its
registration to the queue: whatever may still end a sleep is on its way only once the sleep is
ripe, a stale entry apart.
-/

namespace NetBase

open Lib

/-- The number of the thread's own executor. -/
def baseExecutor : Nat := 0

/-- The executor that runs, and has state `Exec`, or the base executor. -/
def CoPhase.current : CoPhase → Option Nat
  | .setup => some baseExecutor
  | .running c => some c
  | .left => some baseExecutor
  | .loop => none
  | .blocked => none

/-- The action neither yields nor ends the executor. -/
def CoSys.CoAction.immediate : CoSys.CoAction → Bool
  | .ioInner .. => false
  | .coConnect _ => false
  | .sleepInner .. => false
  | .ret => false
  | _ => true

/-- `target_timestamp` of a timer of `ms` milliseconds made at the reading `curMs`. -/
def targetOf (curMs ms : Nat) : Nat := if ms > maxStamp - curMs then maxStamp else ms + curMs

structure Clocked where
  sys : CoSys
  /-- Ghost: the target of the timer of the latest suspension. -/
  target : Nat → Nat := fun _ => 0
  /-- Ghost: the largest reading of the clock since then, that of this timer's constructor included
  and those of other timers' constructors not. -/
  furthest : Nat → Nat := fun _ => 0

namespace Clocked

open CoSys

/-- A reading has reached the target. -/
def ripe (s : Clocked) (c : Nat) : Bool := decide (s.target c ≤ s.furthest c)

def init (pipe : Nat) : Clocked where
  sys := { CoSys.init pipe with co := Function.update (fun _ => {}) baseExecutor ⟨.running, 0⟩ }

/-- The executor `c` makes a timer of `ms` milliseconds, its constructor reading `curMs`. -/
def setTimer (s : Clocked) (c ms curMs : Nat) (sys : CoSys) : Clocked where
  sys := sys
  target := Function.update s.target c (targetOf curMs ms)
  furthest := Function.update s.furthest c curMs

def sleepInner (s : Clocked) (c ms curMs : Nat) : Clocked :=
  s.setTimer c ms curMs (s.sys.sleepInner c ms curMs)

/-- `sleepInner` of the base executor: `yield()` does nothing. -/
def sleepBase (s : Clocked) (ms curMs : Nat) : Clocked :=
  let n := (s.sys.co baseExecutor).suspension + 1
  s.setTimer baseExecutor ms curMs
    ((s.sys.setCo baseExecutor ⟨.running, n⟩).call
      (startTimer s.sys.world curMs ms (.wake baseExecutor n)).2)

def ioInner (s : Clocked) (c fd : Nat) (d : EventType) (ms curMs : Nat) : Clocked :=
  s.setTimer c ms curMs (s.sys.ioInner c fd d curMs ms)

/-- A round of the loop. When the loop is left, `mainYield()` switches to the base executor,
wherever that stands. -/
def dispatch (s : Clocked) (pick : Nat) : Clocked :=
  let t := s.sys.dispatch pick
  if t.phase = .left then
    { s with sys :=
      { t.resume baseExecutor (t.co baseExecutor).suspension pick with phase := .left } }
  else { s with sys := t }

def blockPending (s : Clocked) (clock : Nat → Nat) (batch : List EpollEvent) : Clocked where
  sys := { s.sys.call (s.sys.world.blockPending .run clock batch) with phase := .loop }
  target := s.target
  furthest c := max (s.furthest c) (clock 0)

inductive Input where
  | run
  | dispatch (pick : Nat)
  | blockPending (clock : Nat → Nat) (batch : List EpollEvent)
  | sleepInner (ms curMs : Nat)
  /-- The wrapped call returned `EAGAIN`; the time-out is `ms`. -/
  | ioInner (fd : Nat) (d : EventType) (ms curMs : Nat)
  | coConnect (fd : Nat)
  /-- Anything that does not yield. -/
  | act (a : CoAction)
  | ret

/-- One step. The function of the base executor is the thread's own: it does not return to the
loop. Nor does the base executor block on a socket before `run()` or after it. -/
def step (s : Clocked) (i : Input) : Option Clocked :=
  if s.sys.world.fault.isSome then none
  else match s.sys.phase, i with
    | .setup, .run => some { s with sys := { s.sys with phase := .loop } }
    | .loop, .dispatch pick => some (s.dispatch pick)
    | .blocked, .blockPending clock batch =>
      if s.sys.world.epoll.Reports batch then some (s.blockPending clock batch) else none
    | .running c, .sleepInner ms curMs => some (s.sleepInner c ms curMs)
    | .setup, .sleepInner ms curMs => some (s.sleepBase ms curMs)
    | .left, .sleepInner ms curMs => some (s.sleepBase ms curMs)
    | .running c, .ioInner fd d ms curMs =>
      if fd = s.sys.world.wakeupPipeFd then none else some (s.ioInner c fd d ms curMs)
    | .running c, .coConnect fd => (s.sys.act c (.coConnect fd)).map fun sys => { s with sys }
    | .running c, .ret =>
      if c = baseExecutor then none else (s.sys.act c .ret).map fun sys => { s with sys }
    | phase, .act a =>
      match phase.current with
      | some c => if a.immediate then (s.sys.act c a).map fun sys => { s with sys } else none
      | none => none
    | _, _ => none

end Clocked

/-! ## Calls that only move sources -/

namespace World

variable {w w' : World Entry Callback} {fd first : Nat} {d : EventType} {ev : EpollEvent}
  {batch : List EpollEvent}

/-- No slot is filled and no timer added, and what is new in the queue comes from a slot. -/
structure Draws (w w' : World Entry Callback) : Prop where
  slots : ∀ fd d, (w'.entry fd).executor d = (w.entry fd).executor d ∨
    (w'.entry fd).executor d = none
  timers : w'.timerManager.timers.Sublist w.timerManager.timers
  queue : ∀ e, some e ∈ w'.scheduler.readyExecutors → some e ∈ w.scheduler.readyExecutors ∨
    ∃ fd d, (w.entry fd).executor d = some e

theorem Loses.draws (h : w.Loses w') : w.Draws w' :=
  ⟨h.slots, h.timers, fun _ he => .inl (h.queue.subset he)⟩

theorem Draws.refl (w : World Entry Callback) : w.Draws w :=
  ⟨fun _ _ => .inl rfl, List.Sublist.refl _, fun _ he => .inl he⟩

theorem Draws.trans {u : World Entry Callback} (h : w.Draws u) (h' : u.Draws w') : w.Draws w' := by
  refine ⟨fun fd d => ?_, h'.timers.trans h.timers, fun e he => ?_⟩
  · rcases h'.slots fd d with hs | hs
    · rw [hs]
      exact h.slots fd d
    · exact .inr hs
  · rcases h'.queue e he with hq | ⟨fd, d, hs⟩
    · exact h.queue e hq
    · rcases h.slots fd d with hs' | hs'
      · exact .inr ⟨fd, d, hs' ▸ hs⟩
      · rw [hs'] at hs
        cases hs

theorem updateEvents_draws {f : FdEvents Entry} {left : BitVec 32}
    (hf : w.fdEvents[fd]? = some f) (h : w.updateEvents fd f left = .ok w') : w.Draws w' := by
  unfold updateEvents at h
  split at h
  · obtain ⟨k, rfl⟩ : ∃ k, w' = { w with
        fdEvents := w.fdEvents.set fd { f with registeredEvents := left }, epoll := k } := by
      dsimp only at h
      split at h <;> obtain ⟨k, -, h⟩ := ok_of_bind h <;> cases h <;> exact ⟨k, rfl⟩
    refine ⟨fun g d => .inl ?_, List.Sublist.refl _, fun e he => .inl he⟩
    apply (congrArg (fun x : FdEvents Entry => x.executor d) (getD_set hf g)).trans
    split
    · rename_i hg
      rw [hg, entry_eq hf]
      cases d <;> rfl
    · rfl
  · cases h
    exact .refl _

theorem enqueue_draws (h : w.enqueue ev d = .ok w') : w.Draws w' := by
  unfold enqueue at h
  split at h
  · obtain ⟨f, hf, h⟩ := ok_of_bind h
    rw [index_ok] at hf
    dsimp only at h
    split at h
    · rename_i hadd
      cases h
      refine ⟨fun g d' => ?_, List.Sublist.refl _, fun e he => ?_⟩
      · dsimp only [entry]
        split
        · refine (congrArg (fun x : FdEvents Entry => x.executor d' = _ ∨ x.executor d' = none)
            (getD_set hf g)).mpr ?_
          split
          · rename_i hg
            have hg : (w.fdEvents[g]?.getD .fresh) = f := by rw [hg, hf]; rfl
            rw [hg, FdEvents.setExecutor_executor]
            split
            · exact .inr rfl
            · exact .inl rfl
          · exact .inl rfl
        · exact .inl rfl
      · simp only [Scheduler.addExecutor] at hadd he
        split at he
        · exact .inl he
        · rcases List.mem_append.1 he with he | he
          · exact .inl he
          · exact .inr ⟨ev.fd, d, by rw [entry_eq hf]; exact (List.mem_singleton.1 he).symm⟩
    · cases h
  · cases h
    exact .refl _

theorem handleEvent_draws (h : w.handleEvent first ev = .ok w') : w.Draws w' := by
  unfold handleEvent at h
  split at h
  · cases h
    exact .refl _
  · obtain ⟨f, hf, h⟩ := ok_of_bind h
    obtain ⟨l₁, -, h⟩ := ok_of_bind h
    obtain ⟨l₂, -, h⟩ := ok_of_bind h
    obtain ⟨w₁, h₁, h⟩ := ok_of_bind h
    obtain ⟨w₂, h₂, h₃⟩ := ok_of_bind h
    exact ((updateEvents_draws (index_ok.1 hf) h₁).trans (enqueue_draws h₂)).trans
      (enqueue_draws h₃)

theorem handleEvents_draws (h : w.handleEvents first batch = .ok w') : w.Draws w' := by
  induction batch generalizing w with
  | nil => cases h; exact .refl _
  | cons ev batch ih =>
    obtain ⟨u, hu, h⟩ := ok_of_bind h
    exact (handleEvent_draws hu).trans (ih h)

end World

/-! ## The invariant -/

/-- The coroutine is in its suspension `n`. -/
def Coroutine.In (x : Coroutine) (n : Nat) : Prop :=
  x.suspension = n ∧ ∃ wait, x.state = .waiting wait

/-- The suspension an entry was issued for. -/
def Entry.issued : Entry → Nat
  | .co _ n => n
  | .run k => k.issued

/-- An entry that ends a sleep, or was made of a timer of the suspension its coroutine is in,
is there because the clock has reached the target. -/
def Entry.Due (co : Nat → Coroutine) (ripe : Nat → Bool) : Entry → Prop
  | .co c n => co c = ⟨.waiting .sleep, n⟩ → ripe c = true
  | .run k => (co k.coroutine).In k.issued → ripe k.coroutine = true

namespace World

structure Punctual (w : World Entry Callback) (co : Nat → Coroutine) (target : Nat → Nat)
    (ripe : Nat → Bool) : Prop where
  ordered : w.timerManager.Ordered
  timers : ∀ t ∈ w.timerManager.timers, t.repeats = false ∧ ∃ k, t.callback = some k ∧
    k.issued ≤ (co k.coroutine).suspension ∧
    ((co k.coroutine).In k.issued → target k.coroutine ≤ t.targetTimestamp)
  slots : ∀ fd d e, (w.entry fd).executor d = some e → ∃ c n, e = .co c n ∧
    n ≤ (co c).suspension ∧ co c ≠ ⟨.waiting .sleep, n⟩
  queue : ∀ e, some e ∈ w.scheduler.readyExecutors →
    e.issued ≤ (co e.target).suspension ∧ e.Due co ripe
  flags : ∀ c fd d timer n, co c = ⟨.waiting (.io fd d timer true), n⟩ → ripe c = true
  unborn : ∀ c, (co c).state = .unborn → (co c).suspension = 0

variable {w w' : World Entry Callback} {co : Nat → Coroutine} {target : Nat → Nat}
  {ripe : Nat → Bool} {c fd : Nat} {d : EventType}

theorem Punctual.draws (h : w.Punctual co target ripe) (hd : w.Draws w') :
    w'.Punctual co target ripe where
  ordered := h.ordered.sublist hd.timers
  timers t ht := h.timers t (hd.timers.subset ht)
  slots fd d e he := by
    rcases hd.slots fd d with hs | hs
    · exact h.slots fd d e (hs ▸ he)
    · rw [hs] at he
      cases he
  queue e he := by
    rcases hd.queue e he with hq | ⟨fd, d, hs⟩
    · exact h.queue e hq
    · obtain ⟨c, n, rfl, hn, hne⟩ := h.slots fd d e hs
      exact ⟨hn, fun hc => absurd hc hne⟩
  flags := h.flags
  unborn := h.unborn

/-- Once ripe, ripe until the next suspension. -/
theorem Punctual.mono {ripe' : Nat → Bool} (h : w.Punctual co target ripe)
    (hr : ∀ c, ripe c = true → ripe' c = true) : w.Punctual co target ripe' where
  ordered := h.ordered
  timers := h.timers
  slots := h.slots
  queue e he := by
    obtain ⟨hi, hdue⟩ := h.queue e he
    refine ⟨hi, ?_⟩
    cases e with
    | co c n => exact fun hc => hr c (hdue hc)
    | run k => exact fun hc => hr _ (hdue hc)
  flags c fd d timer n hc := hr c (h.flags c fd d timer n hc)
  unborn := h.unborn

/-- A coroutine leaves its suspension, or goes into its next one: what was issued for it so far
is no longer about it. -/
theorem Punctual.next {x : Coroutine} {target' : Nat → Nat} {ripe' : Nat → Bool}
    (h : w.Punctual co target ripe) (hx : (co c).suspension ≤ x.suspension)
    (hw : ∀ wait, x.state = .waiting wait → (co c).suspension < x.suspension)
    (hf : ∀ fd d timer, x.state ≠ .waiting (.io fd d timer true))
    (hu : x.state = .unborn → x.suspension = 0)
    (ht : ∀ b, b ≠ c → target' b = target b) (hr : ∀ b, b ≠ c → ripe' b = ripe b) :
    w.Punctual (Function.update co c x) target' ripe' := by
  -- nothing issued by now is for the suspension `x` is in, if any
  have hkeep : ∀ b n, n ≤ (co b).suspension → (Function.update co c x b).In n →
      b ≠ c ∧ Function.update co c x b = co b := by
    intro b n hn hin
    by_cases hb : b = c
    · subst hb
      rw [Function.update_self] at hin
      obtain ⟨hs, wait, hwait⟩ := hin
      have := hw wait hwait
      omega
    · exact ⟨hb, Function.update_of_ne hb ..⟩
  have hle : ∀ b, (co b).suspension ≤ (Function.update co c x b).suspension := by
    intro b
    by_cases hb : b = c
    · subst hb
      rw [Function.update_self]
      exact hx
    · rw [Function.update_of_ne hb]
  refine ⟨h.ordered, fun t htm => ?_, fun fd d e he => ?_, fun e he => ?_,
    fun b fd d timer n hb => ?_, fun b hb => ?_⟩
  · obtain ⟨hrep, k, hk, hi, hin⟩ := h.timers t htm
    refine ⟨hrep, k, hk, hi.trans (hle _), fun hk' => ?_⟩
    obtain ⟨hb, heq⟩ := hkeep _ _ hi hk'
    rw [heq] at hk'
    rw [ht _ hb]
    exact hin hk'
  · obtain ⟨b, n, rfl, hn, hne⟩ := h.slots fd d e he
    refine ⟨b, n, rfl, hn.trans (hle b), fun hb' => ?_⟩
    obtain ⟨-, heq⟩ := hkeep b n hn ⟨by rw [hb'], .sleep, by rw [hb']⟩
    exact hne (heq.symm.trans hb')
  · obtain ⟨hi, hdue⟩ := h.queue e he
    refine ⟨hi.trans (hle _), ?_⟩
    cases e with
    | co b n =>
      intro hb'
      obtain ⟨hb, heq⟩ := hkeep b n hi ⟨by rw [hb'], .sleep, by rw [hb']⟩
      rw [hr b hb]
      exact hdue (heq.symm.trans hb')
    | run k =>
      intro hb'
      obtain ⟨hb, heq⟩ := hkeep k.coroutine k.issued hi hb'
      rw [heq] at hb'
      rw [hr _ hb]
      exact hdue hb'
  · by_cases hbc : b = c
    · subst hbc
      rw [Function.update_self] at hb
      exact absurd (by rw [hb]) (hf fd d timer)
    · rw [Function.update_of_ne hbc] at hb
      rw [hr b hbc]
      exact h.flags b fd d timer n hb
  · by_cases hbc : b = c
    · subst hbc
      rw [Function.update_self] at hb ⊢
      exact hu hb
    · rw [Function.update_of_ne hbc] at hb ⊢
      exact h.unborn b hb

theorem Punctual.push {e : Entry} (h : w.Punctual co target ripe)
    (hi : e.issued ≤ (co e.target).suspension) (hdue : e.Due co ripe) :
    (w.addExecutor (some e)).Punctual co target ripe := by
  refine ⟨h.ordered, h.timers, h.slots, fun x hx => ?_, h.flags, h.unborn⟩
  simp only [addExecutor, Scheduler.addExecutor] at hx
  split at hx
  · exact h.queue x hx
  · rcases List.mem_append.1 hx with hx | hx
    · exact h.queue x hx
    · cases List.mem_singleton.1 hx
      exact ⟨hi, hdue⟩

theorem Punctual.startTimer {curMs ms : Nat} {k : Callback} (h : w.Punctual co target ripe)
    (hi : k.issued ≤ (co k.coroutine).suspension)
    (ht : target k.coroutine ≤ targetOf curMs ms)
    (hr : (CoSys.startTimer w curMs ms k).2 = .ok w') : w'.Punctual co target ripe := by
  simp only [CoSys.startTimer, registerTimer, TimerManager.newTimer] at hr
  split at hr
  · cases hr
    exact ⟨h.ordered, h.timers, h.slots, h.queue, h.flags, h.unborn⟩
  · cases hr
    refine ⟨h.ordered.insert _, fun u hu => ?_, h.slots, h.queue, h.flags, h.unborn⟩
    rcases Multi.mem_insert.1 hu with rfl | hu
    · exact ⟨rfl, k, rfl, hi, fun _ => ht⟩
    · exact h.timers u hu

theorem Punctual.registerEvent {r : Bool} {n : Nat} (h : w.Punctual co target ripe)
    (hn : n ≤ (co c).suspension) (hs : co c ≠ ⟨.waiting .sleep, n⟩)
    (hr : w.registerEvent fd d.mask (some (.co c n)) true = .ok (r, w')) :
    w'.Punctual co target ripe := by
  rcases registerEvent_ok hr with rfl | ⟨hfit, k, rfl⟩
  · exact h
  refine ⟨h.ordered, h.timers, fun g d' e he => ?_, h.queue, h.flags, h.unborn⟩
  replace he : ((w.registered fd d (some (.co c n)) true).entry g).executor d' = some e := he
  rw [registered_executor hfit] at he
  split at he
  · cases he
    exact ⟨c, n, rfl, hn, hs⟩
  · exact h.slots g d' e he

/-- The time-out of a wait sets its flag. -/
theorem Punctual.flag {n : Nat} {timer : Timer Callback} (h : w.Punctual co target ripe)
    (hc : co c = ⟨.waiting (.io fd d timer false), n⟩) (hr : ripe c = true) :
    w.Punctual (Function.update co c ⟨.waiting (.io fd d timer true), n⟩) target ripe := by
  set x : Coroutine := ⟨.waiting (.io fd d timer true), n⟩
  have hsusp : ∀ b, (Function.update co c x b).suspension = (co b).suspension := by
    intro b
    by_cases hb : b = c
    · rw [hb, Function.update_self, hc]
    · rw [Function.update_of_ne hb]
  have hin : ∀ b m, (Function.update co c x b).In m → (co b).In m := by
    rintro b m ⟨hm, wait, hwait⟩
    by_cases hb : b = c
    · rw [hb, Function.update_self] at hm
      rw [hb, hc]
      exact ⟨hm, _, rfl⟩
    · rw [Function.update_of_ne hb] at hm hwait
      exact ⟨hm, wait, hwait⟩
  have hsleep : ∀ b m, Function.update co c x b = ⟨.waiting .sleep, m⟩ →
      co b = ⟨.waiting .sleep, m⟩ := by
    intro b m hb'
    by_cases hb : b = c
    · rw [hb, Function.update_self] at hb'
      exact absurd (congrArg Coroutine.state hb') (by simp [x])
    · rwa [Function.update_of_ne hb] at hb'
  refine ⟨h.ordered, fun t ht => ?_, fun g d' e he => ?_, fun e he => ?_,
    fun b fd' d' timer' m hb' => ?_, fun b hb' => ?_⟩
  · obtain ⟨hrep, k, hk, hi, hdue⟩ := h.timers t ht
    exact ⟨hrep, k, hk, (hsusp _).symm ▸ hi, fun hk' => hdue (hin _ _ hk')⟩
  · obtain ⟨b, m, rfl, hm, hne⟩ := h.slots g d' e he
    exact ⟨b, m, rfl, (hsusp b).symm ▸ hm, fun hb => hne (hsleep b m hb)⟩
  · obtain ⟨hi, hdue⟩ := h.queue e he
    refine ⟨(hsusp _).symm ▸ hi, ?_⟩
    cases e with
    | co b m => exact fun hb => hdue (hsleep b m hb)
    | run k => exact fun hk => hdue (hin _ _ hk)
  · by_cases hb : b = c
    · rw [hb]
      exact hr
    · rw [Function.update_of_ne hb] at hb'
      exact h.flags b fd' d' timer' m hb'
  · rw [hsusp]
    by_cases hb : b = c
    · rw [hb, Function.update_self] at hb'
      cases hb'
    · rw [Function.update_of_ne hb] at hb'
      exact h.unborn b hb'

/-! ## `blockPending` -/

/-- The callbacks of expired timers are queued after the reading that found them expired. -/
theorem Punctual.runTimers {ts : List (Timer Callback)} (h : w.Punctual co target ripe)
    (ht : ∀ t ∈ ts, ∃ k, t.callback = some k ∧ k.issued ≤ (co k.coroutine).suspension ∧
      ((co k.coroutine).In k.issued → ripe k.coroutine = true))
    (hr : w.runTimers .run ts = .ok w') : w'.Punctual co target ripe := by
  induction ts generalizing w with
  | nil => cases hr; exact h
  | cons t ts ih =>
    obtain ⟨k, hk, hi, hdue⟩ := ht t List.mem_cons_self
    simp only [World.runTimers, hk] at hr
    exact ih (h.push (e := .run k) hi hdue) (fun u hu => ht u (List.mem_cons_of_mem _ hu)) hr

theorem Punctual.blockPending {clock : Nat → Nat} {batch : List EpollEvent}
    (h : w.Punctual co target ripe) (hr : w.blockPending .run clock batch = .ok w') :
    w'.Punctual co target fun c => ripe c || decide (target c ≤ clock 0) := by
  unfold World.blockPending at hr
  obtain ⟨u, hu, hr⟩ := ok_of_bind hr
  have hripe : w.Punctual co target fun c => ripe c || decide (target c ≤ clock 0) :=
    h.mono fun c hc => by simp [hc]
  have hrest : (w.timerManager.takeExpiredTimers clock).2.timers.Sublist
      w.timerManager.timers := by
    have honce : ∀ t ∈ w.timerManager.timers.take (TimerManager.expiredEnd (clock 0)
        w.timerManager.timers), t.repeats = false :=
      fun t ht => (h.timers t (List.mem_of_mem_take ht)).1
    simp only [TimerManager.takeExpiredTimers, TimerManager.addRepeats_of_once honce]
    exact List.drop_sublist _ _
  have hleft : w.Loses { w with timerManager := (w.timerManager.takeExpiredTimers clock).2 } :=
    .of_table rfl hrest (List.Sublist.refl _)
  have hexp := (hripe.draws hleft.draws).runTimers (fun t ht => ?_) hu
  · cases batch with
    | nil => cases hr; exact hexp
    | cons first batch => exact hexp.draws (handleEvents_draws hr)
  · obtain ⟨hm, hdue⟩ := (TimerManager.mem_takeExpired h.ordered).1 ht
    obtain ⟨-, k, hk, hi, hin⟩ := h.timers t hm
    refine ⟨k, hk, hi, fun hk' => ?_⟩
    simp [(hin hk').trans hdue]

end World

/-! ## Steps -/

namespace CoSys

variable {s t : CoSys} {target target' : Nat → Nat} {ripe ripe' : Nat → Bool} {c : Nat}

/-- Unless the process has been stopped. -/
def Punctual (s : CoSys) (target : Nat → Nat) (ripe : Nat → Bool) : Prop :=
  s.world.fault = none → s.world.Punctual s.co target ripe

theorem punctual_fail (s : CoSys) (e : Fault) : (s.fail e).Punctual target ripe :=
  fun h => by cases h

theorem punctual_call {r : Except Fault (World Entry Callback)}
    (h : ∀ w, r = .ok w → w.Punctual s.co target ripe) : (s.call r).Punctual target ripe := by
  cases r with
  | error e => exact punctual_fail s e
  | ok w => exact fun _ => h w rfl

variable (h : s.world.Punctual s.co target ripe)
include h

theorem punctual_suspend {wait : Wait} {r : Except Fault (World Entry Callback)}
    (hwait : ∀ fd d timer, wait ≠ .io fd d timer true)
    (ht : ∀ b, b ≠ c → target' b = target b) (hp : ∀ b, b ≠ c → ripe' b = ripe b)
    (hr : ∀ w, s.world.Punctual (Function.update s.co c ⟨.waiting wait, (s.co c).suspension + 1⟩)
      target' ripe' → r = .ok w →
      w.Punctual (Function.update s.co c ⟨.waiting wait, (s.co c).suspension + 1⟩) target' ripe') :
    (s.suspend c wait r).Punctual target' ripe' := by
  cases r with
  | error e => exact punctual_fail s e
  | ok w =>
    refine fun _ => hr w (h.next (Nat.le_succ _) (fun _ _ => Nat.lt_succ_self _) ?_
      (fun hu => by cases hu) ht hp) rfl
    intro fd d timer heq
    exact hwait fd d timer (CoState.waiting.inj heq)

theorem punctual_sleepInner {ms curMs : Nat} (ht : ∀ b, b ≠ c → target' b = target b)
    (hp : ∀ b, b ≠ c → ripe' b = ripe b) (hc : target' c = targetOf curMs ms) :
    (s.sleepInner c ms curMs).Punctual target' ripe' := by
  apply punctual_suspend h (fun _ _ _ heq => by cases heq) ht hp
  intro w hw hr
  refine World.Punctual.startTimer hw ?_ ?_ hr
  · simp [Callback.issued, Callback.coroutine]
  · exact hc.le

theorem punctual_ioInner {fd ms curMs : Nat} {d : EventType}
    (ht : ∀ b, b ≠ c → target' b = target b) (hp : ∀ b, b ≠ c → ripe' b = ripe b)
    (hc : target' c = targetOf curMs ms) : (s.ioInner c fd d curMs ms).Punctual target' ripe' := by
  apply punctual_suspend h (fun _ _ _ heq => by cases heq) ht hp
  intro w hw hr
  obtain ⟨u, hst, hre⟩ := ok_of_bind hr
  obtain ⟨⟨r, w'⟩, hreg, rfl⟩ := ok_of_map hre
  have hu := World.Punctual.startTimer (k := .timeout c _ fd d) hw
    (by simp [Callback.issued, Callback.coroutine]) hc.le hst
  exact hu.registerEvent (c := c) (by simp) (by simp) hreg

theorem punctual_coConnect (c fd : Nat) : (s.coConnect c fd).Punctual target ripe := by
  refine punctual_suspend h (fun _ _ _ heq => by cases heq) (fun _ _ => rfl) (fun _ _ => rfl)
    fun w hw hr => ?_
  obtain ⟨⟨r, w'⟩, hreg, rfl⟩ := ok_of_map hr
  exact hw.registerEvent (c := c) (d := .write) (by simp) (by simp) hreg

theorem punctual_spawn (hu : (s.co c).state = .unborn) : (s.spawn c).Punctual target ripe := by
  have hnext : s.world.Punctual (Function.update s.co c ⟨.start, 0⟩) target ripe :=
    h.next (h.unborn c hu).le (fun _ hw => by cases hw) (fun _ _ _ heq => by cases heq)
      (fun heq => by cases heq) (fun _ _ => rfl) (fun _ _ => rfl)
  refine fun _ => hnext.push (e := .co c 0) (Nat.zero_le _) fun heq => ?_
  rw [Function.update_self] at heq
  cases heq

theorem punctual_act {a : CoAction} (ha : ActEffect s c a t)
    (hi : a.immediate = true ∨ (∃ fd, a = .coConnect fd) ∨ a = .ret) : t.Punctual target ripe := by
  cases ha with
  | ioInner => simp [CoAction.immediate] at hi
  | sleepInner => simp [CoAction.immediate] at hi
  | coConnect fd => exact punctual_coConnect h c fd
  | spawn hu => exact punctual_spawn h hu
  | coSocket => exact punctual_call fun w hw => h.draws (World.coSocket_loses hw).draws
  | coClose => exact punctual_call fun w hw => h.draws (World.coClose_loses hw).draws
  | removeEvent => exact punctual_call fun w hw => h.draws (World.removeEvent_loses hw).draws
  | setTimeout => exact fun _ => ⟨h.ordered, h.timers, h.slots, h.queue, h.flags, h.unborn⟩
  | stop =>
    refine fun _ => ⟨h.ordered, h.timers, h.slots, fun e he => h.queue e ?_, h.flags, h.unborn⟩
    simp only [World.stop, Scheduler.stop] at he
    split at he <;> exact he
  | ret =>
    exact fun _ => h.next (Nat.le_refl _) (fun _ hw => by cases hw) (fun _ _ _ heq => by cases heq)
      (fun heq => by cases heq) (fun _ _ => rfl) (fun _ _ => rfl)

theorem punctual_runCallback {k : Callback} (hi : k.issued ≤ (s.co k.coroutine).suspension)
    (hdue : (s.co k.coroutine).In k.issued → ripe k.coroutine = true) :
    (s.runCallback k).Punctual target ripe := by
  cases k with
  | wake c n =>
    refine fun _ => h.push (e := .co c n) hi fun hc => hdue ?_
    exact ⟨congrArg Coroutine.suspension hc, _, congrArg Coroutine.state hc⟩
  | timeout c n fd d =>
    have hpush : ∀ {w : World Entry Callback}, w.Punctual s.co target ripe →
        (w.addExecutor (some (.co c n))).Punctual s.co target ripe := fun hw =>
      hw.push (e := .co c n) hi fun hc =>
        hdue ⟨congrArg Coroutine.suspension hc, _, congrArg Coroutine.state hc⟩
    unfold runCallback
    dsimp only
    split
    · rename_i fd' d' timer m hc
      split
      · rename_i hm
        subst hm
        have hripe : ripe c = true := hdue (by rw [Callback.coroutine, hc]; exact ⟨rfl, _, rfl⟩)
        split
        · rename_i w hw
          have hset := (h.draws (World.removeEvent_loses hw).draws).flag hc hripe
          refine fun _ => hset.push (e := .co c m) ?_ fun heq => ?_
          · exact (by rw [Entry.target, Function.update_self]; exact Nat.le_refl _)
          · rw [Function.update_self] at heq
            cases heq
        · exact punctual_fail _ _
      · exact fun _ => hpush h
    · exact fun _ => hpush h

theorem punctual_resume (c n pick : Nat) : (s.resume c n pick).Punctual target ripe := by
  have hnext : s.world.Punctual (Function.update s.co c { s.co c with state := .running })
      target ripe :=
    h.next (Nat.le_refl _) (fun _ hw => by cases hw) (fun _ _ _ heq => by cases heq)
      (fun heq => by cases heq) (fun _ _ => rfl) (fun _ _ => rfl)
  unfold resume
  dsimp only
  split
  · exact punctual_call fun w hw => hnext.draws (World.cancelTimer_loses hw).draws
  · exact fun _ => hnext

omit h in
/-- Where the thread is after a round of the loop. -/
theorem dispatch_phase {pick : Nat} (hp : s.phase = .loop) : (s.dispatch pick).phase =
    match s.world.scheduler.takeReady.1 with
    | some (.co c _) => if (s.co c).state = .done then .loop else .running c
    | some (.run _) => .loop
    | none => if s.world.scheduler.takeReady.2.stopping then .left else .blocked := by
  unfold dispatch
  cases s.world.scheduler.takeReady.1 with
  | none => rfl
  | some e =>
    cases e with
    | run k => exact (runCallback_phase _ k).trans hp
    | co c n =>
      dsimp only
      split
      · exact hp
      · exact resume_phase _ _ _ _

omit h in
/-- The loop is left without having run anything. -/
theorem dispatch_left {pick : Nat} (hp : s.phase = .loop) (hl : (s.dispatch pick).phase = .left) :
    s.dispatch pick = { s with
      world := { s.world with scheduler := s.world.scheduler.takeReady.2 }, phase := .left } := by
  have hphase := (dispatch_phase hp).symm.trans hl
  unfold dispatch
  dsimp only
  split
  · rename_i hx
    simp only [hx] at hphase
    rw [hphase]
  · rename_i hx
    simp only [hx] at hphase
    cases hphase
  · rename_i hx
    simp only [hx] at hphase
    split at hphase <;> cases hphase

theorem punctual_dispatch (pick : Nat) : (s.dispatch pick).Punctual target ripe := by
  cases hq : s.world.scheduler.readyExecutors with
  | nil =>
    simp only [dispatch, Scheduler.takeReady, hq]
    exact fun _ => h
  | cons x q =>
    have hpop : ({ s.world with scheduler := { s.world.scheduler with readyExecutors := q } } :
        World Entry Callback).Punctual s.co target ripe :=
      ⟨h.ordered, h.timers, h.slots, fun e he => h.queue e (hq ▸ List.mem_cons_of_mem _ he),
        h.flags, h.unborn⟩
    simp only [dispatch, Scheduler.takeReady, hq]
    cases x with
    | none => exact fun _ => hpop
    | some e =>
      obtain ⟨hi, hdue⟩ := h.queue e (hq ▸ List.mem_cons_self)
      cases e with
      | run k => exact punctual_runCallback (s := { s with world := _ }) hpop hi hdue
      | co c n =>
        dsimp only
        split
        · exact fun _ => hpop
        · exact punctual_resume (s := { s with world := _ }) hpop c n pick

end CoSys

namespace Clocked

open CoSys

variable {s t : Clocked}

def Punctual (s : Clocked) : Prop := s.sys.Punctual s.target s.ripe

/-- A new timer is about its own executor. -/
theorem setTimer_other {c b ms curMs : Nat} {sys : CoSys} (hb : b ≠ c) :
    (s.setTimer c ms curMs sys).target b = s.target b ∧
      (s.setTimer c ms curMs sys).ripe b = s.ripe b := by
  simp [setTimer, ripe, Function.update_of_ne hb]

theorem setTimer_target (s : Clocked) (c ms curMs : Nat) (sys : CoSys) :
    (s.setTimer c ms curMs sys).target c = targetOf curMs ms := by simp [setTimer]

theorem punctual_sleepBase (h : s.sys.world.Punctual s.sys.co s.target s.ripe)
    (ms curMs : Nat) : (s.sleepBase ms curMs).Punctual := by
  set n := (s.sys.co baseExecutor).suspension + 1
  have hnext : s.sys.world.Punctual (Function.update s.sys.co baseExecutor ⟨.running, n⟩)
      (s.sleepBase ms curMs).target (s.sleepBase ms curMs).ripe :=
    h.next (Nat.le_succ _) (fun _ hw => by cases hw) (fun _ _ _ heq => by cases heq)
      (fun heq => by cases heq) (fun b hb => (setTimer_other hb).1)
      (fun b hb => (setTimer_other hb).2)
  refine CoSys.punctual_call (s := s.sys.setCo baseExecutor ⟨.running, n⟩) fun w hw => ?_
  refine hnext.startTimer ?_ ?_ hw
  · simp [Callback.issued, Callback.coroutine, n]
  · exact (setTimer_target _ _ _ _ _).le

@[simp] theorem dispatch_phase (pick : Nat) :
    (s.dispatch pick).sys.phase = (s.sys.dispatch pick).phase := by
  unfold dispatch
  dsimp only
  split
  · rename_i hl
    exact hl.symm
  · rfl

theorem punctual_dispatch (h : s.sys.world.Punctual s.sys.co s.target s.ripe)
    (hp : s.sys.phase = .loop) (hf : s.sys.world.fault = none) (pick : Nat) :
    (s.dispatch pick).Punctual := by
  have hd := CoSys.punctual_dispatch h pick
  unfold dispatch
  dsimp only
  split
  · rename_i hl
    have heq := CoSys.dispatch_left hp hl
    have hleft := hd (by rw [heq]; exact hf)
    exact CoSys.punctual_resume hleft _ _ _
  · exact hd

theorem punctual_blockPending (h : s.sys.world.Punctual s.sys.co s.target s.ripe)
    (clock : Nat → Nat) (batch : List EpollEvent) : (s.blockPending clock batch).Punctual := by
  have hripe : (s.blockPending clock batch).ripe =
      fun c => s.ripe c || decide (s.target c ≤ clock 0) := by
    funext c
    rw [Bool.eq_iff_iff]
    simp only [ripe, Bool.or_eq_true, decide_eq_true_eq]
    show s.target c ≤ max (s.furthest c) (clock 0) ↔ _
    omega
  unfold Punctual
  rw [hripe]
  exact CoSys.punctual_call (s := s.sys) fun _ hw => h.blockPending hw

theorem step_punctual {i : Input} (h : s.Punctual) (hs : s.step i = some t) : t.Punctual := by
  unfold step at hs
  split at hs
  · cases hs
  rename_i hf
  have hf : s.sys.world.fault = none := by simpa using hf
  have hp := h hf
  split at hs
  · cases hs
    exact fun _ => hp
  · cases hs
    exact punctual_dispatch hp ‹_› hf _
  · split at hs
    · cases hs
      exact punctual_blockPending hp _ _
    · cases hs
  · cases hs
    exact CoSys.punctual_sleepInner hp (fun b hb => (setTimer_other hb).1)
      (fun b hb => (setTimer_other hb).2) (setTimer_target _ _ _ _ _)
  · cases hs
    exact punctual_sleepBase hp _ _
  · cases hs
    exact punctual_sleepBase hp _ _
  · split at hs
    · cases hs
    · cases hs
      exact CoSys.punctual_ioInner hp (fun b hb => (setTimer_other hb).1)
        (fun b hb => (setTimer_other hb).2) (setTimer_target _ _ _ _ _)
  · obtain ⟨u, hu, rfl⟩ := Option.map_eq_some_iff.1 hs
    exact CoSys.punctual_act hp (act_effect hu) (.inr (.inl ⟨_, rfl⟩))
  · split at hs
    · cases hs
    · obtain ⟨u, hu, rfl⟩ := Option.map_eq_some_iff.1 hs
      exact CoSys.punctual_act hp (act_effect hu) (.inr (.inr rfl))
  · split at hs
    · split at hs
      · obtain ⟨u, hu, rfl⟩ := Option.map_eq_some_iff.1 hs
        exact CoSys.punctual_act hp (act_effect hu) (.inl ‹_›)
      · cases hs
    · cases hs
  · cases hs

theorem init_punctual (pipe : Nat) : (init pipe).Punctual := by
  have hslot : ∀ fd d, ((World.init pipe : World Entry Callback).entry fd).executor d = none :=
    fun fd d => by cases d <;> rfl
  have hco : ∀ c, (init pipe).sys.co c = if c = baseExecutor then ⟨.running, 0⟩ else {} :=
    fun c => by simp [init, Function.update_apply]
  refine fun _ => ⟨List.Pairwise.nil, fun t ht => (by cases ht), fun fd d e he => ?_,
    fun e he => (by cases he), fun c fd d timer n hc => ?_, fun c _ => ?_⟩
  · cases (hslot fd d).symm.trans he
  · replace hc := (hco c).symm.trans hc
    split at hc <;> cases hc
  · rw [hco]
    split <;> rfl

end Clocked

end NetBase
