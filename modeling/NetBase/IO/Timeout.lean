import NetBase.IO.Clocked
import NetBase.IO.NonBlock
import NetBase.Lib.Runs

/-!
# Socket time-outs

`co_setsockopt` of `src/io/co_io_function.cpp` for `SO_RCVTIMEO` and `SO_SNDTIMEO`, and the
calls of `ioInner` that use the value. A call looks its time-out up once; each time its function
finds `EAGAIN` it makes a timer with it and waits. It reports a time-out when it is resumed with
`*time_out_ptr` set, and starts over when it is resumed without.

The value is in milliseconds: what is below one is lost, and zero, which stands for no time-out,
is a timer that is due at once.
-/

namespace NetBase

open Lib

/-- A valid `timeval`. -/
structure Timeval where
  tvSec : Nat
  tvUsec : Nat
  sec_lt : tvSec < 0x8000000000000000
  usec_lt : tvUsec < 1000000

namespace Timeval

def micros (v : Timeval) : Nat := v.tvSec * 1000000 + v.tvUsec

/-- `timeout`, a `long`, as it is stored in a `size_t`. A sum past the largest `long` wraps. -/
def timeout (v : Timeval) : Nat := (v.tvSec * 1000 + v.tvUsec / 1000) % 0x10000000000000000

/-- Whole milliseconds, at least one, and a `long`. -/
def Exact (v : Timeval) : Prop :=
  0 < v.micros ∧ v.tvUsec % 1000 = 0 ∧ v.tvSec * 1000 + v.tvUsec / 1000 < 0x8000000000000000

instance (v : Timeval) : Decidable v.Exact := inferInstanceAs (Decidable (_ ∧ _ ∧ _))

theorem Exact.micros_eq {v : Timeval} (h : v.Exact) : v.micros = v.timeout * 1000 := by
  obtain ⟨-, hu, hl⟩ := h
  unfold micros timeout
  omega

/-- The field of a context that was given the time-out last; `-1` if none was. -/
def stored : Option Timeval → Nat
  | none => maxStamp
  | some v => v.timeout

end Timeval

/-- A call of `ioInner`. -/
structure IoCall where
  fd : Nat := 0
  d : EventType := .read
  timeOutMs : Nat := maxStamp
  /-- Ghost: the time-out in force, and the clock when the call last began to wait. -/
  asked : Option Timeval := none
  since : Nat := 0

/-- Ghost: a call has reported a time-out, after `waited` milliseconds. -/
structure TimeoutReport where
  asked : Option Timeval
  waited : Nat

structure TimeoutSys where
  clocked : Clocked
  /-- Ghost: the time-out last set for the context of a descriptor. -/
  asked : Nat → EventType → Option Timeval := fun _ _ => none
  /-- The latest call of each executor. -/
  call : Nat → IoCall := fun _ => {}
  /-- The executor that runs has just returned from a wait of its call. -/
  retries : Bool := false
  reports : List TimeoutReport := []

inductive TimeoutInput where
  | coSetsockopt (fd : Nat) (d : EventType) (tv : Timeval)
  | coSocket (fd : Nat)
  | coClose (fd : Nat)
  /-- `ioInner` is called and its function returns `EAGAIN`. -/
  | ioInner (fd : Nat) (d : EventType) (curMs : Nat)
  /-- The function returns `EAGAIN` again. -/
  | again (curMs : Nat)
  | dispatch (pick : Nat)
  | other (i : Clocked.Input)

namespace TimeoutSys

open CoSys

def init (pipe : Nat) : TimeoutSys where
  clocked := .init pipe

/-- The input is none of those that have one of their own. -/
def isOther : Clocked.Input → Bool
  | .ioInner .. => false
  | .dispatch _ => false
  | .act (.coSocket _) => false
  | .act (.coClose _) => false
  | .act (.setTimeout ..) => false
  | _ => true

/-- The state of the executor that is entered: whether its wait timed out, if it is in one. -/
def returning (s t : Clocked) : Option (Nat × Bool) :=
  match t.sys.phase.current with
  | some c =>
    match (s.sys.co c).state with
    | .waiting (.io _ _ _ timedOut) => some (c, timedOut)
    | _ => none
  | none => none

/-- The executor `c` waits in `x` from the reading `curMs` on. -/
def wait (s : TimeoutSys) (c curMs : Nat) (x : IoCall) : Option TimeoutSys :=
  (s.clocked.step (.ioInner x.fd x.d x.timeOutMs curMs)).map fun t =>
    { s with
      clocked := t
      call := Function.update s.call c { x with since := curMs }
      retries := false }

def step (s : TimeoutSys) : TimeoutInput → Option TimeoutSys
  | .coSetsockopt fd d tv => (s.clocked.step (.act (.setTimeout fd d tv.timeout))).map fun t =>
    { s with
      clocked := t
      asked := fun g d' => if g = fd ∧ d' = d then some tv else s.asked g d'
      retries := false }
  | .coSocket fd => (s.clocked.step (.act (.coSocket fd))).map fun t =>
    { s with clocked := t, asked := Function.update s.asked fd fun _ => none, retries := false }
  | .coClose fd => (s.clocked.step (.act (.coClose fd))).map fun t =>
    { s with clocked := t, asked := Function.update s.asked fd fun _ => none, retries := false }
  | .ioInner fd d curMs =>
    match s.clocked.sys.phase, s.clocked.sys.world.fds.getContext fd with
    | .running c, some context =>
      if context.suspends then
        s.wait c curMs { fd, d, timeOutMs := context.timeout d, asked := s.asked fd d }
      else none
    | _, _ => none
  | .again curMs =>
    match s.clocked.sys.phase with
    | .running c => if s.retries then s.wait c curMs (s.call c) else none
    | _ => none
  | .dispatch pick => (s.clocked.step (.dispatch pick)).map fun t =>
    match returning s.clocked t with
    | some (c, true) => { s with
        clocked := t
        retries := false
        reports := s.reports ++ [⟨(s.call c).asked, s.clocked.furthest c - (s.call c).since⟩] }
    | some (_, false) => { s with clocked := t, retries := true }
    | none => { s with clocked := t, retries := false }
  | .other i =>
    if isOther i then (s.clocked.step i).map fun t => { s with clocked := t, retries := false }
    else none

/-- A time-out is reported only if one is set, other than zero, and after a wait of at least its
length. -/
def Honest (s : TimeoutSys) : Prop :=
  ∀ r ∈ s.reports, ∃ tv, r.asked = some tv ∧ 0 < tv.micros ∧ tv.micros ≤ r.waited * 1000

/-- The time-outs are exact, and the clock has not come to its end. -/
def Heeded (_ : TimeoutSys) : TimeoutInput → Prop
  | .coSetsockopt _ _ tv => tv.Exact
  | .ioInner _ _ curMs => curMs < maxStamp
  | .again curMs => curMs < maxStamp
  | .other (.blockPending clock _) => clock 0 < maxStamp
  | _ => True

instance (s : TimeoutSys) : (i : TimeoutInput) → Decidable (s.Heeded i)
  | .coSetsockopt _ _ tv => inferInstanceAs (Decidable tv.Exact)
  | .ioInner .. => inferInstanceAs (Decidable (_ < _))
  | .again _ => inferInstanceAs (Decidable (_ < _))
  | .other (.blockPending ..) => inferInstanceAs (Decidable (_ < _))
  | .coSocket _ => .isTrue trivial
  | .coClose _ => .isTrue trivial
  | .dispatch _ => .isTrue trivial
  | .other .run => .isTrue trivial
  | .other (.dispatch _) => .isTrue trivial
  | .other (.sleepInner ..) => .isTrue trivial
  | .other (.ioInner ..) => .isTrue trivial
  | .other (.coConnect _) => .isTrue trivial
  | .other (.act _) => .isTrue trivial
  | .other .ret => .isTrue trivial

end TimeoutSys

/-! ## The contexts -/

namespace FdManager

variable {m : FdManager}

/-- Setting one time-out leaves the others, and whether calls suspend. -/
theorem setTimeout_other {fd g : Nat} {d d' : EventType} (ms : Nat) (h : ¬ (g = fd ∧ d' = d)) :
    ((m.setTimeout fd d ms).getContext g).map (fun x => (x.suspends, x.timeout d')) =
      (m.getContext g).map fun x => (x.suspends, x.timeout d') := by
  unfold setTimeout
  split
  · rfl
  all_goals
    rename_i context hc
    rw [getContext_set hc]
    split
    · rename_i hg
      subst hg
      cases d' <;> first | exact absurd ⟨rfl, rfl⟩ h | (rw [hc]; rfl)
    · rfl

theorem setTimeout_same {fd : Nat} {d : EventType} {ms : Nat} {context : FdContext}
    (h : (m.setTimeout fd d ms).getContext fd = some context) : context.timeout d = ms := by
  unfold setTimeout at h
  split at h
  · rename_i hn
    rw [hn] at h
    cases h
  all_goals
    rename_i hc
    rw [getContext_set hc, if_pos rfl] at h
    cases h
    rfl

theorem getContext_delContext {fd g : Nat} {context : FdContext}
    (h : (m.delContext fd).getContext g = some context) :
    g ≠ fd ∧ m.getContext g = some context := by
  unfold delContext getContext at *
  by_cases hg : g = fd
  · subst hg
    by_cases hlt : g < m.contexts.length
    · rw [List.getElem?_set_self hlt] at h
      cases h
    · rw [List.getElem?_eq_none (by simpa using hlt)] at h
      cases h
  · rw [List.getElem?_set_ne (Ne.symm hg)] at h
    exact ⟨hg, h⟩

end FdManager

namespace World

variable {w w' : World Entry Callback} {fd : Nat}

theorem removeEvent_fds {events : BitVec 32} (h : w.removeEvent fd events = .ok w') :
    w'.fds = w.fds := by
  rcases removeEvent_inv h with ⟨-, rfl⟩ | ⟨f, -, -, k, rfl⟩ <;> rfl

theorem coSocket_context (h : w.coSocket fd = .ok w') (g : Nat) :
    w'.fds.getContext g = if g = fd then some { isSocket := true } else w.fds.getContext g := by
  obtain ⟨fds, hset, hw⟩ := ok_of_bind h
  cases hw
  exact FdManager.getContext_setContext hset g

theorem coClose_context {g : Nat} {context : FdContext} (h : w.coClose fd = .ok w')
    (hg : w'.fds.getContext g = some context) : g ≠ fd ∧ w.fds.getContext g = some context := by
  unfold coClose at h
  split at h
  · obtain ⟨v, hv, hw⟩ := ok_of_bind h
    obtain ⟨u, hu, rfl⟩ := ok_of_map hv
    cases hw
    rw [← removeEvent_fds hu]
    exact FdManager.getContext_delContext hg
  · rename_i hfd
    cases h
    refine ⟨fun hgf => hfd ?_, hg⟩
    subst hgf
    rw [FdManager.hasFd, show w.fds.getContext g = some context from hg]
    rfl

theorem registerEvent_fds {d : EventType} {x : Option Entry} {b r : Bool}
    (h : w.registerEvent fd d.mask x b = .ok (r, w')) : w'.fds = w.fds := by
  rcases registerEvent_ok h with rfl | ⟨-, k, rfl⟩ <;> rfl

theorem startTimer_fds {curMs ms : Nat} {k : Callback}
    (h : (CoSys.startTimer w curMs ms k).2 = .ok w') : w'.fds = w.fds := by
  simp only [CoSys.startTimer, registerTimer, TimerManager.newTimer] at h
  split at h <;> cases h <;> rfl

theorem enqueue_fds {ev : EpollEvent} {d : EventType} (h : w.enqueue ev d = .ok w') :
    w'.fds = w.fds := by
  unfold enqueue at h
  split at h
  · obtain ⟨f, -, h⟩ := ok_of_bind h
    dsimp only at h
    split at h
    · cases h; rfl
    · cases h
  · cases h; rfl

theorem updateEvents_fds {f : FdEvents Entry} {left : BitVec 32}
    (h : w.updateEvents fd f left = .ok w') : w'.fds = w.fds := by
  unfold updateEvents at h
  split at h
  · dsimp only at h
    split at h <;> obtain ⟨k, -, h⟩ := ok_of_bind h <;> cases h <;> rfl
  · cases h; rfl

theorem handleEvents_fds {first : Nat} {batch : List EpollEvent}
    (h : w.handleEvents first batch = .ok w') : w'.fds = w.fds := by
  induction batch generalizing w with
  | nil => cases h; rfl
  | cons ev batch ih =>
    obtain ⟨u, hu, h⟩ := ok_of_bind h
    apply (ih h).trans
    unfold handleEvent at hu
    split at hu
    · cases hu; rfl
    · obtain ⟨f, -, hu⟩ := ok_of_bind hu
      obtain ⟨l₁, -, hu⟩ := ok_of_bind hu
      obtain ⟨l₂, -, hu⟩ := ok_of_bind hu
      obtain ⟨w₁, h₁, hu⟩ := ok_of_bind hu
      obtain ⟨w₂, h₂, h₃⟩ := ok_of_bind hu
      exact ((enqueue_fds h₃).trans (enqueue_fds h₂)).trans (updateEvents_fds h₁)

theorem runTimers_fds {ts : List (Timer Callback)} (h : w.runTimers .run ts = .ok w') :
    w'.fds = w.fds := by
  induction ts generalizing w with
  | nil => cases h; rfl
  | cons t ts ih =>
    unfold runTimers at h
    split at h
    · cases h
    · have hfds := ih h
      exact hfds

theorem blockPending_fds {clock : Nat → Nat} {batch : List EpollEvent}
    (h : w.blockPending .run clock batch = .ok w') : w'.fds = w.fds := by
  unfold blockPending at h
  obtain ⟨u, hu, h⟩ := ok_of_bind h
  have hexp := runTimers_fds hu
  cases batch with
  | nil => cases h; exact hexp
  | cons first batch => exact (handleEvents_fds h).trans hexp

end World

/-! ## What the other steps leave alone -/

/-- The coroutine is in a wait of `ioInner`. -/
def Coroutine.InIo (x : Coroutine) : Prop :=
  ∃ fd d timer timedOut, x.state = .waiting (.io fd d timer timedOut)

theorem inIo_update {co : Nat → Coroutine} {b c : Nat} {x : Coroutine}
    (h : (Function.update co c x b).InIo) (hx : ¬ x.InIo) : b ≠ c ∧ (co b).InIo := by
  by_cases hb : b = c
  · subst hb
    rw [Function.update_self] at h
    exact absurd h hx
  · rw [Function.update_of_ne hb] at h
    exact ⟨hb, h⟩

namespace CoSys

variable {s t : CoSys} {b c : Nat}

theorem call_fds {r : Except Fault (World Entry Callback)}
    (h : ∀ w, r = .ok w → w.fds = s.world.fds) : (s.call r).world.fds = s.world.fds := by
  cases r with
  | error e => rfl
  | ok w => exact h w rfl

theorem suspend_frame {wait : Wait} {r : Except Fault (World Entry Callback)}
    (hr : ∀ w, r = .ok w → w.fds = s.world.fds) (hf : (s.suspend c wait r).world.fault = none) :
    (s.suspend c wait r).world.fds = s.world.fds ∧
      (s.suspend c wait r).co =
        Function.update s.co c ⟨.waiting wait, (s.co c).suspension + 1⟩ := by
  cases r with
  | error e => cases hf
  | ok w => exact ⟨hr w rfl, rfl⟩

theorem ioInner_frame {fd ms curMs : Nat} {d : EventType}
    (hf : (s.ioInner c fd d curMs ms).world.fault = none) :
    (s.ioInner c fd d curMs ms).world.fds = s.world.fds ∧
      ∀ b, b ≠ c → (s.ioInner c fd d curMs ms).co b = s.co b := by
  obtain ⟨hfds, hco⟩ := suspend_frame (fun w hw => by
    obtain ⟨v, hv, hw⟩ := ok_of_bind hw
    obtain ⟨⟨r, w'⟩, hreg, rfl⟩ := ok_of_map hw
    exact (World.registerEvent_fds hreg).trans (World.startTimer_fds hv)) hf
  exact ⟨hfds, fun b hb => (congrFun hco b).trans (Function.update_of_ne hb _ _)⟩

theorem runCallback_frame (k : Callback) : (s.runCallback k).world.fds = s.world.fds ∧
    ∀ b, ((s.runCallback k).co b).InIo → (s.co b).InIo := by
  unfold runCallback
  split
  · exact ⟨rfl, fun _ h => h⟩
  · rename_i c n fd d
    dsimp only
    split
    · rename_i fd' d' timer m hc
      split
      · split
        · rename_i w hw
          have hfds := World.removeEvent_fds hw
          refine ⟨hfds, fun b hb => ?_⟩
          by_cases hbc : b = c
          · rw [hbc, hc]
            exact ⟨_, _, _, _, rfl⟩
          · replace hb : (Function.update s.co c _ b).InIo := hb
            rwa [Function.update_of_ne hbc] at hb
        · exact ⟨rfl, fun _ h => h⟩
      · exact ⟨rfl, fun _ h => h⟩
    · exact ⟨rfl, fun _ h => h⟩

theorem resume_frame (c n pick : Nat) : (s.resume c n pick).world.fds = s.world.fds ∧
    ∀ b, ((s.resume c n pick).co b).InIo → (s.co b).InIo := by
  have hrun : ∀ b, (Function.update s.co c { s.co c with state := .running } b).InIo →
      (s.co b).InIo := fun b hb => (inIo_update hb (by simp [Coroutine.InIo])).2
  unfold resume
  dsimp only
  split
  · refine ⟨call_fds fun w hw => ?_, fun b hb => hrun b ?_⟩
    · obtain ⟨m, rfl, -⟩ := World.cancelTimer_ok hw
      rfl
    · rw [call_co] at hb
      exact hb
  · exact ⟨rfl, hrun⟩

theorem dispatch_frame (pick : Nat) : (s.dispatch pick).world.fds = s.world.fds ∧
    ∀ b, ((s.dispatch pick).co b).InIo → (s.co b).InIo := by
  unfold dispatch
  cases s.world.scheduler.takeReady.1 with
  | none => exact ⟨rfl, fun _ h => h⟩
  | some e =>
    cases e with
    | run k => exact runCallback_frame (s := { s with world := _ }) k
    | co c n =>
      dsimp only
      split
      · exact ⟨rfl, fun _ h => h⟩
      · exact resume_frame (s := { s with world := _ }) c n pick

theorem act_frame {a : CoAction} (ha : ActEffect s c a t)
    (hi : a.immediate = true ∨ (∃ fd, a = .coConnect fd) ∨ a = .ret)
    (hf : t.world.fault = none) :
    (t.world.fds = s.world.fds ∨ (∃ fd, a = .coSocket fd) ∨ (∃ fd, a = .coClose fd) ∨
      ∃ fd d ms, a = .setTimeout fd d ms) ∧ ∀ b, (t.co b).InIo → (s.co b).InIo := by
  cases ha with
  | ioInner => simp [CoAction.immediate] at hi
  | sleepInner => simp [CoAction.immediate] at hi
  | coConnect fd =>
    obtain ⟨hfds, hco⟩ := suspend_frame (fun w hw => by
      obtain ⟨⟨r, w'⟩, hreg, rfl⟩ := ok_of_map hw
      exact World.registerEvent_fds (d := .write) hreg) hf
    refine ⟨.inl hfds, fun b hb => ?_⟩
    rw [coConnect, hco] at hb
    exact (inIo_update hb (by simp [Coroutine.InIo])).2
  | spawn hu =>
    exact ⟨.inl rfl, fun b hb => (inIo_update hb (by simp [Coroutine.InIo])).2⟩
  | coSocket fd =>
    rw [call_co]
    exact ⟨.inr (.inl ⟨fd, rfl⟩), fun _ h => h⟩
  | coClose fd =>
    rw [call_co]
    exact ⟨.inr (.inr (.inl ⟨fd, rfl⟩)), fun _ h => h⟩
  | removeEvent =>
    rw [call_co]
    exact ⟨.inl (call_fds fun w hw => World.removeEvent_fds hw), fun _ h => h⟩
  | setTimeout fd d ms => exact ⟨.inr (.inr (.inr ⟨fd, d, ms, rfl⟩)), fun _ h => h⟩
  | stop => exact ⟨.inl rfl, fun _ h => h⟩
  | ret =>
    exact ⟨.inl rfl, fun b hb => (inIo_update hb (by simp [Coroutine.InIo])).2⟩

end CoSys

namespace Clocked

open CoSys

variable {s t : Clocked}

/-- What a step that is no wait of `ioInner` leaves of such waits. -/
structure Frame (s t : Clocked) (i : Input) : Prop where
  fds : t.sys.world.fds = s.sys.world.fds ∨ (∃ fd, i = .act (.coSocket fd)) ∨
    (∃ fd, i = .act (.coClose fd)) ∨ ∃ fd d ms, i = .act (.setTimeout fd d ms)
  waits : ∀ b, (t.sys.co b).InIo → (s.sys.co b).InIo ∧ t.target b = s.target b ∧
    (t.furthest b = s.furthest b ∨
      ∃ clock batch, i = .blockPending clock batch ∧ t.furthest b = max (s.furthest b) (clock 0))

theorem frame_act {c : Nat} {a : CoAction} {u : CoSys} {i : Input} (ha : ActEffect s.sys c a u)
    (hi : a.immediate = true ∨ (∃ fd, a = .coConnect fd) ∨ a = .ret) (hf : u.world.fault = none)
    (hia : a.immediate = true → i = .act a) : Frame s { s with sys := u } i := by
  obtain ⟨hfds, hco⟩ := act_frame ha hi hf
  refine ⟨?_, fun b hb => ⟨hco b hb, rfl, .inl rfl⟩⟩
  rcases hfds with h | ⟨fd, rfl⟩ | ⟨fd, rfl⟩ | ⟨fd, d, ms, rfl⟩
  · exact .inl h
  · exact .inr (.inl ⟨fd, hia rfl⟩)
  · exact .inr (.inr (.inl ⟨fd, hia rfl⟩))
  · exact .inr (.inr (.inr ⟨fd, d, ms, hia rfl⟩))

theorem frame_sleepInner {c ms curMs : Nat} {i : Input}
    (hf : (s.sleepInner c ms curMs).sys.world.fault = none) :
    Frame s (s.sleepInner c ms curMs) i := by
  obtain ⟨hfds, hco⟩ := suspend_frame (fun w hw => World.startTimer_fds hw) hf
  refine ⟨.inl hfds, fun b hb => ?_⟩
  replace hb : ((s.sys.sleepInner c ms curMs).co b).InIo := hb
  rw [CoSys.sleepInner, hco] at hb
  obtain ⟨hne, hb⟩ := inIo_update hb (by simp [Coroutine.InIo])
  exact ⟨hb, Function.update_of_ne hne _ _, .inl (Function.update_of_ne hne _ _)⟩

theorem frame_sleepBase {ms curMs : Nat} {i : Input} : Frame s (s.sleepBase ms curMs) i := by
  refine ⟨.inl (call_fds fun w hw => World.startTimer_fds hw), fun b hb => ?_⟩
  replace hb : (CoSys.co (CoSys.call _ _) b).InIo := hb
  rw [call_co] at hb
  obtain ⟨hne, hb⟩ := inIo_update hb (by simp [Coroutine.InIo])
  exact ⟨hb, Function.update_of_ne hne _ _, .inl (Function.update_of_ne hne _ _)⟩

theorem frame_dispatch (pick : Nat) {i : Input} : Frame s (s.dispatch pick) i := by
  obtain ⟨hfds, hco⟩ := dispatch_frame (s := s.sys) pick
  unfold dispatch
  dsimp only
  split
  · obtain ⟨hfds', hco'⟩ := resume_frame (s := s.sys.dispatch pick) baseExecutor
      ((s.sys.dispatch pick).co baseExecutor).suspension pick
    exact ⟨.inl (hfds'.trans hfds), fun b hb => ⟨hco b (hco' b hb), rfl, .inl rfl⟩⟩
  · exact ⟨.inl hfds, fun b hb => ⟨hco b hb, rfl, .inl rfl⟩⟩

theorem frame_blockPending (clock : Nat → Nat) (batch : List EpollEvent) :
    Frame s (s.blockPending clock batch) (.blockPending clock batch) := by
  refine ⟨.inl (call_fds fun w hw => World.blockPending_fds hw), fun b hb => ?_⟩
  replace hb : ((s.sys.call (s.sys.world.blockPending .run clock batch)).co b).InIo := hb
  rw [call_co] at hb
  exact ⟨hb, rfl, .inr ⟨clock, batch, rfl, rfl⟩⟩

theorem step_frame {i : Input} (hi : ∀ fd d ms curMs, i ≠ .ioInner fd d ms curMs)
    (hs : s.step i = some t) (hf : t.sys.world.fault = none) : Frame s t i := by
  unfold step at hs
  split at hs
  · cases hs
  split at hs
  · cases hs
    exact ⟨.inl rfl, fun b hb => ⟨hb, rfl, .inl rfl⟩⟩
  · cases hs
    exact frame_dispatch _
  · split at hs
    · cases hs
      exact frame_blockPending _ _
    · cases hs
  · cases hs
    exact frame_sleepInner hf
  · cases hs
    exact frame_sleepBase
  · cases hs
    exact frame_sleepBase
  · exact absurd rfl (hi _ _ _ _)
  · obtain ⟨u, hu, rfl⟩ := Option.map_eq_some_iff.1 hs
    exact frame_act (act_effect hu) (.inr (.inl ⟨_, rfl⟩)) hf fun h => by cases h
  · split at hs
    · cases hs
    · obtain ⟨u, hu, rfl⟩ := Option.map_eq_some_iff.1 hs
      exact frame_act (act_effect hu) (.inr (.inr rfl)) hf fun h => by cases h
  · split at hs
    · split at hs
      · obtain ⟨u, hu, rfl⟩ := Option.map_eq_some_iff.1 hs
        exact frame_act (act_effect hu) (.inl ‹_›) hf fun _ => rfl
      · cases hs
    · cases hs
  · cases hs

theorem step_act {a : CoAction} (hs : s.step (.act a) = some t) :
    ∃ c u, ActEffect s.sys c a u ∧ t = { s with sys := u } := by
  have hact : ∀ c, ((s.sys.act c a).map fun sys => { s with sys }) = some t →
      ∃ c u, ActEffect s.sys c a u ∧ t = { s with sys := u } := fun c h => by
    obtain ⟨u, hu, rfl⟩ := Option.map_eq_some_iff.1 h
    exact ⟨c, u, act_effect hu, rfl⟩
  unfold step at hs
  split at hs
  · cases hs
  cases hp : s.sys.phase with
  | setup =>
    simp only [hp, CoPhase.current] at hs
    split at hs
    · exact hact _ hs
    · cases hs
  | left =>
    simp only [hp, CoPhase.current] at hs
    split at hs
    · exact hact _ hs
    · cases hs
  | running c =>
    simp only [hp, CoPhase.current] at hs
    split at hs
    · exact hact _ hs
    · cases hs
  | loop => simp [hp, CoPhase.current] at hs
  | blocked => simp [hp, CoPhase.current] at hs

end Clocked

/-! ## The run -/

/-- A target that is reached before the clock comes to its end was not saturated. -/
theorem waited_of_target {since ms r : Nat} (h : targetOf since ms ≤ r) (hr : r < maxStamp) :
    ms ≤ r - since := by
  unfold targetOf at h
  split at h <;> omega

namespace TimeoutSys

variable {s t : TimeoutSys}

/-- The contexts hold what was asked for, and so do the calls; those that wait have a timer of
that length. -/
structure Kept (s : TimeoutSys) : Prop where
  table : ∀ fd context d, s.clocked.sys.world.fds.getContext fd = some context →
    context.timeout d = Timeval.stored (s.asked fd d)
  asked : ∀ fd d tv, s.asked fd d = some tv → tv.Exact
  calls : ∀ c, (s.call c).timeOutMs = Timeval.stored (s.call c).asked ∧
    ∀ tv, (s.call c).asked = some tv → tv.Exact
  waits : ∀ c, (s.clocked.sys.co c).InIo →
    s.clocked.target c = targetOf (s.call c).since (s.call c).timeOutMs ∧
    s.clocked.furthest c < maxStamp

/-- A wait that timed out was as long as asked for. -/
theorem Kept.report {c fd : Nat} {d : EventType} {timer : Timer Callback} (h : s.Kept)
    (hp : s.clocked.sys.world.Punctual s.clocked.sys.co s.clocked.target s.clocked.ripe)
    (hc : (s.clocked.sys.co c).state = .waiting (.io fd d timer true)) :
    ∃ tv, (s.call c).asked = some tv ∧ 0 < tv.micros ∧
      tv.micros ≤ (s.clocked.furthest c - (s.call c).since) * 1000 := by
  have hripe : s.clocked.target c ≤ s.clocked.furthest c :=
    of_decide_eq_true (hp.flags c fd d timer (s.clocked.sys.co c).suspension (by rw [← hc]))
  obtain ⟨htarget, hlt⟩ := h.waits c ⟨fd, d, timer, true, hc⟩
  obtain ⟨hms, hexact⟩ := h.calls c
  have hwaited := waited_of_target (htarget ▸ hripe) hlt
  cases ha : (s.call c).asked with
  | none =>
    rw [ha, Timeval.stored] at hms
    omega
  | some tv =>
    have htv := hexact tv ha
    refine ⟨tv, rfl, htv.1, ?_⟩
    rw [ha, Timeval.stored] at hms
    rw [htv.micros_eq, ← hms]
    exact Nat.mul_le_mul_right _ hwaited

/-- A step that is no wait of `ioInner` and leaves the contexts alone, or that are dealt with. -/
theorem Kept.frame {i : Clocked.Input} {u : Clocked} {asked : Nat → EventType → Option Timeval}
    {retries : Bool} {reports : List TimeoutReport} (h : s.Kept) (hf : Clocked.Frame s.clocked u i)
    (hclock : ∀ clock batch, i = .blockPending clock batch → clock 0 < maxStamp)
    (htable : ∀ fd context d, u.sys.world.fds.getContext fd = some context →
      context.timeout d = Timeval.stored (asked fd d))
    (hasked : ∀ fd d tv, asked fd d = some tv → tv.Exact) :
    Kept ⟨u, asked, s.call, retries, reports⟩ := by
  refine ⟨htable, hasked, h.calls, fun c hc => ?_⟩
  obtain ⟨hio, htarget, hfar⟩ := hf.waits c hc
  obtain ⟨hw, hlt⟩ := h.waits c hio
  refine ⟨htarget.trans hw, ?_⟩
  rcases hfar with hfar | ⟨clock, batch, hi, hfar⟩
  · rw [hfar]
    exact hlt
  · have := hclock clock batch hi
    rw [hfar]
    omega

theorem Kept.wait {c curMs : Nat} {x : IoCall} (h : s.Kept) (hp : s.clocked.sys.phase = .running c)
    (hx : x.timeOutMs = Timeval.stored x.asked ∧ ∀ tv, x.asked = some tv → tv.Exact)
    (hcur : curMs < maxStamp) (hs : s.wait c curMs x = some t)
    (hf : t.clocked.sys.world.fault = none) : t.Kept := by
  obtain ⟨u, hu, rfl⟩ := Option.map_eq_some_iff.1 hs
  unfold Clocked.step at hu
  split at hu
  · cases hu
  simp only [hp] at hu
  split at hu
  · cases hu
  cases hu
  obtain ⟨hfds, hco⟩ := CoSys.ioInner_frame hf
  refine ⟨fun fd context d hc => h.table fd context d ?_, h.asked, fun b => ?_, fun b hb => ?_⟩
  · rw [← hfds]
    exact hc
  · by_cases hb : b = c
    · subst hb
      simpa using hx
    · simpa [hb] using h.calls b
  · replace hb : ((s.clocked.sys.ioInner c x.fd x.d curMs x.timeOutMs).co b).InIo := hb
    by_cases hbc : b = c
    · subst hbc
      simpa [Clocked.ioInner, Clocked.setTimer] using hcur
    · rw [hco b hbc] at hb
      simpa [Clocked.ioInner, Clocked.setTimer, hbc] using h.waits b hb

theorem Kept.asked_forget (h : s.Kept) (fd g : Nat) (d : EventType) (tv : Timeval)
    (htv : Function.update s.asked fd (fun _ => none) g d = some tv) : tv.Exact := by
  by_cases hg : g = fd
  · subst hg
    rw [Function.update_self] at htv
    cases htv
  · rw [Function.update_of_ne hg] at htv
    exact h.asked g d tv htv

theorem Kept.coSetsockopt {fd : Nat} {d : EventType} {tv : Timeval} (h : s.Kept) (htv : tv.Exact)
    (hs : s.step (.coSetsockopt fd d tv) = some t) (hf : t.clocked.sys.world.fault = none) :
    t.Kept := by
  obtain ⟨u, hu, rfl⟩ := Option.map_eq_some_iff.1 hs
  refine h.frame (Clocked.step_frame (fun _ _ _ _ hi => by cases hi) hu hf)
    (fun _ _ hi => by cases hi) (fun g context d' hg => ?_) (fun g d' tv' htv' => ?_)
  · obtain ⟨c, v, hact, rfl⟩ := Clocked.step_act hu
    cases hact
    split
    · rename_i hsame
      obtain ⟨rfl, rfl⟩ := hsame
      exact FdManager.setTimeout_same hg
    · rename_i hne
      have hother := FdManager.setTimeout_other (m := s.clocked.sys.world.fds) tv.timeout hne
      rw [show (s.clocked.sys.world.fds.setTimeout fd d tv.timeout).getContext g =
        some context from hg] at hother
      obtain ⟨context', hc', heq⟩ := Option.map_eq_some_iff.1 hother.symm
      rw [← (Prod.mk.inj heq).2]
      exact h.table g context' d' hc'
  · split at htv'
    · cases htv'
      exact htv
    · exact h.asked g d' tv' htv'

/-- An action that gives `fd` a fresh context, or none, and leaves the others alone. -/
theorem Kept.forget {fd : Nat} {a : CoSys.CoAction} {u : Clocked} (h : s.Kept)
    (hu : s.clocked.step (.act a) = some u) (hf : u.sys.world.fault = none)
    (htable : ∀ g context, u.sys.world.fds.getContext g = some context →
      (g = fd ∧ ∀ d, context.timeout d = Timeval.stored none) ∨
        (g ≠ fd ∧ s.clocked.sys.world.fds.getContext g = some context)) :
    Kept { s with clocked := u, asked := Function.update s.asked fd fun _ => none,
                  retries := false } := by
  refine h.frame (Clocked.step_frame (fun _ _ _ _ hi => by cases hi) hu hf)
    (fun _ _ hi => by cases hi) (fun g context d hg => ?_) (h.asked_forget fd)
  rcases htable g context hg with ⟨rfl, hnone⟩ | ⟨hgf, hold⟩
  · rw [Function.update_self]
    exact hnone d
  · rw [Function.update_of_ne hgf]
    exact h.table g context d hold

theorem Kept.coSocket {fd : Nat} (h : s.Kept) (hs : s.step (.coSocket fd) = some t)
    (hf : t.clocked.sys.world.fault = none) : t.Kept := by
  obtain ⟨u, hu, rfl⟩ := Option.map_eq_some_iff.1 hs
  refine h.forget hu hf fun g context hg => ?_
  obtain ⟨c, v, hact, rfl⟩ := Clocked.step_act hu
  cases hact
  cases hr : s.clocked.sys.world.coSocket fd with
  | error e =>
    rw [hr] at hf
    cases hf
  | ok w =>
    rw [hr] at hg
    replace hg : w.fds.getContext g = some context := hg
    rw [World.coSocket_context hr] at hg
    split at hg
    · rename_i hgf
      cases hg
      exact .inl ⟨hgf, fun d => by cases d <;> rfl⟩
    · rename_i hgf
      exact .inr ⟨hgf, hg⟩

theorem Kept.coClose {fd : Nat} (h : s.Kept) (hs : s.step (.coClose fd) = some t)
    (hf : t.clocked.sys.world.fault = none) : t.Kept := by
  obtain ⟨u, hu, rfl⟩ := Option.map_eq_some_iff.1 hs
  refine h.forget hu hf fun g context hg => ?_
  obtain ⟨c, v, hact, rfl⟩ := Clocked.step_act hu
  cases hact
  cases hr : s.clocked.sys.world.coClose fd with
  | error e =>
    rw [hr] at hf
    cases hf
  | ok w =>
    rw [hr] at hg
    exact .inr (World.coClose_context hr hg)

/-- The steps keep `Kept`, unless they stop the process. -/
theorem step_kept {i : TimeoutInput} (h : s.Kept) (hc : s.Heeded i) (hs : s.step i = some t)
    (hf : t.clocked.sys.world.fault = none) : t.Kept := by
  cases i with
  | coSetsockopt fd d tv => exact h.coSetsockopt hc hs hf
  | coSocket fd => exact h.coSocket hs hf
  | coClose fd => exact h.coClose hs hf
  | ioInner fd d curMs =>
    simp only [step] at hs
    split at hs
    · rename_i c context hp hctx
      split at hs
      · exact h.wait hp ⟨h.table fd context d hctx, fun tv => h.asked fd d tv⟩ hc hs hf
      · cases hs
    · cases hs
  | again curMs =>
    simp only [step] at hs
    split at hs
    · rename_i c hp
      split at hs
      · exact h.wait hp (h.calls c) hc hs hf
      · cases hs
    · cases hs
  | dispatch pick =>
    obtain ⟨u, hu, rfl⟩ := Option.map_eq_some_iff.1 hs
    have hfault : u.sys.world.fault = none := by
      revert hf
      split <;> exact id
    have hfr := Clocked.step_frame (fun _ _ _ _ hi => by cases hi) hu hfault
    have htable : ∀ fd context d, u.sys.world.fds.getContext fd = some context →
        context.timeout d = Timeval.stored (s.asked fd d) := by
      rcases hfr.fds with hfds | ⟨_, hi⟩ | ⟨_, hi⟩ | ⟨_, _, _, hi⟩
      · rw [hfds]
        exact h.table
      all_goals cases hi
    split <;> exact h.frame hfr (fun _ _ hi => by cases hi) htable h.asked
  | other i =>
    simp only [step] at hs
    split at hs
    · rename_i hi
      obtain ⟨u, hu, rfl⟩ := Option.map_eq_some_iff.1 hs
      have hfr := Clocked.step_frame (fun _ _ _ _ he => by subst he; cases hi) hu hf
      refine h.frame hfr (fun clock batch he => by subst he; exact hc) ?_ h.asked
      rcases hfr.fds with hfds | ⟨_, rfl⟩ | ⟨_, rfl⟩ | ⟨_, _, _, rfl⟩
      · rw [hfds]
        exact h.table
      all_goals cases hi
    · cases hs

/-- A step of the system is a step of its coroutines, and reports only a wait that timed out. -/
theorem step_inv {i : TimeoutInput} (hs : s.step i = some t) :
    (∃ j, s.clocked.step j = some t.clocked) ∧ (t.reports = s.reports ∨
      ∃ c fd d timer, (s.clocked.sys.co c).state = .waiting (.io fd d timer true) ∧
        t.reports = s.reports ++
          [⟨(s.call c).asked, s.clocked.furthest c - (s.call c).since⟩]) := by
  have hwait : ∀ {c curMs : Nat} {x : IoCall}, s.wait c curMs x = some t →
      (∃ j, s.clocked.step j = some t.clocked) ∧ t.reports = s.reports := fun h => by
    obtain ⟨u, hu, rfl⟩ := Option.map_eq_some_iff.1 h
    exact ⟨⟨_, hu⟩, rfl⟩
  cases i with
  | coSetsockopt fd d tv =>
    obtain ⟨u, hu, rfl⟩ := Option.map_eq_some_iff.1 hs
    exact ⟨⟨_, hu⟩, .inl rfl⟩
  | coSocket fd =>
    obtain ⟨u, hu, rfl⟩ := Option.map_eq_some_iff.1 hs
    exact ⟨⟨_, hu⟩, .inl rfl⟩
  | coClose fd =>
    obtain ⟨u, hu, rfl⟩ := Option.map_eq_some_iff.1 hs
    exact ⟨⟨_, hu⟩, .inl rfl⟩
  | ioInner fd d curMs =>
    simp only [step] at hs
    split at hs
    · split at hs
      · exact (hwait hs).imp id .inl
      · cases hs
    · cases hs
  | again curMs =>
    simp only [step] at hs
    split at hs
    · split at hs
      · exact (hwait hs).imp id .inl
      · cases hs
    · cases hs
  | dispatch pick =>
    obtain ⟨u, hu, rfl⟩ := Option.map_eq_some_iff.1 hs
    split
    · rename_i c hret
      refine ⟨⟨_, hu⟩, .inr ?_⟩
      unfold returning at hret
      split at hret
      · split at hret
        · rename_i hstate
          cases hret
          exact ⟨c, _, _, _, hstate, rfl⟩
        · cases hret
      · cases hret
    · exact ⟨⟨_, hu⟩, .inl rfl⟩
    · exact ⟨⟨_, hu⟩, .inl rfl⟩
  | other i =>
    simp only [step] at hs
    split at hs
    · obtain ⟨u, hu, rfl⟩ := Option.map_eq_some_iff.1 hs
      exact ⟨⟨_, hu⟩, .inl rfl⟩
    · cases hs

theorem fault_none_of_step {u v : Clocked} {j : Clocked.Input} (h : u.step j = some v) :
    u.sys.world.fault = none := by
  unfold Clocked.step at h
  split at h
  · cases h
  · rename_i hf
    simpa using hf

structure Sound (s : TimeoutSys) : Prop where
  punctual : s.clocked.Punctual
  kept : s.clocked.sys.world.fault = none → s.Kept
  honest : s.Honest

theorem step_sound {i : TimeoutInput} (h : s.Sound) (hc : s.Heeded i) (hs : s.step i = some t) :
    t.Sound := by
  obtain ⟨⟨j, hj⟩, hr⟩ := step_inv hs
  have hf := fault_none_of_step hj
  refine ⟨Clocked.step_punctual h.punctual hj, step_kept (h.kept hf) hc hs, fun r hmem => ?_⟩
  rcases hr with hr | ⟨c, fd, d, timer, hstate, hr⟩
  · exact h.honest r (hr ▸ hmem)
  · rw [hr] at hmem
    rcases List.mem_append.1 hmem with hmem | hmem
    · exact h.honest r hmem
    · cases List.mem_singleton.1 hmem
      exact (h.kept hf).report (h.punctual hf) hstate

theorem init_sound (pipe : Nat) : (init pipe).Sound := by
  refine ⟨Clocked.init_punctual pipe, fun _ => ⟨fun fd context d hc => ?_, fun _ _ _ h => ?_,
    fun _ => ⟨rfl, fun _ h => ?_⟩, fun c ⟨_, _, _, _, h⟩ => ?_⟩, fun _ hr => ?_⟩
  · cases hc
  · cases h
  · cases h
  · have hco : (init pipe).clocked.sys.co c = if c = baseExecutor then ⟨.running, 0⟩ else {} := by
      simp [init, Clocked.init, Function.update_apply]
    rw [hco] at h
    split at h <;> cases h
  · cases hr

/-- **What a socket's time-out means.** In every run in which the time-outs set are whole
milliseconds, at least one and a `long`, and the clock does not come to its end: in every state
every call that has reported a time-out had one set and waited at least that long, and one that
never had one set does not report any. And for every table, descriptor, direction and value:
setting a time-out changes neither the time-out of another direction nor whether its calls
suspend. -/
theorem timeouts_honest {pipe : Nat} {is : List TimeoutInput}
    (hm : Meets step Heeded (init pipe) is) :
    Along step Honest (init pipe) is ∧
      ∀ (m : FdManager) (fd g : Nat) (d d' : EventType) (ms : Nat), ¬ (g = fd ∧ d' = d) →
        ((m.setTimeout fd d ms).getContext g).map (fun x => (x.suspends, x.timeout d')) =
          (m.getContext g).map fun x => (x.suspends, x.timeout d') :=
  ⟨(hm.along (fun _ _ _ h hc hs => step_sound h hc hs) (init_sound pipe)).imp fun _ h => h.honest,
    fun _ _ _ _ _ ms h => FdManager.setTimeout_other ms h⟩

/-- Coroutine 1 reads from socket 5 with the time-out `tv` and finds nothing, at the reading 7;
the clock next reads `now`. -/
def readOnce (tv : Timeval) (now : Nat) : List TimeoutInput :=
  [.other (.act (.spawn 1)), .other .run, .dispatch 0, .coSocket 5, .coSetsockopt 5 .read tv,
    .ioInner 5 .read 7, .dispatch 0, .other (.blockPending (fun _ => now) []), .dispatch 0,
    .dispatch 0]

/-- Ten milliseconds. -/
theorem timeouts_honest_ten : Along step Honest (init 3)
    (readOnce ⟨0, 10000, by decide, by decide⟩ 17) :=
  (timeouts_honest (by decide +kernel)).1

/-- Zero is reported as a time-out at once, and so is half a millisecond. -/
theorem not_timeouts_honest :
    (∃ s, run step (init 3) (readOnce ⟨0, 0, by decide, by decide⟩ 7) = some s ∧
      s.reports = [⟨some ⟨0, 0, by decide, by decide⟩, 0⟩] ∧ ¬ s.Honest) ∧
    ∃ s, run step (init 3) (readOnce ⟨0, 500, by decide, by decide⟩ 7) = some s ∧
      s.reports = [⟨some ⟨0, 500, by decide, by decide⟩, 0⟩] ∧ ¬ s.Honest := by
  have hno : ∀ {s : TimeoutSys} {tv : Timeval}, s.reports = [⟨some tv, 0⟩] → ¬ s.Honest := by
    intro s tv hs h
    obtain ⟨tv', -, hpos, hle⟩ := h _ (hs ▸ List.mem_cons_self)
    simp only [Nat.zero_mul] at hle
    omega
  exact ⟨⟨_, rfl, rfl, hno rfl⟩, ⟨_, rfl, rfl, hno rfl⟩⟩

end TimeoutSys

end NetBase
