import NetBase.IO.CoIo
import NetBase.IO.Events
import NetBase.Lib.Runs

/-!
# Graceful stop

`stop()` of a manager whose scheduler has `exit_with_tasks_processed` set. From then on the
scheduler refuses executors and the manager refuses timers and events, and the dispatch loop
leaves as soon as it takes nothing from the queue. What is in the queue runs; a coroutine that
waits, or starts to wait, has no wake-up left and is abandoned, and so is what is queued behind
a null pointer. `Prepared` lists what a program has to take care of itself.
-/

namespace NetBase

open Lib

def CoPhase.executor : CoPhase → Option ExecutorPtr
  | .running c => some (.co c)
  | _ => none

/-- The executors queued ahead of the first null pointer. -/
def ahead : List (Option Entry) → List ExecutorPtr
  | some e :: q => e.executor :: ahead q
  | _ => []

namespace World

variable {w w' : World Entry Callback} {fd : Nat} {d : EventType} {ev : EpollEvent}

/-- The call does not touch the flags of the manager and of its scheduler. -/
structure SameMode (w w' : World Entry Callback) : Prop where
  stopped : w'.stopped = w.stopped
  stopping : w'.scheduler.stopping = w.scheduler.stopping
  exit : w'.scheduler.exitWithTasksProcessed = w.scheduler.exitWithTasksProcessed

/-- Nor the queue. -/
structure Frame (w w' : World Entry Callback) : Prop where
  stopped : w'.stopped = w.stopped
  scheduler : w'.scheduler = w.scheduler

theorem Frame.sameMode (h : w.Frame w') : w.SameMode w' :=
  ⟨h.stopped, by rw [h.scheduler], by rw [h.scheduler]⟩

theorem SameMode.refl (w : World Entry Callback) : w.SameMode w := ⟨rfl, rfl, rfl⟩

theorem SameMode.trans {u : World Entry Callback} (h : w.SameMode u) (h' : u.SameMode w') :
    w.SameMode w' :=
  ⟨h'.stopped.trans h.stopped, h'.stopping.trans h.stopping, h'.exit.trans h.exit⟩

theorem addExecutor_sameMode (w : World Entry Callback) (x : Option Entry) :
    w.SameMode (w.addExecutor x) :=
  have hf := Scheduler.addExecutor_flags w.scheduler x
  ⟨rfl, hf.1, hf.2.2⟩

theorem Frame.trans {u : World Entry Callback} (h : w.Frame u) (h' : u.Frame w') : w.Frame w' :=
  ⟨h'.stopped.trans h.stopped, h'.scheduler.trans h.scheduler⟩

/-- A stopping scheduler refuses executors. -/
theorem addExecutor_frame (hs : w.scheduler.stopping = true) (x : Option Entry) :
    w.Frame (w.addExecutor x) :=
  ⟨rfl, by rw [addExecutor, Scheduler.addExecutor_stopping hs]⟩

theorem removeEvent_frame {events : BitVec 32} (h : w.removeEvent fd events = .ok w') :
    w.Frame w' := by
  rcases removeEvent_inv h with ⟨-, rfl⟩ | ⟨f, -, -, k, rfl⟩
  · exact ⟨rfl, rfl⟩
  · exact ⟨rfl, rfl⟩

theorem coClose_frame (h : w.coClose fd = .ok w') : w.Frame w' := by
  obtain ⟨u, fds, hu, rfl⟩ := coClose_ok h
  rcases hu with rfl | hu
  · exact ⟨rfl, rfl⟩
  · have hf := removeEvent_frame hu
    exact ⟨hf.stopped, hf.scheduler⟩

theorem registerEvent_frame {x : Option Entry} {b r : Bool}
    (h : w.registerEvent fd d.mask x b = .ok (r, w')) : w.Frame w' := by
  rcases registerEvent_ok h with rfl | ⟨-, k, rfl⟩
  · exact ⟨rfl, rfl⟩
  · exact ⟨rfl, rfl⟩

theorem startTimer_frame {curMs ms : Nat} {k : Callback}
    (h : (CoSys.startTimer w curMs ms k).2 = .ok w') : w.Frame w' := by
  simp only [CoSys.startTimer, registerTimer, TimerManager.newTimer] at h
  split at h
  · cases h; exact ⟨rfl, rfl⟩
  · cases h; exact ⟨rfl, rfl⟩

theorem updateEvents_frame {f : FdEvents Entry} {left : BitVec 32}
    (h : w.updateEvents fd f left = .ok w') : w.Frame w' := by
  unfold updateEvents at h
  split at h
  · split at h
    · obtain ⟨k, -, h⟩ := ok_of_bind h
      cases h
      exact ⟨rfl, rfl⟩
    · obtain ⟨k, -, h⟩ := ok_of_bind h
      cases h
      exact ⟨rfl, rfl⟩
  · cases h
    exact ⟨rfl, rfl⟩

theorem enqueue_sameMode (h : w.enqueue ev d = .ok w') : w.SameMode w' := by
  unfold enqueue at h
  split at h
  · obtain ⟨f, -, h⟩ := ok_of_bind h
    have hflags := Scheduler.addExecutor_flags w.scheduler (f.executor d)
    cases hadd : w.scheduler.addExecutor (f.executor d) with
    | mk addRet scheduler =>
      rw [hadd] at h hflags
      simp only at h
      split at h
      · cases h
        exact ⟨rfl, hflags.1, hflags.2.2⟩
      · cases h
  · cases h
    exact .refl w

theorem handleEvent_sameMode {first : Nat} (h : w.handleEvent first ev = .ok w') :
    w.SameMode w' := by
  unfold handleEvent at h
  split at h
  · cases h
    exact .refl w
  · obtain ⟨f, -, h⟩ := ok_of_bind h
    obtain ⟨left, -, h⟩ := ok_of_bind h
    obtain ⟨left', -, h⟩ := ok_of_bind h
    obtain ⟨u, hu, h⟩ := ok_of_bind h
    obtain ⟨v, hv, h⟩ := ok_of_bind h
    exact ((updateEvents_frame hu).sameMode.trans (enqueue_sameMode hv)).trans (enqueue_sameMode h)

theorem handleEvents_sameMode {first : Nat} {batch : List EpollEvent}
    (h : w.handleEvents first batch = .ok w') : w.SameMode w' := by
  induction batch generalizing w with
  | nil => cases h; exact .refl _
  | cons ev batch ih =>
    obtain ⟨u, hu, h⟩ := ok_of_bind h
    exact (handleEvent_sameMode hu).trans (ih h)

theorem runTimers_sameMode {ts : List (Timer Callback)} (h : w.runTimers .run ts = .ok w') :
    w.SameMode w' := by
  induction ts generalizing w with
  | nil => cases h; exact .refl _
  | cons t ts ih =>
    unfold runTimers at h
    split at h
    · cases h
    · exact (addExecutor_sameMode w _).trans (ih h)

theorem blockPending_sameMode {clock : Nat → Nat} {batch : List EpollEvent}
    (h : w.blockPending .run clock batch = .ok w') : w.SameMode w' := by
  simp only [blockPending] at h
  obtain ⟨u, hu, h⟩ := ok_of_bind h
  have hmode := runTimers_sameMode hu
  have hu' : w.SameMode u := ⟨hmode.stopped, hmode.stopping, hmode.exit⟩
  cases batch with
  | nil => cases h; exact hu'
  | cons first batch => exact hu'.trans (handleEvents_sameMode h)

end World

namespace CoSys

variable {s t : CoSys} {c : Nat}

/-- The executor has run to its end. -/
def Terminal (s : CoSys) : ExecutorPtr → Prop
  | .co c => (s.co c).state = .done
  | .callback k => k ∈ s.ran

instance (s : CoSys) : (x : ExecutorPtr) → Decidable (s.Terminal x)
  | .co _ => inferInstanceAs (Decidable (_ = _))
  | .callback _ => inferInstanceAs (Decidable (_ ∈ _))

/-- The executor is running, or the loop will take it before a null pointer. -/
def Owed (s : CoSys) (x : ExecutorPtr) : Prop :=
  s.phase.executor = some x ∨ x ∈ ahead s.world.scheduler.readyExecutors

instance (s : CoSys) (x : ExecutorPtr) : Decidable (s.Owed x) :=
  inferInstanceAs (Decidable (_ ∨ _))

/-- At the first `stop()` every accepted executor is done, running or in the queue ahead of any
null pointer; after it no coroutine starts to wait. -/
def Prepared (s : CoSys) : CoInput → Prop
  | .act .stop => s.world.stopped = false →
    ∀ e ∈ s.accepted, s.Terminal e.executor ∨ s.Owed e.executor
  | .act (.ioInner ..) | .act (.coConnect _) | .act (.sleepInner ..) => s.world.stopped = false
  | _ => True

instance (s : CoSys) : (i : CoInput) → Decidable (s.Prepared i)
  | .act .stop => inferInstanceAs (Decidable (_ → _))
  | .act (.ioInner ..) | .act (.coConnect _) | .act (.sleepInner ..) =>
    inferInstanceAs (Decidable (_ = _))
  | .act (.spawn _) | .act (.coSocket _) | .act (.coClose _) | .act (.removeEvent ..)
  | .act (.setTimeout ..) | .act .ret | .submit _ | .run | .dispatch _ | .blockPending .. =>
    .isTrue trivial

structure Graceful (s : CoSys) : Prop where
  mode : s.world.scheduler.exitWithTasksProcessed = true
  flags : s.world.stopped = s.world.scheduler.stopping
  blocked : s.phase = .blocked → s.world.scheduler.stopping = false
  left : s.phase = .left → ∀ e ∈ s.accepted, s.Terminal e.executor
  kept : s.world.scheduler.stopping = true →
    ∀ e ∈ s.accepted, s.Terminal e.executor ∨ s.Owed e.executor

/-- A step that, once the scheduler is stopping, accepts nothing and loses nobody. -/
theorem Graceful.move (h : s.Graceful) (hw : s.world.SameMode t.world)
    (hb : t.phase = .blocked → s.world.scheduler.stopping = false) (hl : t.phase ≠ .left)
    (hk : s.world.scheduler.stopping = true → t.accepted = s.accepted ∧
      ∀ x, s.Terminal x ∨ s.Owed x → t.Terminal x ∨ t.Owed x) : t.Graceful where
  mode := hw.exit.trans h.mode
  flags := hw.stopped.trans (h.flags.trans hw.stopping.symm)
  blocked hp := hw.stopping.trans (hb hp)
  left hp := absurd hp hl
  kept hs e he := by
    obtain ⟨ha, hx⟩ := hk (hw.stopping.symm.trans hs)
    exact hx _ (h.kept (hw.stopping.symm.trans hs) e (ha ▸ he))

/-- While the scheduler accepts executors nothing is promised. -/
theorem Graceful.move_running (h : s.Graceful) (hw : s.world.SameMode t.world)
    (hs : s.world.scheduler.stopping = false) (hl : t.phase ≠ .left) : t.Graceful :=
  h.move hw (fun _ => hs) hl fun hs' => by rw [hs] at hs'; cases hs'

theorem setWorld_accepted {w : World Entry Callback} (h : s.world.Frame w) :
    (s.setWorld w).accepted = s.accepted := by
  simp only [setWorld, h.scheduler, List.drop_length]
  exact List.append_nil _

theorem Graceful.fail (h : s.Graceful) (e : Fault) : (s.fail e).Graceful where
  mode := h.mode
  flags := h.flags
  blocked := h.blocked
  left := h.left
  kept := h.kept

theorem Graceful.suspend {wait : Wait} {r : Except Fault (World Entry Callback)} (h : s.Graceful)
    (hs : s.world.stopped = false) (hr : ∀ w, r = .ok w → s.world.Frame w) :
    (s.suspend c wait r).Graceful := by
  cases r with
  | error e => exact h.fail e
  | ok w =>
    exact h.move_running (hr w rfl).sameMode (h.flags.symm.trans hs) (by simp [CoSys.suspend])

/-- A coroutine that is not done may change its state. -/
theorem terminal_setCo {x : Coroutine} (hc : (s.co c).state ≠ .done) {y : ExecutorPtr}
    (h : s.Terminal y) : (s.setCo c x).Terminal y := by
  cases y with
  | callback k => exact h
  | co c' =>
    have hne : c' ≠ c := by rintro rfl; exact hc h
    show (Function.update s.co c x c').state = .done
    rw [Function.update_of_ne hne]
    exact h

/-- Whoever is owed a turn is owed one as long as the queue and the running one are the same. -/
theorem owed_congr {x : ExecutorPtr} (hp : t.phase = s.phase)
    (hw : t.world.scheduler = s.world.scheduler) (h : s.Owed x) : t.Owed x := by
  rw [Owed, hp, hw]
  exact h

theorem Graceful.call {r : Except Fault (World Entry Callback)} (h : s.Graceful)
    (hp : s.phase ≠ .left) (hr : ∀ w, r = .ok w → s.world.Frame w) : (s.call r).Graceful := by
  cases r with
  | error e => exact h.fail e
  | ok w =>
    have hf := hr w rfl
    refine h.move hf.sameMode h.blocked hp fun _ => ⟨setWorld_accepted hf, fun x hx => ?_⟩
    exact hx.imp id (owed_congr (s := s) rfl hf.scheduler)

theorem Graceful.spawn (h : s.Graceful) (hp : s.phase ≠ .left) (hu : (s.co c).state = .unborn) :
    (s.spawn c).Graceful := by
  refine h.move (World.addExecutor_sameMode _ _) h.blocked hp fun hs => ?_
  have hf := World.addExecutor_frame hs (some (.co c 0))
  refine ⟨setWorld_accepted (s := s.setCo c ⟨.start, 0⟩) hf, fun x hx => ?_⟩
  exact hx.imp (terminal_setCo (by simp [hu])) (owed_congr (s := s) rfl hf.scheduler)

theorem Graceful.stop (h : s.Graceful) (hp : s.phase = .running c)
    (hc : s.Prepared (.act .stop)) : Graceful { s with world := s.world.stop } := by
  have hsched : s.world.stop.scheduler = { s.world.scheduler with stopping := true } := by
    simp only [World.stop, Scheduler.stop, h.mode, if_true]
  have hkept : ∀ e ∈ s.accepted, s.Terminal e.executor ∨ s.Owed e.executor := by
    cases hs : s.world.stopped with
    | false => exact hc hs
    | true => exact h.kept (h.flags.symm.trans hs)
  refine ⟨?_, ?_, fun hb => ?_, fun hl => ?_, fun _ e he => ?_⟩
  · rw [hsched]
    exact h.mode
  · rw [hsched]
    rfl
  · cases hp.symm.trans hb
  · cases hp.symm.trans hl
  · apply (hkept e he).imp id
    intro ho
    rw [Owed, hsched]
    exact ho

/-- The coroutine that runs returns. -/
theorem Graceful.ret (h : s.Graceful) (hp : s.phase = .running c) :
    Graceful { s.setCo c { s.co c with state := .done } with phase := .loop } := by
  have hdone : ∀ {x : ExecutorPtr}, s.Terminal x ∨ x = .co c →
      (s.setCo c { s.co c with state := .done }).Terminal x := by
    rintro x hx
    by_cases hxc : x = .co c
    · subst hxc
      show (Function.update s.co c _ c).state = .done
      rw [Function.update_self]
    · cases x with
      | callback k => exact hx.resolve_right hxc
      | co c' =>
        have hne : c' ≠ c := fun hcc => hxc (by rw [hcc])
        show (Function.update s.co c _ c').state = .done
        rw [Function.update_of_ne hne]
        exact hx.resolve_right hxc
  refine h.move (.refl _) (fun hb => by cases hb) (by simp) fun _ => ⟨rfl, fun x hx => ?_⟩
  rcases hx with hx | hx | hx
  · exact .inl (hdone (.inl hx))
  · rw [hp] at hx
    exact .inl (hdone (.inr (Option.some.inj hx).symm))
  · exact .inr (.inr hx)

theorem Graceful.act {a : CoAction} (h : s.Graceful) (hp : s.phase = .running c)
    (hc : s.Prepared (.act a)) (ha : ActEffect s c a t) : t.Graceful := by
  have hl : s.phase ≠ .left := by rw [hp]; simp
  cases ha with
  | ioInner fd d curMs ms =>
    apply h.suspend hc
    intro w hw
    obtain ⟨u, hu, hre⟩ := ok_of_bind (show ((startTimer s.world _ _ _).2 >>= _) = _ from hw)
    obtain ⟨⟨r, w'⟩, hreg, rfl⟩ := ok_of_map hre
    exact (World.startTimer_frame hu).trans (World.registerEvent_frame hreg)
  | coConnect fd =>
    apply h.suspend hc
    intro w hw
    obtain ⟨⟨r, w'⟩, hreg, rfl⟩ := ok_of_map hw
    exact World.registerEvent_frame (d := .write) hreg
  | sleepInner => exact h.suspend hc fun w hw => World.startTimer_frame hw
  | spawn hu => exact h.spawn hl hu
  | coSocket =>
    apply h.call hl
    intro w hw
    obtain ⟨fds, rfl⟩ := World.coSocket_ok hw
    exact ⟨rfl, rfl⟩
  | coClose => exact h.call hl fun w hw => World.coClose_frame hw
  | removeEvent => exact h.call hl fun w hw => World.removeEvent_frame hw
  | setTimeout => exact h.move ⟨rfl, rfl, rfl⟩ h.blocked hl fun _ => ⟨rfl, fun x hx => hx⟩
  | stop => exact h.stop hp hc
  | ret => exact h.ret hp

/-! ## The dispatch loop -/

/-- The loop takes nothing: it leaves when everybody is done. -/
theorem Graceful.idle {w : World Entry Callback} (h : s.Graceful) (hw : s.world.SameMode w)
    (hp : s.phase = .loop) (hq : ahead s.world.scheduler.readyExecutors = []) :
    Graceful { s with world := w, phase := if w.scheduler.stopping then .left else .blocked } := by
  have hall : s.world.scheduler.stopping = true → ∀ e ∈ s.accepted, s.Terminal e.executor := by
    intro hs e he
    rcases h.kept hs e he with ht | ho | ho
    · exact ht
    · rw [hp] at ho
      cases ho
    · rw [hq] at ho
      cases ho
  refine ⟨hw.exit.trans h.mode, hw.stopped.trans (h.flags.trans hw.stopping.symm), fun hb => ?_,
    fun hl => ?_, fun hs e he => .inl (hall (hw.stopping.symm.trans hs) e he)⟩
  · simp only at hb
    split at hb
    · cases hb
    · exact eq_false_of_ne_true ‹_›
  · simp only at hl
    split at hl
    · exact hall (hw.stopping.symm.trans ‹_›)
    · cases hl

/-- What running a timer's callback does to the bookkeeping. -/
structure Called (s : CoSys) (k : Callback) (t : CoSys) : Prop where
  mode : s.world.SameMode t.world
  ran : t.ran = s.ran ++ [k]
  done : ∀ c, (s.co c).state = .done → (t.co c).state = .done
  refused : s.world.scheduler.stopping = true →
    t.accepted = s.accepted ∧ t.world.scheduler = s.world.scheduler

theorem called_runCallback (s : CoSys) (k : Callback) : s.Called k (s.runCallback k) := by
  have hqueue : ∀ {w : World Entry Callback} (x : Option Entry), s.world.Frame w →
      s.world.SameMode (w.addExecutor x) ∧
        (s.world.scheduler.stopping = true → s.world.Frame (w.addExecutor x)) := fun x hf =>
    ⟨hf.sameMode.trans (World.addExecutor_sameMode _ x), fun hs =>
      hf.trans (World.addExecutor_frame (by rw [hf.scheduler]; exact hs) x)⟩
  have hplain : ∀ c n, s.Called k (({ s with ran := s.ran ++ [k] } : CoSys).setWorld
      (s.world.addExecutor (some (.co c n)))) := by
    intro c n
    obtain ⟨hm, hf⟩ := hqueue (some (.co c n)) (w := s.world) ⟨rfl, rfl⟩
    exact ⟨hm, rfl, fun _ hd => hd, fun hs =>
      ⟨setWorld_accepted (s := { s with ran := s.ran ++ [k] }) (hf hs), (hf hs).scheduler⟩⟩
  cases k with
  | wake c n => exact hplain c n
  | timeout c n fd d =>
    simp only [runCallback]
    split
    · rename_i fd' d' timer m hx
      split
      · cases hr : s.world.removeEvent fd d.mask with
        | error e =>
          exact ⟨⟨rfl, rfl, rfl⟩, rfl, fun _ hd => hd, fun _ => ⟨rfl, rfl⟩⟩
        | ok w =>
          obtain ⟨hm, hf⟩ := hqueue (some (.co c n)) (World.removeEvent_frame hr)
          refine ⟨hm, rfl, fun c' hd => ?_, fun hs => ⟨?_, (hf hs).scheduler⟩⟩
          · exact terminal_setCo (y := .co c') (by rw [hx]; simp) hd
          · exact setWorld_accepted (s := ({ s with ran := _ } : CoSys).setCo _ _) (hf hs)
      · exact hplain c n
    · exact hplain c n

/-- The loop takes an executor: its turn is over, or it is the one running now. -/
theorem Graceful.take {e : Entry} {q : List (Option Entry)} (h : s.Graceful)
    (hp : s.phase = .loop) (hq : s.world.scheduler.readyExecutors = some e :: q)
    (hw : s.world.SameMode t.world) (hb : t.phase ≠ .blocked) (hl : t.phase ≠ .left)
    (he : t.Terminal e.executor ∨ t.phase.executor = some e.executor)
    (hk : s.world.scheduler.stopping = true → t.accepted = s.accepted ∧
      t.world.scheduler.readyExecutors = q ∧ ∀ x, s.Terminal x → t.Terminal x) : t.Graceful := by
  apply h.move hw (fun hb' => absurd hb' hb) hl
  intro hs
  obtain ⟨hacc, hqt, hterm⟩ := hk hs
  refine ⟨hacc, fun x hx => ?_⟩
  rcases hx with hx | hx | hx
  · exact .inl (hterm x hx)
  · rw [hp] at hx
    cases hx
  · rw [hq] at hx
    rcases List.mem_cons.1 hx with rfl | hx
    · exact he.imp id .inl
    · exact .inr (.inr (hqt ▸ hx))

theorem resume_spec (n pick : Nat) (hd : (s.co c).state ≠ .done) :
    s.world.Frame (s.resume c n pick).world ∧ (s.resume c n pick).accepted = s.accepted ∧
      ∀ x, s.Terminal x → (s.resume c n pick).Terminal x := by
  have hterm : ∀ x, s.Terminal x →
      (s.setCo c { s.co c with state := .running }).Terminal x := fun x => terminal_setCo hd
  simp only [resume]
  split
  · rename_i timer _
    cases hr : s.world.cancelTimer pick timer with
    | error e =>
      simp only [setCo, hr]
      exact ⟨⟨rfl, rfl⟩, rfl, hterm⟩
    | ok w =>
      obtain ⟨m, rfl, -⟩ := World.cancelTimer_ok hr
      simp only [setCo, hr]
      exact ⟨⟨rfl, rfl⟩, setWorld_accepted (s := { s with co := _ }) ⟨rfl, rfl⟩, hterm⟩
  · exact ⟨⟨rfl, rfl⟩, rfl, hterm⟩

theorem Graceful.dispatch {pick : Nat} (h : s.Graceful) (hp : s.phase = .loop) :
    (s.dispatch pick).Graceful := by
  cases hq : s.world.scheduler.readyExecutors with
  | nil =>
    simp only [CoSys.dispatch, Scheduler.takeReady, hq]
    exact h.idle (.refl _) hp (by rw [hq]; rfl)
  | cons x q =>
    simp only [CoSys.dispatch, Scheduler.takeReady, hq]
    set u : CoSys := { s with world := { s.world with
      scheduler := { s.world.scheduler with readyExecutors := q } } }
    have hmode : s.world.SameMode u.world := ⟨rfl, rfl, rfl⟩
    match x with
    | none => exact h.idle hmode hp (by rw [hq]; rfl)
    | some (.run k) =>
      have hcall := called_runCallback u k
      have hloop : u.phase = .loop := hp
      have hran : ∀ l, l ∈ s.ran ∨ l = k → l ∈ (u.runCallback k).ran := fun l hl => by
        rw [hcall.ran]
        exact List.mem_append.2 (hl.imp id List.mem_singleton.2)
      refine h.take hp hq (hmode.trans hcall.mode) (by simp [hloop]) (by simp [hloop])
        (.inl (hran k (.inr rfl))) fun hs => ?_
      obtain ⟨hacc, hsched⟩ := hcall.refused hs
      refine ⟨hacc, by rw [hsched], fun y hy => ?_⟩
      cases y with
      | co c => exact hcall.done c hy
      | callback l => exact hran l (.inl hy)
    | some (.co c n) =>
      simp only
      split
      · rename_i hd
        refine h.take (t := u) hp hq hmode ?_ ?_ (.inl hd) fun _ => ⟨rfl, rfl, fun _ hx => hx⟩
        · rw [show u.phase = _ from hp]; simp
        · rw [show u.phase = _ from hp]; simp
      · rename_i hd
        obtain ⟨hf, hacc, hterm⟩ := resume_spec (s := u) n pick hd
        refine h.take hp hq (hmode.trans hf.sameMode) (by simp) (by simp)
          (.inr (by rw [resume_phase]; rfl)) fun _ => ⟨hacc, by rw [hf.scheduler], hterm⟩

theorem Graceful.blockPending {clock : Nat → Nat} {batch : List EpollEvent} (h : s.Graceful)
    (hp : s.phase = .blocked) :
    Graceful { s.call (s.world.blockPending .run clock batch) with phase := .loop } := by
  have hrun := h.blocked hp
  cases hr : s.world.blockPending .run clock batch with
  | error e => exact h.move_running ⟨rfl, rfl, rfl⟩ hrun (by simp)
  | ok w => exact h.move_running (World.blockPending_sameMode hr) hrun (by simp)

end CoSys

end NetBase
