import NetBase.Coroutine.Dispatch
import NetBase.IO.BlocksIdle

/-!
# Coroutines on their contexts

`CoSys` says which coroutine runs and why another is queued; `Machine` says on which stack the
thread is and what `exec()`, `yield()` and the end of a callback do to the contexts. Here the
first is carried out by the second: `inputs` translates what happens to the coroutines into what
happens to the executors, a suspension to a `yield()`, the closure of a timer to an executor that
queues its coroutine and ends.

Coroutine `c` is executor `2 * c`, the `j`-th closure that runs is executor `2 * j + 1`. A body
stands at the number of suspensions it has behind it, so the place it is resumed at says which
`yield()` it returns from.
-/

namespace NetBase

open Lib

namespace Machine

variable {L : Type} {entry : Nat → L} {m m' : Machine L} {e : Nat} {l : L} {q : List (Option Nat)}

/-! ## Rounds of the loop -/

/-- The loop has taken `e` from the queue and is in its body. -/
structure Enters (m : Machine L) (e : Nat) (l : L) (q : List (Option Nat)) (m' : Machine L) :
    Prop where
  control : m'.control = .body e l
  scheduler : m'.scheduler = { m.scheduler with readyExecutors := q }
  state : ∀ f, m'.state (.callback f) = if f = e then .exec else m.state (.callback f)
  held : m'.held = m.held

/-- The body of `e` has gone back to the loop, leaving `e` in the state `s`. -/
structure Leaves (m : Machine L) (e : Nat) (s : Executor.State) (m' : Machine L) : Prop where
  control : m'.control = .loop
  scheduler : m'.scheduler = m.scheduler
  state : ∀ f, m'.state (.callback f) = if f = e then s else m.state (.callback f)
  held : ∀ f, f ≠ e → m'.held f = m.held f

/-- The loop goes on elsewhere, the executors staying as they are. -/
structure Turns (m : Machine L) (c : Control L) (q : List (Option Nat)) (m' : Machine L) :
    Prop where
  control : m'.control = c
  scheduler : m'.scheduler = { m.scheduler with readyExecutors := q }
  state : ∀ f, m'.state (.callback f) = m.state (.callback f)
  held : m'.held = m.held

theorem round_eq (entry : Nat → L) (hc : m.control = .loop) (hs : m.scheduler.stopped = false) :
    step entry m (.round false []) = some (m.threadScheduleFunc entry false []) ∧
      m.scheduler.stopPending false = false := by
  simp [step, hc, Scheduler.stopPending, hs]

theorem round_enters (entry : Nat → L) (h : m.Placed m.control) (hc : m.control = .loop)
    (hs : m.scheduler.stopped = false) (hq : m.scheduler.readyExecutors = some e :: q)
    (he : m.state (.callback e) = .init ∧ l = entry e ∨
      m.state (.callback e) = .holdUp ∧ m.held e = some l) :
    ∃ m', step entry m (.round false []) = some m' ∧ m.Enters e l q m' := by
  obtain ⟨hstep, hpend⟩ := round_eq entry hc hs
  have htake : (m.addExecutors []).takeReady = (some e, { m with
      scheduler := { m.scheduler with readyExecutors := q }
      taken := m.taken ++ [some e] }) := by
    simp [addExecutors, takeReady, Scheduler.takeReady, hq]
  have hp : ({ m with
      scheduler := { m.scheduler with readyExecutors := q }
      taken := m.taken ++ [some e] } : Machine L).Placed .loop := hc ▸ h
  refine ⟨_, hstep, ?_⟩
  unfold threadScheduleFunc
  rw [hpend, if_neg (by simp), htake]
  dsimp only
  rcases he with ⟨hst, rfl⟩ | ⟨hst, hl⟩
  · rw [if_pos (by simp [hst]), exec_eq_enter hp hst]
    refine ⟨rfl, rfl, fun f => ?_, rfl⟩
    by_cases hf : f = e <;> simp [setState, setContext, hf]
  · obtain ⟨l', hl', heq⟩ := exec_eq_resume entry hp hst
    obtain rfl : l' = l := by simpa [hl] using hl'.symm
    rw [if_pos (by simp [hst]), heq]
    refine ⟨rfl, rfl, fun f => ?_, rfl⟩
    by_cases hf : f = e <;> simp [setState, setContext, hf]

/-- An ended executor is skipped. -/
theorem round_skips (entry : Nat → L) (hc : m.control = .loop) (hs : m.scheduler.stopped = false)
    (hq : m.scheduler.readyExecutors = some e :: q) (he : m.state (.callback e) = .terminal) :
    ∃ m', step entry m (.round false []) = some m' ∧ m.Turns .loop q m' := by
  obtain ⟨hstep, hpend⟩ := round_eq entry hc hs
  refine ⟨_, hstep, ?_⟩
  unfold threadScheduleFunc
  rw [hpend]
  simp only [addExecutors, takeReady, Scheduler.takeReady, List.foldl_nil, hq, he]
  exact ⟨rfl, rfl, fun _ => rfl, rfl⟩

theorem mainYield_turns (entry : Nat → L) (h : m.Placed .loop) :
    m.Turns .ran m.scheduler.readyExecutors (m.mainYield entry .scheduler .leftLoop) := by
  have hat : m.InLoop := h.pos
  simp only [mainYield, hat.scheduler, mainYieldInner]
  rw [if_neg (by simp), swapContext_swap (by simpa [setState, h.base] using hat.base)]
  refine ⟨rfl, rfl, fun f => ?_, rfl⟩
  simp [setState, setContext, goto]

/-- With nothing to run, or a null pointer at the head, the loop blocks or leaves. -/
theorem round_idles (entry : Nat → L) (h : m.Placed m.control) (hc : m.control = .loop)
    (hs : m.scheduler.stopped = false)
    (hq : m.scheduler.readyExecutors = [] ∧ q = [] ∨ m.scheduler.readyExecutors = none :: q) :
    ∃ m', step entry m (.round false []) = some m' ∧
      m.Turns (if m.scheduler.stopping then .ran else .blocking) q m' := by
  obtain ⟨hstep, hpend⟩ := round_eq entry hc hs
  have htake : ∃ ts, (m.addExecutors []).takeReady = (none, { m with
      scheduler := { m.scheduler with readyExecutors := q }, taken := ts }) := by
    rcases hq with ⟨hq, rfl⟩ | hq
    · refine ⟨m.taken, ?_⟩
      simp [addExecutors, takeReady, Scheduler.takeReady, hq]
      rw [← hq]
    · exact ⟨m.taken ++ [none], by simp [addExecutors, takeReady, Scheduler.takeReady, hq]⟩
  obtain ⟨ts, htake⟩ := htake
  have hp : ({ m with
      scheduler := { m.scheduler with readyExecutors := q }, taken := ts } : Machine L).Placed
      .loop := hc ▸ h
  refine ⟨_, hstep, ?_⟩
  unfold threadScheduleFunc
  rw [hpend, htake]
  dsimp only
  obtain ⟨hctl, hsch, hstate, hheld⟩ := mainYield_turns entry hp
  by_cases hst : m.scheduler.stopping = true
  · simp only [if_pos hst]
    exact ⟨hctl, hsch, hstate, hheld⟩
  · simp only [if_neg hst]
    exact ⟨rfl, rfl, fun _ => rfl, rfl⟩

/-! ## Leaving a body -/

theorem check_loop {n : Machine L} (hc : n.control = .returned e)
    (hs : n.state (.callback e) = .holdUp ∨ n.state (.callback e) = .terminal) :
    run (step entry) n [.check] = some (n.goto .loop) := by
  rcases hs with hs | hs <;> simp [run, step, hc, checkReturned, hs]

theorem yield_leaves (entry : Nat → L) (h : m.Placed m.control) {l₀ : L}
    (hc : m.control = .body e l₀) (l : L) :
    ∃ m', run (step entry) m [.act (.yield e) l, .check] = some m' ∧ m.Leaves e .holdUp m' ∧
      m'.held e = some l := by
  have hp : m.Placed (.body e l₀) := hc ▸ h
  have hact : m.act entry e (.yield e) l =
      { ((m.setState (.callback e) .holdUp).setContext (.callback e)
          (.swap .scheduler (.body e l))) with
        held := Function.update m.held e (some l)
        curExecutor := .scheduler, control := .returned e } := by
    simp only [act, yield, if_true, (hp.pos : m.InBody e).state, ne_eq, not_true_eq_false,
      if_false, yieldInner]
    rw [switchToMain_eq entry hp]
  refine ⟨(m.act entry e (.yield e) l).goto .loop, ?_, ?_, ?_⟩
  · refine run_cons (t := m.act entry e (.yield e) l) (by simp [step, hc]) ?_
    rw [hact]
    exact check_loop rfl (.inl (by simp [setState, setContext]))
  · rw [hact]
    refine ⟨rfl, rfl, fun f => ?_, fun f hf => ?_⟩
    · by_cases hf : f = e <;> simp [setState, setContext, goto, hf]
    · simp [goto, hf]
  · rw [hact]
    simp [goto]

theorem ret_leaves (entry : Nat → L) (h : m.Placed m.control) {l₀ : L}
    (hc : m.control = .body e l₀) (l : L) :
    ∃ m', run (step entry) m [.act .ret l, .check] = some m' ∧ m.Leaves e .terminal m' := by
  have hp : m.Placed (.body e l₀) := hc ▸ h
  have hat : m.InBody e := hp.pos
  have hact : m.act entry e .ret l =
      { ((m.setState (.callback e) .terminal).setContext (.callback e)
          (.swap .scheduler .finished)) with
        curExecutor := .scheduler, control := .returned e } := by
    simp only [act, terminal, hat.cur, hat.state, if_true, terminalInner]
    exact switchToMain_eq entry hp .terminal .finished m.held
  refine ⟨(m.act entry e .ret l).goto .loop, ?_, ?_⟩
  · refine run_cons (t := m.act entry e .ret l) (by simp [step, hc]) ?_
    rw [hact]
    exact check_loop rfl (.inr (by simp [setState, setContext]))
  · rw [hact]
    refine ⟨rfl, rfl, fun f => ?_, fun f hf => rfl⟩
    by_cases hf : f = e <;> simp [setState, setContext, goto, hf]

/-- A round that enters a body which queues `x` and ends. -/
theorem round_closure (entry : Nat → L) (h : m.Placed m.control) (hc : m.control = .loop)
    (hs : m.scheduler.stopped = false) (hq : m.scheduler.readyExecutors = some e :: q)
    (he : m.state (.callback e) = .init) (x : Option Nat) (l : L) :
    ∃ m', run (step entry) m [.round false [], .act (.addExecutor x) l, .act .ret l, .check] =
        some m' ∧ m'.control = .loop ∧
      m'.scheduler = (({ m.scheduler with readyExecutors := q } : Scheduler Nat).addExecutor x).2 ∧
      (∀ f, m'.state (.callback f) = if f = e then .terminal else m.state (.callback f)) ∧
      ∀ f, f ≠ e → m'.held f = m.held f := by
  obtain ⟨m₁, hs₁, hent⟩ := round_enters entry h hc hs hq (.inl ⟨he, rfl⟩)
  have hp₁ := (step_follows h hs₁).placed
  have hs₂ : step entry m₁ (.act (.addExecutor x) l) =
      some ((m₁.addExecutor x).2.goto (.body e l)) := by
    simp [step, hent.control, act]
  obtain ⟨m', hs₃, hlv⟩ := ret_leaves entry (step_follows hp₁ hs₂).placed rfl l
  refine ⟨m', run_cons hs₁ (run_cons hs₂ hs₃), hlv.control, ?_, fun f => ?_, fun f hf => ?_⟩
  · rw [hlv.scheduler, ← hent.scheduler]
    rfl
  · rw [hlv.state]
    split
    · rfl
    · rename_i hf
      exact (hent.state f).trans (if_neg hf)
  · rw [hlv.held f hf, ← hent.held]
    rfl

end Machine

/-! ## Coroutines as executors -/

/-- The state of the executor a coroutine runs on. -/
def CoState.executorState : CoState → Executor.State
  | .unborn => .init
  | .start => .init
  | .running => .exec
  | .waiting _ => .holdUp
  | .done => .terminal

/-- The executors in a queue, the closures in it being numbered from `j` on. -/
def named (j : Nat) : List (Option Entry) → List (Option Nat)
  | [] => []
  | none :: q => none :: named j q
  | some (.co c _) :: q => some (2 * c) :: named j q
  | some (.run _) :: q => some (2 * j + 1) :: named (j + 1) q

/-- How many closures are queued. -/
def closures : List (Option Entry) → Nat
  | [] => 0
  | some (.run _) :: q => closures q + 1
  | _ :: q => closures q

theorem named_append (j : Nat) (q r : List (Option Entry)) :
    named j (q ++ r) = named j q ++ named (j + closures q) r := by
  induction q generalizing j with
  | nil => rfl
  | cons x q ih =>
    rcases x with _ | ⟨c, n⟩ | k
    · simp [named, closures, ih]
    · simp [named, closures, ih]
    · simp [named, closures, ih, Nat.add_assoc, Nat.add_comm 1]

namespace CoSys

variable {s t u : CoSys} {m m' : Machine Nat} {c : Nat}

/-- Every body starts with no suspension behind it. -/
def atStart (_ : Nat) : Nat := 0

/-- Where the thread is. -/
def control (s : CoSys) : Control Nat :=
  match s.phase with
  | .setup => .setup
  | .loop => .loop
  | .blocked => .blocking
  | .running c => .body (2 * c) (s.co c).suspension
  | .left => .ran

/-- What the running coroutine `c`, with `n` suspensions behind it, has its executor do. -/
def CoAction.inputs (c n : Nat) : CoAction → List (Machine.Input Nat)
  | .ioInner _ _ _ => [.act (.yield (2 * c)) (n + 1), .check]
  | .coConnect _ => [.act (.yield (2 * c)) (n + 1), .check]
  | .sleepInner _ _ => [.act (.yield (2 * c)) (n + 1), .check]
  | .spawn c' => [.act (.addExecutor (some (2 * c'))) n]
  | .stop => [.act .stop n]
  | .ret => [.act .ret n, .check]
  | .coSocket _ => [.act .compute n]
  | .coClose _ => [.act .compute n]
  | .removeEvent _ _ => [.act .compute n]
  | .setTimeout _ _ _ => [.act .compute n]

/-- What happens to the executors when `i` happens to the coroutines. -/
def inputs (s : CoSys) : CoInput → List (Machine.Input Nat)
  | .submit c => [.submit (some (2 * c))]
  | .run => [.run]
  | .dispatch _ =>
    match s.world.scheduler.takeReady.1 with
    | some (.run k) =>
      [.round false [], .act (.addExecutor (some (2 * k.coroutine))) 0, .act .ret 0, .check]
    | _ => [.round false []]
  | .act a =>
    match s.phase with
    | .running c => a.inputs c (s.co c).suspension
    | _ => []
  | .blockPending clock batch =>
    match s.world.blockPending .run clock batch with
    | .ok w =>
      [.unblock (named (s.ran.length + closures s.world.scheduler.readyExecutors)
        (w.scheduler.readyExecutors.drop s.world.scheduler.readyExecutors.length))]
    | .error _ => []

/-- The executors are in the states their coroutines and closures are in, and a suspended one
goes on after the `yield()` of its coroutine's last suspension. -/
structure Stands (s : CoSys) (m : Machine Nat) : Prop where
  state : ∀ c, m.state (.callback (2 * c)) = (s.co c).state.executorState
  held : ∀ c, (s.co c).state.executorState = .holdUp → m.held (2 * c) = some (s.co c).suspension
  closure : ∀ j, m.state (.callback (2 * j + 1)) = if j < s.ran.length then .terminal else .init
  fresh : ∀ c, (s.co c).state.executorState = .init → (s.co c).suspension = 0

/-- The queues hold the same executors. -/
structure Queues (s : CoSys) (m : Machine Nat) : Prop where
  queue : m.scheduler.readyExecutors = named s.ran.length s.world.scheduler.readyExecutors
  stopping : m.scheduler.stopping = s.world.scheduler.stopping
  exit : s.world.scheduler.exitWithTasksProcessed = true
  graceful : m.scheduler.exitWithTasksProcessed = true
  running : m.scheduler.stopped = false

structure Shows (s : CoSys) (m : Machine Nat) : Prop extends s.Stands m, s.Queues m where
  control : m.control = s.control

/-! ## Queues -/

theorem Queues.congr (h : s.Queues m) (hr : t.ran = s.ran)
    (hw : t.world.scheduler = s.world.scheduler) (hm : m'.scheduler = m.scheduler) :
    t.Queues m' := by
  refine ⟨?_, ?_, ?_, ?_, ?_⟩
  · rw [hm, hr, hw]; exact h.queue
  · rw [hm, hw]; exact h.stopping
  · rw [hw]; exact h.exit
  · rw [hm]; exact h.graceful
  · rw [hm]; exact h.running

/-- Both queues take the coroutine, or both refuse it. -/
theorem Queues.addExecutor {n : Nat} (h : s.Queues m) (hr : t.ran = s.ran)
    (hw : t.world.scheduler = (s.world.scheduler.addExecutor (some (.co c n))).2)
    (hm : m'.scheduler = (m.scheduler.addExecutor (some (2 * c))).2) : t.Queues m' := by
  cases hs : s.world.scheduler.stopping with
  | true =>
    rw [Scheduler.addExecutor_stopping hs] at hw
    rw [Scheduler.addExecutor_stopping (h.stopping.trans hs)] at hm
    exact h.congr hr hw hm
  | false =>
    rw [Scheduler.addExecutor_running hs] at hw
    rw [Scheduler.addExecutor_running (h.stopping.trans hs)] at hm
    refine ⟨?_, ?_, ?_, ?_, ?_⟩
    · rw [hm, hr, hw]
      simp only [h.queue, named_append, named]
    · rw [hm, hw]; exact h.stopping
    · rw [hw]; exact h.exit
    · rw [hm]; exact h.graceful
    · rw [hm]; exact h.running

/-! ## Stacks -/

/-- A step that changes no executor and no coroutine, as far as its executor tells. -/
theorem Stands.congr (h : s.Stands m)
    (hco : ∀ c, (t.co c).state.executorState = (s.co c).state.executorState ∧
      (t.co c).suspension = (s.co c).suspension) (hr : t.ran = s.ran)
    (hm : ∀ f, m'.state (.callback f) = m.state (.callback f)) (hh : m'.held = m.held) :
    t.Stands m' := by
  refine ⟨fun c => ?_, fun c hc => ?_, fun j => ?_, fun c hc => ?_⟩
  · rw [hm, (hco c).1]; exact h.state c
  · rw [(hco c).1] at hc
    rw [hh, (hco c).2]
    exact h.held c hc
  · rw [hm, hr]; exact h.closure j
  · rw [(hco c).1] at hc
    rw [(hco c).2]
    exact h.fresh c hc

/-- Coroutine `c` and its executor change together. -/
theorem Stands.set (h : s.Stands m) {x : Coroutine}
    (hco : t.co = Function.update s.co c x) (hr : t.ran = s.ran)
    (hm : ∀ f, m'.state (.callback f) =
      if f = 2 * c then x.state.executorState else m.state (.callback f))
    (hh : ∀ f, f ≠ 2 * c → m'.held f = m.held f)
    (hx : x.state.executorState = .holdUp → m'.held (2 * c) = some x.suspension)
    (hi : x.state.executorState ≠ .init) : t.Stands m' := by
  have hne : ∀ b, b ≠ c → 2 * b ≠ 2 * c := fun b hb => by omega
  refine ⟨fun b => ?_, fun b hb => ?_, fun j => ?_, fun b hb => ?_⟩
  · rw [hm, hco]
    by_cases hbc : b = c
    · simp [hbc]
    · rw [if_neg (hne b hbc), Function.update_of_ne hbc]
      exact h.state b
  · rw [hco] at hb ⊢
    by_cases hbc : b = c
    · subst hbc
      rw [Function.update_self] at hb ⊢
      exact hx hb
    · rw [Function.update_of_ne hbc] at hb ⊢
      rw [hh _ (hne b hbc)]
      exact h.held b hb
  · rw [hm, if_neg (by omega), hr]
    exact h.closure j
  · rw [hco] at hb ⊢
    by_cases hbc : b = c
    · subst hbc
      rw [Function.update_self] at hb
      exact absurd hb hi
    · rw [Function.update_of_ne hbc] at hb ⊢
      exact h.fresh b hb

/-! ## Every step -/

/-- A callback leaves the coroutines to their executors as they were. -/
theorem runCallback_pictures (s : CoSys) (k : Callback) (b : Nat) :
    ((s.runCallback k).co b).state.executorState = (s.co b).state.executorState ∧
      ((s.runCallback k).co b).suspension = (s.co b).suspension := by
  unfold runCallback
  split
  · exact ⟨rfl, rfl⟩
  · rename_i c n fd d
    dsimp only
    split
    · rename_i fd' d' timer m hx
      split
      · split
        · by_cases hb : b = c
          · subst hb
            simp [setWorld, setCo, hx, CoState.executorState]
          · simp [setWorld, setCo, hb]
        · exact ⟨rfl, rfl⟩
      · exact ⟨rfl, rfl⟩
    · exact ⟨rfl, rfl⟩

theorem runCallback_log {k : Callback} (hf : (s.runCallback k).world.fault = none) :
    (s.runCallback k).ran = s.ran ++ [k] := by
  unfold runCallback at hf ⊢
  split
  · rfl
  · dsimp only at hf ⊢
    split
    · split
      · split
        · rfl
        · rfl
      · rfl
    · rfl

theorem control_congr (hp : t.phase = s.phase)
    (hs : ∀ c, (t.co c).suspension = (s.co c).suspension) : t.control = s.control := by
  unfold control
  rw [hp]
  split <;> simp [hs]

/-- Queueing a new coroutine. -/
theorem Shows.spawn (h : s.Shows m) (hu : (s.co c).state = .unborn)
    (hc : m'.control = m.control) (hk : m'.toStacks = m.toStacks)
    (hm : m'.scheduler = (m.scheduler.addExecutor (some (2 * c))).2) : (s.spawn c).Shows m' := by
  have hpic : ∀ b, ((s.spawn c).co b).state.executorState = (s.co b).state.executorState ∧
      ((s.spawn c).co b).suspension = (s.co b).suspension := by
    intro b
    by_cases hb : b = c
    · subst hb
      have hz := h.fresh b (by rw [hu]; rfl)
      simp [CoSys.spawn, setWorld, setCo, hu, hz, CoState.executorState]
    · simp [CoSys.spawn, setWorld, setCo, hb]
  refine ⟨h.toStands.congr hpic rfl (fun f => ?_) ?_, h.toQueues.addExecutor rfl rfl hm, ?_⟩
  · rw [hk]
  · rw [hk]
  · rw [hc, h.control, control_congr (s := s) (t := s.spawn c) rfl fun b => (hpic b).2]

/-- A coroutine goes back to the loop. -/
theorem Shows.leave (h : s.Shows m) {x : Coroutine}
    (hco : t.co = Function.update s.co c x) (hr : t.ran = s.ran) (hp : t.phase = .loop)
    (hw : t.world.scheduler = s.world.scheduler)
    (hm : m.Leaves (2 * c) x.state.executorState m')
    (hx : x.state.executorState = .holdUp → m'.held (2 * c) = some x.suspension)
    (hi : x.state.executorState ≠ .init) : t.Shows m' where
  toStands := h.toStands.set hco hr hm.state hm.held hx hi
  toQueues := h.toQueues.congr hr hw hm.scheduler
  control := by rw [hm.control, CoSys.control, hp]

/-- The loop turns without entering a body. -/
theorem Shows.turn {p : CoPhase} {k : Control Nat} {q : List (Option Entry)} (h : s.Shows m)
    (hm : m.Turns k (named s.ran.length q) m') (hk : k = CoSys.control { s with phase := p }) :
    CoSys.Shows { s.popped q with phase := p } m' where
  toStands := h.toStands.congr (fun _ => ⟨rfl, rfl⟩) rfl hm.state hm.held
  toQueues := by
    refine ⟨?_, ?_, h.exit, ?_, ?_⟩ <;> rw [hm.scheduler]
    · rfl
    · exact h.stopping
    · exact h.graceful
    · exact h.running
  control := by rw [hm.control, hk]; rfl

theorem resume_ran (n pick : Nat) : (s.resume c n pick).ran = s.ran := by
  unfold resume
  dsimp only
  split
  · unfold call
    split <;> rfl
  · rfl

theorem Resumed.scheduler (h : s.Resumed c t) : t.world.scheduler = s.world.scheduler := by
  rcases h.world with hw | ⟨fd, d, timer, pick, -, hw⟩
  · rw [hw]
  · obtain ⟨k, heq, -⟩ := World.cancelTimer_ok hw
    rw [heq]

/-- The executor of a queued coroutine goes on where the coroutine does. -/
theorem Shows.resume {n pick : Nat} {q : List (Option Entry)} (h : s.Shows m)
    (hp : m.Placed m.control) (hph : s.phase = .loop)
    (hq : s.world.scheduler.readyExecutors = some (.co c n) :: q) (hd : (s.co c).state ≠ .done)
    (hf : ((s.popped q).resume c n pick).world.fault = none) :
    ∃ m', Machine.step atStart m (.round false []) = some m' ∧
      ((s.popped q).resume c n pick).Shows m' := by
  have hc : m.control = .loop := by rw [h.control, CoSys.control, hph]
  have hqm : m.scheduler.readyExecutors = some (2 * c) :: named s.ran.length q := by
    rw [h.queue, hq]
    rfl
  have hstate := h.state c
  have he : m.state (.callback (2 * c)) = .init ∧ (s.co c).suspension = 0 ∨
      m.state (.callback (2 * c)) = .holdUp ∧ m.held (2 * c) = some (s.co c).suspension := by
    have hidle : m.Idle (2 * c) := by
      have hpos := hp.pos
      rw [hc] at hpos
      exact hpos.idle (2 * c)
    rcases hidle with hi | hi | ⟨hi, -⟩
    · exact .inl ⟨hi, h.fresh c (hstate.symm.trans hi)⟩
    · -- only a coroutine that is done has ended
      rw [hi] at hstate
      cases hco : (s.co c).state with
      | done => exact absurd hco hd
      | _ => simp [hco, CoState.executorState] at hstate
    · exact .inr ⟨hi, h.held c (hstate.symm.trans hi)⟩
  obtain ⟨m', hs, hent⟩ := Machine.round_enters atStart hp hc h.running hqm he
  refine ⟨m', hs, ?_⟩
  have hr := resume_resumed hf
  refine ⟨h.toStands.set (c := c) hr.co (resume_ran n pick) hent.state (fun f _ => ?_)
    (fun hx => ?_) (by simp [CoState.executorState]), ?_, ?_⟩
  · rw [hent.held]
  · cases hx
  · refine ⟨?_, ?_, ?_, ?_, ?_⟩
    · rw [hent.scheduler, resume_ran, hr.scheduler]
      rfl
    · rw [hent.scheduler, hr.scheduler]
      exact h.stopping
    · rw [hr.scheduler]
      exact h.exit
    · rw [hent.scheduler]
      exact h.graceful
    · rw [hent.scheduler]
      exact h.running
  · rw [hent.control, CoSys.control, hr.phase, hr.co]
    simp [popped]

/-- A closure runs in an executor of its own, which queues the coroutine and ends. -/
theorem Shows.closure_run {k : Callback} {q : List (Option Entry)} (h : s.Shows m)
    (hp : m.Placed m.control) (hph : s.phase = .loop)
    (hq : s.world.scheduler.readyExecutors = some (.run k) :: q)
    (hf : ((s.popped q).runCallback k).world.fault = none) :
    ∃ m', run (Machine.step atStart) m [.round false [],
        .act (.addExecutor (some (2 * k.coroutine))) 0, .act .ret 0, .check] = some m' ∧
      ((s.popped q).runCallback k).Shows m' := by
  have hc : m.control = .loop := by rw [h.control, CoSys.control, hph]
  have hqm : m.scheduler.readyExecutors =
      some (2 * s.ran.length + 1) :: named (s.ran.length + 1) q := by
    rw [h.queue, hq]
    rfl
  have hinit : m.state (.callback (2 * s.ran.length + 1)) = .init := by
    rw [h.closure]
    simp
  obtain ⟨m', hrun, hctl, hsch, hstate, hheld⟩ :=
    Machine.round_closure atStart hp hc h.running hqm hinit (some (2 * k.coroutine)) 0
  refine ⟨m', hrun, ?_⟩
  have hlog : ((s.popped q).runCallback k).ran = s.ran ++ [k] := runCallback_log hf
  obtain ⟨w, hw, htw⟩ := (runCallback_ran hf).world
  have hpic := runCallback_pictures (s.popped q) k
  refine ⟨⟨fun c => ?_, fun c hc => ?_, fun j => ?_, fun c hc => ?_⟩, ?_, ?_⟩
  · rw [hstate, if_neg (by omega), (hpic c).1]
    exact h.state c
  · rw [(hpic c).1] at hc
    rw [hheld _ (by omega), (hpic c).2]
    exact h.held c hc
  · rw [hlog, List.length_append, List.length_singleton, hstate]
    by_cases hj : j = s.ran.length
    · rw [if_pos (by rw [hj]), if_pos (by omega)]
    · rw [if_neg (by omega), h.closure]
      exact if_congr (by omega) rfl rfl
  · rw [(hpic c).1] at hc
    rw [(hpic c).2]
    exact h.fresh c hc
  · -- the queue without the closure, and then with the coroutine
    have hbefore : Queues { s.popped q with ran := s.ran ++ [k] }
        { m with scheduler := { m.scheduler with readyExecutors := named (s.ran.length + 1) q } } :=
      ⟨by simp [popped], h.stopping, h.exit, h.graceful, h.running⟩
    refine hbefore.addExecutor (c := k.coroutine) (n := k.issued) hlog ?_ hsch
    rw [htw, World.addExecutor, hw.frame.scheduler]
  · rw [hctl, CoSys.control, runCallback_phase]
    simp [popped, hph]

/-- A round of the loop. -/
theorem Shows.dispatch {pick : Nat} (h : s.Shows m) (hp : m.Placed m.control)
    (hph : s.phase = .loop) (hf : (s.dispatch pick).world.fault = none) :
    ∃ m', run (Machine.step atStart) m (s.inputs (.dispatch pick)) = some m' ∧
      (s.dispatch pick).Shows m' := by
  have hc : m.control = .loop := by rw [h.control, CoSys.control, hph]
  have hk : ∀ b : Bool, (if b then Control.ran else .blocking : Control Nat) =
      CoSys.control { s with phase := if b then .left else .blocked } := by
    intro b
    cases b <;> rfl
  have hqm := h.queue
  cases hq : s.world.scheduler.readyExecutors with
  | nil =>
    rw [hq] at hqm
    obtain ⟨m', hs, hm⟩ := Machine.round_idles atStart hp hc h.running (.inl ⟨hqm, rfl⟩)
    refine ⟨m', ?_, ?_⟩
    · simp only [inputs, Scheduler.takeReady, hq]
      exact run_cons hs rfl
    · have hpop : s.popped [] = s := by rw [popped, ← hq]
      have ht := h.turn (q := []) hm (by rw [h.stopping]; exact hk _)
      rw [hpop] at ht
      simpa only [CoSys.dispatch, Scheduler.takeReady, hq] using ht
  | cons x q =>
    rw [hq] at hqm
    simp only [CoSys.dispatch, inputs, Scheduler.takeReady, hq] at hf ⊢
    rcases x with _ | ⟨c, n⟩ | k
    · obtain ⟨m', hs, hm⟩ := Machine.round_idles atStart hp hc h.running (.inr hqm)
      exact ⟨m', run_cons hs rfl, h.turn hm (by rw [h.stopping]; exact hk _)⟩
    · simp only at hf ⊢
      by_cases hd : (s.co c).state = .done
      · have he : m.state (.callback (2 * c)) = .terminal := by rw [h.state, hd]; rfl
        obtain ⟨m', hs, hm⟩ := Machine.round_skips atStart hc h.running hqm he
        rw [if_pos hd]
        have ht := h.turn (p := .loop) hm rfl
        refine ⟨m', run_cons hs rfl, ?_⟩
        rw [← hph] at ht
        exact ht
      · rw [if_neg hd] at hf ⊢
        obtain ⟨m', hs, hm⟩ := h.resume hp hph hq hd hf
        exact ⟨m', run_cons hs rfl, hm⟩
    · exact h.closure_run hp hph hq hf

theorem Shows.body (h : s.Shows m) (hp : s.phase = .running c) :
    m.control = .body (2 * c) (s.co c).suspension := by
  rw [h.control, CoSys.control, hp]

/-- A call that leaves the queue and the coroutines alone. -/
theorem Shows.compute (h : s.Shows m) (hp : s.phase = .running c) (hco : t.co = s.co)
    (hr : t.ran = s.ran) (hph : t.phase = s.phase)
    (hw : t.world.scheduler = s.world.scheduler) :
    ∃ m', run (Machine.step atStart) m [.act .compute (s.co c).suspension] = some m' ∧
      t.Shows m' := by
  have hc := h.body hp
  refine ⟨m.goto m.control, ?_, h.toStands.congr (fun b => ?_) hr (fun _ => rfl) rfl,
    h.toQueues.congr hr hw rfl, ?_⟩
  · simp [run, Machine.step, hc, Machine.act]
  · rw [hco]
    exact ⟨rfl, rfl⟩
  · rw [control_congr hph fun b => by rw [hco]]
    exact h.control

theorem Shows.call {r : Except Fault (World Entry Callback)} (h : s.Shows m)
    (hp : s.phase = .running c) (hr : ∀ w, r = .ok w → s.world.Still w)
    (hf : (s.call r).world.fault = none) :
    ∃ m', run (Machine.step atStart) m [.act .compute (s.co c).suspension] = some m' ∧
      (s.call r).Shows m' := by
  obtain ⟨w, rfl, heq⟩ := call_alive hf
  rw [heq]
  exact h.compute hp rfl rfl rfl (hr w rfl).frame.scheduler

theorem Shows.suspend {wait : Wait} {r : Except Fault (World Entry Callback)} (h : s.Shows m)
    (hpl : m.Placed m.control) (hp : s.phase = .running c) (hr : ∀ w, r = .ok w → s.world.Frame w)
    (hf : (s.suspend c wait r).world.fault = none) :
    ∃ m', run (Machine.step atStart) m
        [.act (.yield (2 * c)) ((s.co c).suspension + 1), .check] = some m' ∧
      (s.suspend c wait r).Shows m' := by
  obtain ⟨w, rfl, heq⟩ := suspend_alive hf
  obtain ⟨m', hrun, hlv, hheld⟩ :=
    Machine.yield_leaves atStart hpl (h.body hp) ((s.co c).suspension + 1)
  rw [heq]
  exact ⟨m', hrun, h.leave rfl rfl rfl (hr w rfl).scheduler hlv (fun _ => hheld)
    (by simp [CoState.executorState])⟩

theorem Shows.act {a : CoAction} (h : s.Shows m) (hpl : m.Placed m.control)
    (hp : s.phase = .running c) (ha : ActEffect s c a t) (hf : t.world.fault = none) :
    ∃ m', run (Machine.step atStart) m (a.inputs c (s.co c).suspension) = some m' ∧
      t.Shows m' := by
  have hc := h.body hp
  cases ha with
  | ioInner fd d curMs ms =>
    refine h.suspend hpl hp (fun w hw => ?_) hf
    obtain ⟨u, hu, hre⟩ := ok_of_bind hw
    obtain ⟨⟨r, w'⟩, hreg, rfl⟩ := ok_of_map hre
    exact (World.startTimer_frame hu).trans (World.registerEvent_frame hreg)
  | coConnect fd =>
    refine h.suspend hpl hp (fun w hw => ?_) hf
    obtain ⟨⟨r, w'⟩, hreg, rfl⟩ := ok_of_map hw
    exact World.registerEvent_frame (d := .write) hreg
  | sleepInner ms curMs => exact h.suspend hpl hp (fun w hw => World.startTimer_frame hw) hf
  | @spawn c' hu =>
    refine ⟨(m.addExecutor (some (2 * c'))).2.goto m.control, ?_, h.spawn hu rfl rfl rfl⟩
    simp [CoAction.inputs, run, Machine.step, hc, Machine.act]
  | coSocket fd => exact h.call hp (fun w hw => World.coSocket_still hw) hf
  | coClose fd => exact h.call hp (fun w hw => World.coClose_still hw) hf
  | removeEvent fd events => exact h.call hp (fun w hw => World.removeEvent_still hw) hf
  | setTimeout fd d ms => exact h.compute hp rfl rfl rfl rfl
  | stop =>
    refine ⟨{ m with scheduler := m.scheduler.stop }.goto m.control, ?_, ?_⟩
    · simp [CoAction.inputs, run, Machine.step, hc, Machine.act]
    · have hsm : m.scheduler.stop = { m.scheduler with stopping := true } := by
        simp [Scheduler.stop, h.graceful]
      have hss : s.world.stop.scheduler = { s.world.scheduler with stopping := true } := by
        simp [World.stop, Scheduler.stop, h.exit]
      refine ⟨h.toStands.congr (fun _ => ⟨rfl, rfl⟩) rfl (fun _ => rfl) rfl, ?_, h.control⟩
      refine ⟨?_, ?_, ?_, ?_, ?_⟩ <;> simp only [Machine.goto, hsm, hss]
      · exact h.queue
      · exact h.exit
      · exact h.graceful
      · exact h.running
  | ret =>
    obtain ⟨m', hrun, hlv⟩ := Machine.ret_leaves atStart hpl hc (s.co c).suspension
    exact ⟨m', hrun, h.leave rfl rfl rfl rfl hlv (fun hx => by cases hx)
      (by simp [CoState.executorState])⟩

theorem Shows.run (h : s.Shows m) (hpl : m.Placed m.control) (hp : s.phase = .setup) :
    ∃ m', Lib.run (Machine.step atStart) m [.run] = some m' ∧
      CoSys.Shows { s with phase := .loop } m' := by
  have hc : m.control = .setup := by rw [h.control, CoSys.control, hp]
  refine ⟨m.mainExec atStart .scheduler .ran, by simp [Lib.run, Machine.step, hc], ?_⟩
  rw [Machine.mainExec_eq (hc ▸ hpl)]
  refine ⟨h.toStands.congr (fun _ => ⟨rfl, rfl⟩) rfl (fun f => ?_) rfl,
    h.toQueues.congr rfl rfl rfl, rfl⟩
  simp [Machine.setState, Machine.setContext]

theorem addExecutors_scheduler (hs : m.scheduler.stopping = false) (es : List (Option Nat)) :
    (m.addExecutors es).scheduler =
        { m.scheduler with readyExecutors := m.scheduler.readyExecutors ++ es } ∧
      (m.addExecutors es).toStacks = m.toStacks := by
  refine ⟨?_, Machine.addExecutors_stacks m es⟩
  induction es generalizing m with
  | nil => simp [Machine.addExecutors]
  | cons x es ih =>
    have hadd : (m.addExecutor x).2.scheduler =
        { m.scheduler with readyExecutors := m.scheduler.readyExecutors ++ [x] } := by
      simp [Machine.addExecutor, Scheduler.addExecutor_running hs]
    have hnext := ih (m := (m.addExecutor x).2) (by rw [hadd]; exact hs)
    rw [hadd] at hnext
    simpa [Machine.addExecutors, List.append_assoc] using hnext

theorem Shows.blockPending {clock : Nat → Nat} {batch : List EpollEvent} (h : s.Shows m)
    (ht : s.Tidy) (hp : s.phase = .blocked) (hb : s.world.epoll.Reports batch)
    (hf : (s.call (s.world.blockPending .run clock batch)).world.fault = none) :
    ∃ m', Lib.run (Machine.step atStart) m (s.inputs (.blockPending clock batch)) = some m' ∧
      CoSys.Shows { s.call (s.world.blockPending .run clock batch) with phase := .loop } m' := by
  have hc : m.control = .blocking := by rw [h.control, CoSys.control, hp]
  obtain ⟨w, hw, heq⟩ := call_alive hf
  have hwakes := World.blockPending_wakes ht.world hb (ht.blocked hp) hw
  obtain ⟨l, hq, -⟩ := hwakes.queue
  have hdrop : w.scheduler.readyExecutors.drop s.world.scheduler.readyExecutors.length = l := by
    rw [hq, List.drop_left]
  simp only [inputs, hw, hdrop, CoSys.call]
  have hst : m.scheduler.stopping = false := h.stopping.trans (ht.blocked hp)
  obtain ⟨hsch, hk⟩ := addExecutors_scheduler hst
    (named (s.ran.length + closures s.world.scheduler.readyExecutors) l)
  refine ⟨(m.addExecutors (named (s.ran.length + closures s.world.scheduler.readyExecutors) l)).goto
    .loop, by simp [Lib.run, Machine.step, hc], ?_⟩
  refine ⟨h.toStands.congr (fun _ => ⟨rfl, rfl⟩) rfl (fun f => ?_) ?_, ?_, rfl⟩
  · simp only [Machine.goto, hk]
  · simp only [Machine.goto, hk]
  · refine ⟨?_, ?_, ?_, ?_, ?_⟩ <;> simp only [Machine.goto, hsch, setWorld]
    · rw [hq, named_append, h.queue]
    · rw [hwakes.mode.stopping]
      exact h.stopping
    · rw [hwakes.mode.exit]
      exact h.exit
    · exact h.graceful
    · exact h.running

theorem alive_shows {i : CoInput} (h : s.Shows m) (hpl : m.Placed m.control) (ht : s.Tidy)
    (hs : s.alive i = some t) :
    ∃ m', Lib.run (Machine.step atStart) m (s.inputs i) = some m' ∧ t.Shows m' := by
  obtain ⟨hs, hf⟩ := alive_inv hs
  cases step_effect hs with
  | @submit c hp hu =>
    have hc : m.control = .setup := by rw [h.control, CoSys.control, hp]
    refine ⟨(m.addExecutor (some (2 * c))).2, ?_, h.spawn hu rfl rfl rfl⟩
    simp [inputs, Lib.run, Machine.step, hc]
  | run hp => exact h.run hpl hp
  | dispatch hp => exact h.dispatch hpl hp hf
  | act hp ha =>
    simp only [inputs, hp]
    exact h.act hpl hp ha hf
  | blockPending hp hb => exact h.blockPending ht hp hb hf

theorem init_shows (pipe : Nat) : (init pipe).Shows (Machine.init true) where
  state _ := rfl
  held _ hc := by cases hc
  closure _ := rfl
  fresh _ _ := rfl
  queue := rfl
  stopping := rfl
  exit := rfl
  graceful := rfl
  running := rfl
  control := rfl

/-- **Coroutines on contexts.** Every run of coroutines on a manager is carried out by the
executors and their contexts: step by step translated it is a run of `executor.cpp` and the
dispatch loop in which no assertion fails, and the thread, the queue and every executor end up
where the manager, its queue and the coroutines are. A suspended coroutine stands after the
`yield()` of its last suspension, and a closure that has run has ended its executor. -/
theorem runs_on_contexts {pipe : Nat} {is : List CoInput} {u : CoSys}
    (hr : Lib.run alive (init pipe) is = some u) :
    ∃ m, Lib.run (Machine.step atStart) (Machine.init true)
      (translated alive inputs (init pipe) is) = some m ∧ u.Shows m := by
  have hstep : ∀ (s : CoSys) i t (m : Machine Nat),
      (s.Shows m ∧ m.Placed m.control ∧ s.Tidy) → s.alive i = some t →
      ∃ m', Lib.run (Machine.step atStart) m (s.inputs i) = some m' ∧
        t.Shows m' ∧ m'.Placed m'.control ∧ t.Tidy := by
    rintro s i t m ⟨h, hpl, ht⟩ hs
    obtain ⟨m', hrun, hsh⟩ := alive_shows h hpl ht hs
    have hpl' := run_inv (I := fun m => m.Placed m.control)
      (fun _ _ _ hp hs => (Machine.step_follows hp hs).placed) hpl hrun
    exact ⟨m', hrun, hsh, hpl', alive_tidy ht hs⟩
  obtain ⟨m, hm, hu, -, -⟩ := run_translated hstep
    ⟨init_shows pipe, Machine.placed_init true, init_tidy pipe⟩ hr
  exact ⟨m, hm, hu⟩

/-- Coroutine 1 sleeps, the loop blocks, and at 120 the closure of its timer wakes it. -/
def nap : List CoInput :=
  [.submit 1, .run, .dispatch 0, .act (.sleepInner 100 0), .dispatch 0,
    .blockPending (fun _ => 120) [], .dispatch 0, .dispatch 0]

/-- Executor 2 is in its body after its first `yield()`, and the closure's executor has ended. -/
theorem runs_on_contexts_nap : ∃ m, Lib.run (Machine.step atStart) (Machine.init true)
      (translated alive inputs (init 3) nap) = some m ∧
    m.control = .body 2 1 ∧ m.state (.callback 1) = .terminal := by
  have hfacts : ∀ u ∈ Lib.run alive (init 3) nap,
      u.control = .body 2 1 ∧ u.ran.length = 1 := by decide +kernel
  obtain ⟨u, hu⟩ := Option.isSome_iff_exists.1
    (show (Lib.run alive (init 3) nap).isSome = true by decide +kernel)
  obtain ⟨hc, hl⟩ := hfacts u hu
  obtain ⟨m, hm, hs⟩ := runs_on_contexts hu
  refine ⟨m, hm, hs.control.trans hc, ?_⟩
  simpa [hl] using hs.closure 0

end CoSys

end NetBase
