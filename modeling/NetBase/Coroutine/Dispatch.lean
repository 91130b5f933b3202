import NetBase.Coroutine.Switch

/-!
# The order of dispatch

The ready queue of a graceful scheduler, for every program of coroutines that queues
executors, yields, ends, kills and stops. `Queue.Fifo` says that what the loop took, followed
by what is still queued, is what `addExecutor` accepted. No switch touches the queue, so only
`addExecutor` and the head of a round of the loop have to be looked at.
-/

namespace NetBase

open Lib

/-- The ledger of a graceful scheduler whose queue holds no null pointer. -/
structure Queue.Fifo (q : Queue) : Prop where
  fifo : q.taken ++ q.scheduler.readyExecutors = q.accepted
  nonNull : none ∉ q.scheduler.readyExecutors
  graceful : q.scheduler.exitWithTasksProcessed = true
  running : q.scheduler.stopped = false

namespace Machine

variable {L : Type} {entry : Nat → L} {m m' : Machine L} {e : Nat} {l : L}

/-- The input queues no null pointer. -/
def Input.NonNull : Input L → Prop
  | .submit executor => executor ≠ none
  | .round _ remote => none ∉ remote
  | .unblock executors => none ∉ executors
  | .act (.addExecutor executor) _ => executor ≠ none
  | _ => True

/-! ## Switches leave the queue alone -/

@[simp] theorem swapContext_queue (m : Machine L) (src dst : Tid) (ret : Control L) :
    (m.swapContext entry src dst ret).toQueue = m.toQueue := by
  unfold swapContext
  split
  · rfl
  · unfold executorMainFunc
    split <;> rfl
  · rfl

theorem doExec_queue (m : Machine L) (t : Tid) (main : Bool) (ret : Control L) :
    (m.doExec entry t main ret).toQueue = m.toQueue := by
  cases hs : m.state t <;> cases main <;>
    simp [doExec, hs, goto, execInner, mainExecInner, setState, initToReady, setContext]

theorem exec_queue (m : Machine L) (t : Tid) (ret : Control L) :
    (m.exec entry t ret).toQueue = m.toQueue := by
  unfold exec
  split
  · rfl
  · exact doExec_queue m t false ret

theorem mainYield_queue (m : Machine L) (t : Tid) (ret : Control L) :
    (m.mainYield entry t ret).toQueue = m.toQueue := by
  unfold mainYield
  split <;> simp [goto, mainYieldInner, setState]

/-! ## Queue operations -/

theorem addExecutor_fifo {x : Option Nat} (h : m.Fifo) (hx : x ≠ none) :
    (m.addExecutor x).2.Fifo := by
  cases hst : m.scheduler.stopping with
  | true =>
    have hsame : (m.addExecutor x).2 = m := by
      simp [addExecutor, Scheduler.addExecutor_stopping hst]
    rw [hsame]
    exact h
  | false =>
    have hadd := Scheduler.addExecutor_running hst x
    refine ⟨?_, ?_, ?_, ?_⟩ <;> simp only [addExecutor, hadd, if_true]
    · rw [← List.append_assoc, h.fifo]
    · simpa [List.mem_append] using ⟨h.nonNull, Ne.symm hx⟩
    · exact h.graceful
    · exact h.running

theorem addExecutors_fifo {es : List (Option Nat)} (h : m.Fifo) (hes : none ∉ es) :
    (m.addExecutors es).Fifo := by
  induction es generalizing m with
  | nil => exact h
  | cons x es ih =>
    rw [List.mem_cons, not_or] at hes
    exact ih (addExecutor_fifo h (Ne.symm hes.1)) hes.2

/-- What the loop takes from the queue: nothing when it is empty, else the oldest entry. -/
theorem takeReady_cases (h : m.Fifo) :
    m.scheduler.readyExecutors = [] ∧ m.takeReady = (none, m) ∨
    ∃ e rest, m.scheduler.readyExecutors = some e :: rest ∧
      m.takeReady = (some e, { m with
        scheduler := { m.scheduler with readyExecutors := rest }
        taken := m.taken ++ [some e] }) := by
  cases hr : m.scheduler.readyExecutors with
  | nil => exact .inl ⟨rfl, by simp [takeReady, Scheduler.takeReady, hr]⟩
  | cons x rest =>
    cases x with
    | none => exact absurd (by simp [hr]) h.nonNull
    | some e => exact .inr ⟨e, rest, rfl, by simp [takeReady, Scheduler.takeReady, hr]⟩

theorem take_fifo {rest : List (Option Nat)} (h : m.Fifo)
    (hr : m.scheduler.readyExecutors = some e :: rest) :
    Queue.Fifo { m with
      scheduler := { m.scheduler with readyExecutors := rest }
      taken := m.taken ++ [some e] } where
  fifo := by rw [← h.fifo, hr]; simp
  nonNull hn := h.nonNull (hr ▸ List.mem_cons_of_mem _ hn)
  graceful := h.graceful
  running := h.running

/-! ## One round of the loop -/

/-- A round of a graceful loop: it leaves with the queue empty, blocks with the queue empty,
skips an ended executor, or runs the oldest entry. -/
inductive Round (entry : Nat → L) (m : Machine L) : Machine L → Prop
  | leave (hr : m.scheduler.readyExecutors = []) (hs : m.scheduler.stopping = true) :
    Round entry m (m.mainYield entry .scheduler .leftLoop)
  | block (hr : m.scheduler.readyExecutors = []) (hs : m.scheduler.stopping = false) :
    Round entry m (m.goto .blocking)
  | skip {e rest} (hr : m.scheduler.readyExecutors = some e :: rest)
      (hs : m.state (.callback e) = .terminal ∨ m.state (.callback e) = .aborted) :
    Round entry m ({ m with
      scheduler := { m.scheduler with readyExecutors := rest }
      taken := m.taken ++ [some e] }.goto .loop)
  | exec {e rest} (hr : m.scheduler.readyExecutors = some e :: rest)
      (hs : m.state (.callback e) ≠ .terminal ∧ m.state (.callback e) ≠ .aborted) :
    Round entry m ({ m with
      scheduler := { m.scheduler with readyExecutors := rest }
      taken := m.taken ++ [some e] }.exec entry (.callback e) (.returned e))

theorem threadScheduleFunc_round {pending : Bool} {remote : List (Option Nat)} (h : m.Fifo)
    (hn : none ∉ remote) :
    Round entry (m.addExecutors remote) (m.threadScheduleFunc entry pending remote) := by
  have hf := addExecutors_fifo h hn
  have hp : m.scheduler.stopPending pending = false := by
    simp [Scheduler.stopPending, h.running]
  unfold threadScheduleFunc
  rw [hp, if_neg (by simp)]
  obtain ⟨hr, ht⟩ | ⟨e, rest, hr, ht⟩ := takeReady_cases hf <;> rw [ht] <;> dsimp only
  · split
    · rename_i hs
      exact .leave hr hs
    · rename_i hs
      exact .block hr (by simpa using hs)
  · split
    · rename_i hs
      exact .exec hr hs
    · rename_i hs
      exact .skip hr (by by_contra hc; exact hs (by simpa using hc))

theorem exec_control (h : m.Placed .loop) (hs : m.state (.callback e) ≠ .terminal) :
    (m.exec entry (.callback e) (.returned e)).control ≠ .ran := by
  obtain hi | hi | ⟨hi, -⟩ := (h.pos : m.InLoop).idle e
  · rw [exec_eq_enter h hi]; simp
  · exact absurd hi hs
  · obtain ⟨l, -, heq⟩ := exec_eq_resume entry h hi
    rw [heq]; simp

/-- The ledger, and an empty queue once `run()` has returned. -/
structure Orderly (m : Machine L) : Prop where
  placed : m.Placed m.control
  fifo : m.Fifo
  left : m.control = .ran → m.scheduler.readyExecutors = [] ∧ m.scheduler.stopping = true

theorem Round.orderly (h : Round entry m m') (hp : m.Placed .loop) (hf : m.Fifo)
    (hp' : m'.Placed m'.control) : m'.Orderly := by
  cases h with
  | leave hr hs =>
    refine ⟨hp', ?_, fun _ => ?_⟩ <;> rw [mainYield_queue]
    · exact hf
    · exact ⟨hr, hs⟩
  | block hr hs => exact ⟨hp', hf, fun hc => by cases hc⟩
  | skip hr hs => exact ⟨hp', take_fifo hf hr, fun hc => by cases hc⟩
  | exec hr hs =>
    refine ⟨hp', ?_, fun hc => absurd hc (exec_control hp hs.1)⟩
    rw [exec_queue]
    exact take_fifo hf hr

theorem Round.stopping (h : Round entry m m') :
    m'.scheduler.stopping = m.scheduler.stopping := by
  cases h with
  | leave => rw [mainYield_queue]
  | block => rfl
  | skip => rfl
  | exec => rw [exec_queue]

theorem addExecutors_stopping (m : Machine L) (es : List (Option Nat)) :
    (m.addExecutors es).scheduler.stopping = m.scheduler.stopping := by
  induction es generalizing m with
  | nil => rfl
  | cons x es ih => rw [← (m.scheduler.addExecutor_flags x).1]; exact ih (m.addExecutor x).2

/-! ## Every step -/

theorem Acts.orderly {a : Action} {l' : L} (ha : Acts m e l' a m') (h : m.Fifo)
    (hn : (Input.act a l').NonNull) (hp' : m'.Placed m'.control) : m'.Orderly := by
  cases ha with
  | compute => exact ⟨hp', h, fun hc => by cases hc⟩
  | addExecutor x => exact ⟨hp', addExecutor_fifo h hn, fun hc => by cases hc⟩
  | stop =>
    refine ⟨hp', ?_, fun hc => by cases hc⟩
    have hs : m.scheduler.stop = { m.scheduler with stopping := true } := by
      simp [Scheduler.stop, h.graceful]
    simp only [goto, hs]
    exact ⟨h.fifo, h.nonNull, h.graceful, h.running⟩
  | ignored => exact ⟨hp', h, fun hc => by cases hc⟩
  | killed => exact ⟨hp', h, fun hc => by cases hc⟩
  | left => exact ⟨hp', h, fun hc => by cases hc⟩

theorem Acts.stopping {a : Action} {l' : L} (ha : Acts m e l' a m')
    (hs : m.scheduler.stopping = true) : m'.scheduler.stopping = true := by
  cases ha with
  | addExecutor x => exact (m.scheduler.addExecutor_flags x).1.trans hs
  | stop =>
    show m.scheduler.stop.stopping = true
    unfold Scheduler.stop
    split
    · rfl
    · exact hs
  | _ => exact hs

theorem step_orderly {i : Input L} (h : m.Orderly) (hn : i.NonNull)
    (hs : step entry m i = some m') : m'.Orderly := by
  have hp' := (step_follows h.placed hs).placed
  unfold step at hs
  split at hs <;> cases hs <;> rename_i hc
  · exact ⟨hp', addExecutor_fifo h.fifo hn, fun hr => by cases hc.symm.trans hr⟩
  · refine ⟨hp', ?_, fun hr => ?_⟩
    · rw [mainExec, doExec_queue]
      exact h.fifo
    · rw [mainExec_eq (hc ▸ h.placed)] at hr
      cases hr
  · refine (threadScheduleFunc_round h.fifo hn).orderly ?_ (addExecutors_fifo h.fifo hn) hp'
    rw [addExecutors_stacks, ← hc]
    exact h.placed
  · exact ⟨hp', addExecutors_fifo h.fifo hn, fun hr => by cases hr⟩
  · rw [checkReturned_eq (hc ▸ h.placed)] at hp' ⊢
    exact ⟨hp', h.fifo, fun hr => by cases hr⟩
  · exact (act_acts (hc ▸ h.placed) _ _).orderly h.fifo hn hp'

theorem step_stopping {i : Input L} (h : m.Orderly) (hn : i.NonNull)
    (hs : step entry m i = some m') (hst : m.scheduler.stopping = true) :
    m'.scheduler.stopping = true := by
  unfold step at hs
  split at hs <;> cases hs <;> rename_i hc
  · exact (m.scheduler.addExecutor_flags _).1.trans hst
  · rw [mainExec, doExec_queue]
    exact hst
  · rw [(threadScheduleFunc_round h.fifo hn).stopping, addExecutors_stopping]
    exact hst
  · exact (addExecutors_stopping m _).trans hst
  · rw [checkReturned_eq (hc ▸ h.placed)]
    exact hst
  · exact (act_acts (hc ▸ h.placed) _ _).stopping hst

theorem orderly_init : (init true : Machine L).Orderly :=
  ⟨placed_init true, ⟨rfl, by simp [init], rfl, rfl⟩, fun h => by cases h⟩

theorem addExecutors_taken (m : Machine L) (es : List (Option Nat)) :
    (m.addExecutors es).taken = m.taken := by
  induction es generalizing m with
  | nil => rfl
  | cons x es ih => exact ih (m.addExecutor x).2

/-- Taking an ended executor from the queue runs nothing. -/
theorem Round.skips (h : Round entry m m') (ht : m'.taken = m.taken ++ [some e])
    (he : m.state (.callback e) = .terminal) : m'.control = .loop ∧ m'.toStacks = m.toStacks := by
  cases h with
  | leave => rw [mainYield_queue] at ht; simp at ht
  | block => simp [goto] at ht
  | skip => exact ⟨rfl, rfl⟩
  | @exec e' rest hr hs =>
    rw [exec_queue] at ht
    obtain rfl : e' = e := by simpa using ht
    exact absurd he hs.1

theorem step_skips {i : Input L} (h : m.Orderly) (hn : i.NonNull)
    (hs : step entry m i = some m') (ht : m'.taken = m.taken ++ [some e])
    (he : m.state (.callback e) = .terminal) : m'.control = .loop ∧ m'.toStacks = m.toStacks := by
  unfold step at hs
  split at hs <;> cases hs <;> rename_i hc
  · simp [addExecutor] at ht
  · rw [mainExec, doExec_queue] at ht
    simp at ht
  · have hskip := (threadScheduleFunc_round h.fifo hn).skips (e := e)
      (by rw [addExecutors_taken]; exact ht) (by rw [addExecutors_stacks]; exact he)
    rwa [addExecutors_stacks] at hskip
  · simp [goto, addExecutors_taken] at ht
  · rw [checkReturned_eq (hc ▸ h.placed)] at ht
    simp [goto] at ht
  · have htaken : ∀ {a : Action} {l' : L} {f : Nat} {n : Machine L}, Acts m f l' a n →
        n.taken = m.taken := fun ha => by cases ha <;> rfl
    rw [htaken (act_acts (hc ▸ h.placed) _ _)] at ht
    simp at ht

/-- **FIFO dispatch.** At every point of a run: what the loop took, followed by the queue, is
what `addExecutor` accepted; an ended executor taken from the queue is skipped; after a
`stop()` every `addExecutor` returns false and changes nothing; and once the loop has been
left the queue is empty. -/
theorem fifo_dispatch {is : List (Input L)} (hn : ∀ i ∈ is, i.NonNull)
    (hr : run (step entry) (init true) is = some m) :
    m.taken ++ m.scheduler.readyExecutors = m.accepted ∧
    (∀ i m' e, i.NonNull → step entry m i = some m' → m'.taken = m.taken ++ [some e] →
      m.state (.callback e) = .terminal → m'.control = .loop ∧ m'.toStacks = m.toStacks) ∧
    (∀ l m₁ js m₂, step entry m (.act .stop l) = some m₁ → (∀ i ∈ js, i.NonNull) →
      run (step entry) m₁ js = some m₂ → ∀ x, m₂.addExecutor x = (false, m₂)) ∧
    (m.control = .ran → m.scheduler.readyExecutors = []) := by
  have ho : m.Orderly :=
    run_inv_of (fun _ _ _ h hn hs => step_orderly h hn hs) hn orderly_init hr
  refine ⟨ho.fifo.fifo, fun i m' e hi hs => step_skips ho hi hs, ?_, fun hc => (ho.left hc).1⟩
  intro l m₁ js m₂ hs hjs hr' x
  have hst : m₁.scheduler.stopping = true := by
    cases hc : m.control with
    | body e l₀ =>
      simp only [step, hc, Option.some.injEq] at hs
      rw [← hs]
      simp [act, goto, Scheduler.stop, ho.fifo.graceful]
    | _ => simp [step, hc] at hs
  have hlater := run_inv_of (I := fun n : Machine L => n.Orderly ∧ n.scheduler.stopping = true)
    (fun _ _ _ h hn hs => ⟨step_orderly h.1 hn hs, step_stopping h.1 hn hs h.2⟩) hjs
    ⟨step_orderly (i := .act .stop l) ho trivial hs, hst⟩ hr'
  simp [addExecutor, Scheduler.addExecutor_stopping hlater.2]

/-- The second executor queues itself, kills the first one, stops and yields: the queued entry
of the first is skipped, its own is run, and the loop leaves with the queue empty. -/
theorem fifo_dispatch_kill : ∃ m : Machine Nat,
    run (step fun _ => 0) (init true) [.submit (some 1), .submit (some 0), .submit (some 2), .run,
      .round false [], .act (.addExecutor (some 1)) 1, .act (.kill 0) 2, .act .stop 3,
      .act (.addExecutor (some 0)) 4, .act (.yield 1) 5, .check, .round false [], .round false [],
      .act .ret 1, .check, .round false [], .act .ret 6, .check, .round false []] = some m ∧
    (m.control = .ran ∧ m.accepted = [some 1, some 0, some 2, some 1]) ∧
    m.scheduler.readyExecutors = [] ∧ m.taken ++ m.scheduler.readyExecutors = m.accepted := by
  refine run_and ⟨_, rfl, rfl, rfl⟩ fun m hr hm => ?_
  have h := fifo_dispatch (by simp [Input.NonNull]) hr
  exact ⟨h.2.2.2 hm.1, h.1⟩

end Machine

end NetBase
