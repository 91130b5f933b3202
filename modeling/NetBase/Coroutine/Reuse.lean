import NetBase.Coroutine.UContext

/-!
# Executors that run again

`Executor::reuse()` sets an ended executor to its entry again, for the registrations that are to
be called more than once. With `ucontext_t`, `resetContext` makes the context anew. A restarted
executor is in state `Ready`, and `Machine.asNew` does not tell it from a new one, so that the
control flow is that of a program without `reuse()`.
-/

namespace NetBase

open Lib

variable {L : Type} {entry : Nat → L} {m m' : Machine L} {e : Nat} {l : L}

/-- What a program may do when its contexts are `ucontext_t`s. There is no `reset()`: what it does
to the stacks is in `NetBase.Coroutine.StackMemory`. -/
inductive ReuseInput (L : Type)
  | step (i : Machine.Input L)
  /-- `reuse()`, before `run()`, in `block_pending_func_` or in a coroutine. -/
  | reuse (e : Nat)

namespace Backend

open Machine

/-- `resetContext`: `makecontext` on the executor's `ucontext_t` and its zeroed stack, which an
executor that has never run does not have. -/
def resetContext (m : Machine L) (t : Tid) : Machine L :=
  match m.context t with
  | none => m.goto (.failed .nullContext)
  | some _ => m.setContext t .entry

/-- `reuse`, of an executor made from a callback. -/
def reuse (m : Machine L) (e : Nat) : Machine L :=
  if m.state (.callback e) = .terminal then
    resetContext (m.setState (.callback e) .ready) (.callback e)
  else m

def reuseStep (entry : Nat → L) (m : Machine L) : ReuseInput L → Option (Machine L)
  | .step i => (ucontext entry).step m i
  | .reuse e =>
    match m.control with
    | .setup => some (reuse m e)
    | .blocking => some (reuse m e)
    | .body _ _ => some (reuse m e)
    | _ => none

/-- What `reuse()` comes to: nothing, the end of the process, or the executor at its entry. -/
theorem reuse_cases (m : Machine L) (e : Nat) :
    m.state (.callback e) ≠ .terminal ∧ reuse m e = m ∨
    m.state (.callback e) = .terminal ∧ m.context (.callback e) = none ∧
      reuse m e = (m.setState (.callback e) .ready).goto (.failed .nullContext) ∨
    m.state (.callback e) = .terminal ∧
      reuse m e = (m.setState (.callback e) .ready).setContext (.callback e) .entry := by
  unfold reuse resetContext
  by_cases hs : m.state (.callback e) = .terminal
  · rw [if_pos hs]
    cases hc : m.context (.callback e) with
    | none => exact .inr (.inl ⟨hs, rfl, by simp [setState, hc]⟩)
    | some c => exact .inr (.inr ⟨hs, by simp [setState, hc]⟩)
  · exact .inl ⟨hs, if_neg hs⟩

/-- A restarted executor is as good as a new one. -/
theorem Good.restart (h : Good m) (hs : m.state (.callback e) = .terminal)
    (hc : (∃ f l, m.control = .body f l) ∨ m.control = .setup ∨ m.control = .blocking) :
    Good ((m.setState (.callback e) .ready).setContext (.callback e) .entry) := by
  have hmade : ((m.setState (.callback e) .ready).setContext (.callback e) .entry).Made := by
    refine ⟨?_, fun t ht => ?_, fun t hb ht => ?_⟩
    · simpa [setContext, setState] using h.made.base
    · by_cases hte : t = .callback e
      · simp [setContext, hte]
      · simpa [setContext, setState, hte] using
          h.made.running t (by simpa [setState, setContext, hte] using ht)
    · by_cases hte : t = .callback e
      · simp [setContext, hte]
      · simpa [setContext, setState, hte] using
          h.made.ready t hb (by simpa [setState, setContext, hte] using ht)
  have hidle : ∀ f, m.asNew.Idle f →
      ((m.setState (.callback e) .ready).setContext (.callback e) .entry).asNew.Idle f := by
    intro f hf
    by_cases hfe : f = e
    · exact .inl (by simp [asNew, setState, setContext, hfe])
    · exact hf.congr (by simp [asNew, setState, setContext, hfe])
        (by simp [asNew, setState, setContext, hfe]) rfl
  refine ⟨⟨h.placed.main, h.placed.base, ?_⟩, hmade⟩
  have hpos := h.placed.pos
  rcases hc with ⟨f, l, hc⟩ | hc | hc <;>
    simp only [setContext, setState, hc] at hpos ⊢
  · have hat : m.asNew.InBody f := hpos
    have hne : f ≠ e := by
      rintro rfl
      have := Executor.State.asNew_eq_exec.1 hat.state
      rw [hs] at this
      cases this
    exact ⟨hat.cur, by simpa [asNew, hne] using hat.state, by simpa [asNew] using hat.scheduler,
      by simpa [asNew] using hat.base, by simpa [asNew] using hat.loop,
      fun g hg => hidle g (hat.idle g hg)⟩
  · exact ⟨hpos.1, by simpa [asNew] using hpos.2.1, fun f => hidle f (hpos.2.2 f)⟩
  · have hat : m.asNew.InLoop := hpos
    exact ⟨hat.cur, by simpa [asNew] using hat.scheduler, by simpa [asNew] using hat.base,
      fun f => hidle f (hat.idle f)⟩

/-- What an input does: a step of the program without `reuse()`, the end of the process, or
the restart of an ended executor. -/
theorem reuseStep_cases {i : ReuseInput L} (hs : reuseStep entry m i = some m') :
    (∃ j, i = .step j ∧ (ucontext entry).step m j = some m') ∨
    (∃ e, i = .reuse e ∧
      ((∃ f l, m.control = .body f l) ∨ m.control = .setup ∨ m.control = .blocking) ∧
      m' = reuse m e) := by
  cases i with
  | step j => exact .inl ⟨j, rfl, hs⟩
  | reuse e =>
    refine .inr ⟨e, rfl, ?_⟩
    simp only [reuseStep] at hs
    split at hs <;> cases hs
    · rename_i hc
      exact ⟨.inr (.inl hc), rfl⟩
    · rename_i hc
      exact ⟨.inr (.inr hc), rfl⟩
    · rename_i f l hc
      exact ⟨.inl ⟨f, l, hc⟩, rfl⟩

theorem Good.reuseStep {i : ReuseInput L} (h : Good m) (hs : reuseStep entry m i = some m') :
    Good m' ∨ ∃ e, i = .reuse e ∧ m'.control = .failed .nullContext ∧
      m'.context (.callback e) = none := by
  rcases reuseStep_cases hs with ⟨j, rfl, hj⟩ | ⟨e, rfl, hc, rfl⟩
  · exact .inl (h.step hj)
  rcases reuse_cases m e with ⟨-, heq⟩ | ⟨-, hn, heq⟩ | ⟨ht, heq⟩ <;> rw [heq]
  · exact .inl h
  · exact .inr ⟨e, rfl, rfl, hn⟩
  · exact .inl (h.restart ht hc)

theorem reuseStep_failed {a : Assertion} (hc : m.control = .failed a) (i : ReuseInput L) :
    reuseStep entry m i = none := by
  cases i <;> simp [reuseStep, step, hc]

theorem run_failed {a : Assertion} {is : List (ReuseInput L)} (hc : m.control = .failed a)
    (hr : Lib.run (reuseStep entry) m is = some m') : is = [] ∧ m' = m := by
  cases is with
  | nil => cases hr; exact ⟨rfl, rfl⟩
  | cons i is =>
    obtain ⟨n, hn, -⟩ := run_cons_inv hr
    rw [reuseStep_failed hc] at hn
    cases hn

/-- Every state is good, but the one after a `reuse()` of an executor that never ran. -/
theorem Good.run {is : List (ReuseInput L)} (h : Good m)
    (hr : run (Backend.reuseStep entry) m is = some m') :
    Good m' ∨ ∃ js e, is = js ++ [.reuse e] ∧ m'.control = .failed .nullContext ∧
      m'.context (.callback e) = none := by
  induction is generalizing m with
  | nil => cases hr; exact .inl h
  | cons i is ih =>
    obtain ⟨n, hn, hrest⟩ := run_cons_inv hr
    rcases h.reuseStep hn with hg | ⟨e, rfl, hc, hx⟩
    · rcases ih hg hrest with hg | ⟨js, e, rfl, hc, hx⟩
      · exact .inl hg
      · exact .inr ⟨i :: js, e, rfl, hc, hx⟩
    · obtain ⟨rfl, rfl⟩ := run_failed hc hrest
      exact .inr ⟨[], e, rfl, hc, hx⟩

theorem Good.body (h : Good m) (hc : m.control = .body e l) :
    m.curExecutor = .callback e ∧ m.state (.callback e) = .exec := by
  have hat : m.asNew.InBody e := by
    have hpos := h.placed.pos
    rwa [hc] at hpos
  exact ⟨hat.cur, Executor.State.asNew_eq_exec.1 hat.state⟩

theorem Good.returned (h : Good m) (hc : m.control = .returned e) :
    m.curExecutor = .scheduler ∧
      (m.state (.callback e) = .holdUp ∨ m.state (.callback e) = .terminal) := by
  have hpos := h.placed.pos
  rw [hc] at hpos
  exact ⟨hpos.1.cur, by simpa [asNew] using hpos.2⟩

theorem Good.resumed {i : ReuseInput L} (h : Good m) (hs : Backend.reuseStep entry m i = some m')
    (hn : ∀ l', m.control ≠ .body e l') (hc : m'.control = .body e l) :
    (m.state (.callback e) = .init ∨ m.state (.callback e) = .ready) ∧ l = entry e ∨
      m.state (.callback e) = .holdUp ∧ m.held e = some l := by
  rcases reuseStep_cases hs with ⟨j, rfl, hj⟩ | ⟨f, rfl, -, rfl⟩
  · rcases (step_follows h.placed (h.step_eq hj)).resumed e l hc with ⟨l', hl'⟩ | ⟨hi, hl⟩ | hh
    · exact absurd hl' (hn l')
    · exact .inl ⟨Executor.State.asNew_eq_init.1 hi, hl⟩
    · exact .inr ⟨Executor.State.asNew_eq_holdUp.1 hh.1, hh.2⟩
  · rcases reuse_cases m f with ⟨-, heq⟩ | ⟨-, -, heq⟩ | ⟨-, heq⟩ <;> rw [heq] at hc
    · exact absurd hc (hn l)
    · cases hc
    · exact absurd hc (hn l)

/-- Only `reuse()` takes an executor out of `Terminal`. -/
theorem Good.ended {i : ReuseInput L} (h : Good m) (hs : Backend.reuseStep entry m i = some m')
    (hi : i ≠ .reuse e) (ht : m.state (.callback e) = .terminal) :
    m'.state (.callback e) = .terminal := by
  rcases reuseStep_cases hs with ⟨j, rfl, hj⟩ | ⟨f, rfl, -, rfl⟩
  · have he := (step_follows h.placed (h.step_eq hj)).ended e (by simp [asNew, ht])
    exact Executor.State.asNew_eq_terminal.1 he
  · have hne : e ≠ f := by rintro rfl; exact hi rfl
    rcases reuse_cases m f with ⟨-, heq⟩ | ⟨-, -, heq⟩ | ⟨-, heq⟩ <;> rw [heq]
    · exact ht
    · simpa [setState, goto, hne] using ht
    · simpa [setState, setContext, hne] using ht

/-- **Restarted executors.** With `ucontext_t`, for every program that may call `reuse()`, leaves
`exec()` to `threadScheduleFunc` and does not call `reset()`: bodies and returns are as without
`reuse()`; the process is stopped by nothing but the `reuse()` of an executor that was killed
before it ever ran and has no context; a body starts at its entry when its executor is new or has
been restarted and is resumed right after its last `yield()` otherwise; and an ended executor stays
ended, its body never running again, until it is restarted. -/
theorem restarts {g : Bool} {is : List (ReuseInput L)}
    (hr : Lib.run (Backend.reuseStep entry) ((ucontext entry).init g) is = some m) :
    (∀ e l, m.control = .body e l →
      m.curExecutor = .callback e ∧ m.state (.callback e) = .exec) ∧
    (∀ e, m.control = .returned e → m.curExecutor = .scheduler ∧
      (m.state (.callback e) = .holdUp ∨ m.state (.callback e) = .terminal)) ∧
    (∀ a, m.control = .failed a → ∃ js e, is = js ++ [.reuse e] ∧ a = .nullContext ∧
      m.context (.callback e) = none) ∧
    (∀ i m' e l, Backend.reuseStep entry m i = some m' → (∀ l', m.control ≠ .body e l') →
      m'.control = .body e l →
      (m.state (.callback e) = .init ∨ m.state (.callback e) = .ready) ∧ l = entry e ∨
        m.state (.callback e) = .holdUp ∧ m.held e = some l) ∧
    ∀ js m' e, m.state (.callback e) = .terminal → .reuse e ∉ js →
      Lib.run (Backend.reuseStep entry) m js = some m' →
      m'.state (.callback e) = .terminal ∧ ∀ l, m'.control ≠ .body e l := by
  rcases (Good.init entry g).run hr with h | ⟨js, e, rfl, hc, hx⟩
  · refine ⟨fun e l => h.body, fun e => h.returned, fun a hc => ?_,
      fun i m' e l hs hn hc => h.resumed hs hn hc, fun js m' e ht hjs hr' => ?_⟩
    · have hpos := h.placed.pos
      rw [hc] at hpos
      exact hpos.elim
    · have hkeep := run_inv_of (C := (· ≠ ReuseInput.reuse e))
        (I := fun n : Machine L => (Good n ∨ ∃ a, n.control = .failed a) ∧
          n.state (.callback e) = .terminal)
        (fun n i n' hn hi hs => ?_) (fun i hi => by rintro rfl; exact hjs hi) ⟨.inl h, ht⟩ hr'
      · refine ⟨hkeep.2, fun l hc => ?_⟩
        rcases hkeep.1 with hg | ⟨a, ha⟩
        · exact absurd (hg.body hc).2 (by simp [hkeep.2])
        · rw [hc] at ha
          cases ha
      · rcases hn.1 with hg | ⟨a, ha⟩
        · refine ⟨(hg.reuseStep hs).imp id ?_, hg.ended hs hi hn.2⟩
          rintro ⟨f, -, hc, -⟩
          exact ⟨_, hc⟩
        · rw [reuseStep_failed ha] at hs
          cases hs
  · refine ⟨fun f l hf => ?_, fun f hf => ?_, fun a ha => ⟨js, e, rfl, ?_, hx⟩,
      fun i m' f l hs => ?_, fun ks m' f ht hks hr' => ?_⟩
    · rw [hc] at hf; cases hf
    · rw [hc] at hf; cases hf
    · rw [hc] at ha; cases ha; rfl
    · rw [reuseStep_failed hc] at hs; cases hs
    · obtain ⟨-, rfl⟩ := run_failed hc hr'
      exact ⟨ht, fun l hl => by rw [hc] at hl; cases hl⟩

/-- An executor runs to its end, is restarted while the loop blocks, and starts once more at its
entry. -/
theorem restarts_twice : ∃ m : Machine Nat,
    Lib.run (reuseStep fun _ => 7) ((ucontext fun _ => 7).init true)
      [.step (.submit (some 0)), .step .run, .step (.round false []), .step (.act .ret 8),
        .step .check, .step (.round false []), .reuse 0, .step (.unblock [some 0]),
        .step (.round false [])] = some m ∧
    m.control = .body 0 7 ∧ m.curExecutor = .callback 0 ∧ m.state (.callback 0) = .exec := by
  refine run_and ⟨_, rfl, rfl⟩ fun m hr hm => ?_
  exact (restarts hr).1 0 7 hm

end Backend

end NetBase
