import NetBase.Lib.Runs
import NetBase.Coroutine.Executor

/-!
# Context switches keep the executors straight

`Stacks.At` says, for every place the thread can stand at, what the states, the contexts and
`t_cur_executor` are. A suspended executor waits inside its own `yield()`, in a `swapContext`
towards the scheduler; a running one has been entered from the loop, which waits inside the
`swapContext` towards that executor. Each switch turns one of these pictures into the next,
and no other switch happens.
-/

namespace NetBase

open Lib

variable {L : Type} {entry : Nat → L} {k : Stacks L} {m m' : Machine L} {e f : Nat} {l : L}

namespace Stacks

/-- `e` is not running: it has not started, has ended, or waits after its last `yield()`. -/
def Idle (k : Stacks L) (e : Nat) : Prop :=
  k.state (.callback e) = .init ∨ k.state (.callback e) = .terminal ∨
    k.state (.callback e) = .holdUp ∧ ∃ l,
      k.context (.callback e) = some (.swap .scheduler (.body e l)) ∧ k.held e = some l

theorem Idle.congr {k' : Stacks L} (h : k.Idle e)
    (hs : k'.state (.callback e) = k.state (.callback e))
    (hc : k'.context (.callback e) = k.context (.callback e)) (hh : k'.held e = k.held e) :
    k'.Idle e := by
  unfold Idle
  rw [hs, hc, hh]
  exact h

/-- The scheduler's stack is the running one. -/
structure InLoop (k : Stacks L) : Prop where
  cur : k.curExecutor = .scheduler
  scheduler : k.state .scheduler = .exec
  base : k.context .base = some (.swap .scheduler .ran)
  idle : ∀ e, k.Idle e

/-- The stack of `e` is the running one, entered from the dispatch loop. -/
structure InBody (k : Stacks L) (e : Nat) : Prop where
  cur : k.curExecutor = .callback e
  state : k.state (.callback e) = .exec
  scheduler : k.state .scheduler = .exec
  base : k.context .base = some (.swap .scheduler .ran)
  loop : k.context .scheduler = some (.swap (.callback e) (.returned e))
  idle : ∀ f, f ≠ e → k.Idle f

/-- What holds while the thread stands at a place. -/
def At (k : Stacks L) : Control L → Prop
  | .setup => k.curExecutor = .base ∧ k.state .scheduler = .init ∧ ∀ e, k.Idle e
  | .ran => k.curExecutor = .base ∧ ∀ e, k.Idle e
  | .loop => k.InLoop
  | .blocking => k.InLoop
  | .returned e => k.InLoop ∧ (k.state (.callback e) = .holdUp ∨ k.state (.callback e) = .terminal)
  | .body e _ => k.InBody e
  | .leftLoop => False
  | .finished => False
  | .failed _ => False

structure Placed (k : Stacks L) (c : Control L) : Prop where
  main : k.mainExecutor = .scheduler
  base : k.baseExecutor = .base
  pos : k.At c

end Stacks

namespace Machine

/-- How a step may start or resume a body, and that an ended executor stays ended. -/
structure Follows (entry : Nat → L) (m m' : Machine L) : Prop where
  placed : m'.Placed m'.control
  ended : ∀ e, m.state (.callback e) = .terminal → m'.state (.callback e) = .terminal
  resumed : ∀ e l, m'.control = .body e l → (∃ l', m.control = .body e l') ∨
    m.state (.callback e) = .init ∧ l = entry e ∨
    m.state (.callback e) = .holdUp ∧ m.held e = some l

/-- A step that leaves the stacks alone. -/
theorem Follows.stay (h : m.Placed m.control) (hk : m'.toStacks = m.toStacks)
    (hc : m.At m.control → m.At m'.control)
    (hb : ∀ e l, m'.control = .body e l → ∃ l', m.control = .body e l') :
    Follows entry m m' where
  placed := by rw [hk]; exact ⟨h.main, h.base, hc h.pos⟩
  ended e he := by rw [hk]; exact he
  resumed e l he := .inl (hb e l he)

@[simp] theorem addExecutor_stacks (m : Machine L) (e : Option Nat) :
    (m.addExecutor e).2.toStacks = m.toStacks := rfl

@[simp] theorem addExecutors_stacks (m : Machine L) (es : List (Option Nat)) :
    (m.addExecutors es).toStacks = m.toStacks := by
  induction es generalizing m with
  | nil => rfl
  | cons e es ih => exact ih (m.addExecutor e).2

@[simp] theorem takeReady_stacks (m : Machine L) : m.takeReady.2.toStacks = m.toStacks := rfl

theorem swapContext_entry {src dst : Tid} {ret : Control L} (h : m.context dst = some .entry) :
    m.swapContext entry src dst ret =
      (m.setContext src (.swap dst ret)).executorMainFunc entry := by
  simp [swapContext, h]

theorem swapContext_swap {src dst d : Tid} {ret c : Control L}
    (h : m.context dst = some (.swap d c)) :
    m.swapContext entry src dst ret = (m.setContext d (.swap dst ret)).goto c := by
  simp [swapContext, h]

/-! ## The switches -/

theorem mainExec_eq (h : m.Placed .setup) :
    m.mainExec entry .scheduler .ran =
      { ((((m.setContext .scheduler .entry).setState .scheduler .ready).setState .scheduler
          .exec).setContext .base (.swap .scheduler .ran)) with
        curExecutor := .scheduler, control := .loop } := by
  obtain ⟨-, hs, -⟩ := h.pos
  simp only [mainExec, doExec, hs, initToReady, mainExecInner, if_true]
  rw [swapContext_entry (by simp [setState, setContext])]
  simp [executorMainFunc, setContext, setState, goto, h.base]

/-- `run()` enters the dispatch loop. -/
theorem mainExec_follows (h : m.Placed .setup) :
    Follows entry m (m.mainExec entry .scheduler .ran) := by
  obtain ⟨-, hs, hidle⟩ := h.pos
  rw [mainExec_eq h]
  refine ⟨⟨h.main, h.base, rfl, ?_, ?_, fun e => (hidle e).congr ?_ ?_ rfl⟩, fun e he => ?_,
    fun e l he => by cases he⟩ <;> simp [setState, setContext]
  exact he

theorem exec_eq_enter (h : m.Placed .loop) (hs : m.state (.callback e) = .init) :
    m.exec entry (.callback e) (.returned e) =
      { ((((m.setContext (.callback e) .entry).setState (.callback e) .ready).setState
          (.callback e) .exec).setContext .scheduler (.swap (.callback e) (.returned e))) with
        curExecutor := .callback e, control := .body e (entry e) } := by
  simp only [exec, doExec, hs, h.main, initToReady, execInner]
  rw [if_neg (by simp), if_neg (by simp), swapContext_entry (by simp [setState, setContext])]
  simp [executorMainFunc, setContext, setState, goto, h.main]

/-- The first `exec()` of an executor enters its callback. -/
theorem exec_enter (h : m.Placed .loop) (hs : m.state (.callback e) = .init) :
    Follows entry m (m.exec entry (.callback e) (.returned e)) := by
  have hat : m.InLoop := h.pos
  rw [exec_eq_enter h hs]
  refine ⟨⟨h.main, h.base, rfl, ?_, ?_, ?_, ?_, fun f hf => (hat.idle f).congr ?_ ?_ rfl⟩,
    fun f hf => ?_, fun f l hf => .inr (.inl ?_)⟩
  · simp [setState, setContext]
  · simpa [setState, setContext] using hat.scheduler
  · simpa [setState, setContext] using hat.base
  · simp [setState, setContext]
  · simp [setState, setContext, hf]
  · simp [setState, setContext, hf]
  · have hne : f ≠ e := by rintro rfl; rw [hs] at hf; cases hf
    simpa [setState, setContext, hne] using hf
  · cases hf
    exact ⟨hs, rfl⟩

theorem exec_eq_resume (entry : Nat → L) (h : m.Placed .loop)
    (hs : m.state (.callback e) = .holdUp) :
    ∃ l, m.held e = some l ∧ m.exec entry (.callback e) (.returned e) =
      { ((m.setState (.callback e) .exec).setContext .scheduler
          (.swap (.callback e) (.returned e))) with
        curExecutor := .callback e, control := .body e l } := by
  obtain hi | hi | ⟨-, l, hctx, hl⟩ := (h.pos : m.InLoop).idle e
  · rw [hs] at hi; cases hi
  · rw [hs] at hi; cases hi
  refine ⟨l, hl, ?_⟩
  simp only [exec, doExec, hs, h.main, execInner]
  rw [if_neg (by simp), if_neg (by simp), swapContext_swap (by simpa [setState] using hctx)]
  simp [setContext, setState, goto]

/-- A later `exec()` goes on after the last `yield()`. -/
theorem exec_resume (h : m.Placed .loop) (hs : m.state (.callback e) = .holdUp) :
    Follows entry m (m.exec entry (.callback e) (.returned e)) := by
  have hat : m.InLoop := h.pos
  obtain ⟨l, hl, heq⟩ := exec_eq_resume entry h hs
  rw [heq]
  refine ⟨⟨h.main, h.base, rfl, ?_, ?_, ?_, ?_, fun f hf => (hat.idle f).congr ?_ ?_ rfl⟩,
    fun f hf => ?_, fun f l hf => .inr (.inr ?_)⟩
  · simp [setState, setContext]
  · simpa [setState, setContext] using hat.scheduler
  · simpa [setState, setContext] using hat.base
  · simp [setState, setContext]
  · simp [setState, setContext, hf]
  · simp [setContext, setState]
  · have hne : f ≠ e := by rintro rfl; rw [hs] at hf; cases hf
    simpa [setState, setContext, hne] using hf
  · cases hf
    exact ⟨hs, hl⟩

theorem switchToMain_eq (entry : Nat → L) (h : m.Placed (.body e l)) (s : Executor.State)
    (ret : Control L)
    (h' : Nat → Option L) :
    ({ m with held := h' }.setState (.callback e) s).switchToMain entry (.callback e) ret =
      { ((m.setState (.callback e) s).setContext (.callback e) (.swap .scheduler ret)) with
        held := h', curExecutor := .scheduler, control := .returned e } := by
  simp only [switchToMain]
  rw [swapContext_swap (d := .callback e) (c := .returned e)
    (by simpa [setState, h.main] using (h.pos : m.InBody e).loop)]
  simp [setContext, setState, goto, h.main]

/-- What an action of the body of `e` comes to, the body standing at `l` after it. -/
inductive Acts (m : Machine L) (e : Nat) (l : L) : Action → Machine L → Prop
  | compute : Acts m e l .compute (m.goto (.body e l))
  | addExecutor (x : Option Nat) :
      Acts m e l (.addExecutor x) ((m.addExecutor x).2.goto (.body e l))
  | stop : Acts m e l .stop ({ m with scheduler := m.scheduler.stop }.goto (.body e l))
  /-- `yield()` of an executor that is not running. -/
  | ignored {f : Nat} (hf : f ≠ e) : Acts m e l (.yield f) (m.goto (.body e l))
  | killed {f : Nat} (hf : f ≠ e) :
    Acts m e l (.kill f) ((m.setState (.callback f) .terminal).goto (.body e l))
  /-- The switch back to the loop, from `yield()`, `kill()` and `terminal()` alike. -/
  | left {a : Action} {s : Executor.State} {ret : Control L} {held : Nat → Option L}
      (hs : s = .terminal ∨ s = .holdUp ∧ ∃ l', ret = .body e l' ∧ held e = some l')
      (hh : ∀ f, f ≠ e → held f = m.held f) :
    Acts m e l a { ((m.setState (.callback e) s).setContext (.callback e)
      (.swap .scheduler ret)) with held, curExecutor := .scheduler, control := .returned e }

theorem terminal_acts {a : Action} {l' : L} (h : m.Placed (.body e l)) :
    Acts m e l' a (m.terminal entry m.curExecutor) := by
  have hat : m.InBody e := h.pos
  rw [hat.cur]
  simp only [terminal, hat.state, if_true, terminalInner]
  have heq := switchToMain_eq entry h .terminal .finished m.held
  exact heq ▸ .left (.inl rfl) fun _ _ => rfl

theorem act_acts (h : m.Placed (.body e l)) (a : Action) (l' : L) :
    Acts m e l' a (m.act entry e a l') := by
  have hat : m.InBody e := h.pos
  have hother : ∀ f, f ≠ e → m.state (.callback f) ≠ .exec := fun f hf => by
    rcases hat.idle f hf with hs | hs | ⟨hs, -⟩ <;> simp [hs]
  cases a with
  | compute => exact .compute
  | addExecutor x => exact .addExecutor x
  | stop => exact .stop
  | yield f =>
    by_cases hf : f = e
    · subst hf
      simp only [act, yield, if_true, hat.state, ne_eq, not_true_eq_false, if_false, yieldInner]
      rw [switchToMain_eq entry h]
      exact .left (.inr ⟨rfl, l', rfl, by simp⟩) fun g hg => by simp [hg]
    · simp only [act, yield, hf, if_false, hother f hf, ne_eq, not_false_eq_true, if_true]
      exact .ignored hf
  | kill f =>
    by_cases hf : f = e
    · subst hf
      simp only [act, kill, hat.state, if_true, terminalInner]
      have heq := switchToMain_eq entry h .terminal (.body f l') m.held
      exact heq ▸ .left (.inl rfl) fun _ _ => rfl
    · simp only [act, kill, hother f hf, if_false]
      exact .killed hf
  | ret => exact terminal_acts h
  | throws => exact terminal_acts h

/-- The end of `threadScheduleFunc` goes back to `run()`. -/
theorem mainYield_follows (h : m.Placed .loop) :
    Follows entry m (m.mainYield entry .scheduler .leftLoop) := by
  have hat : m.InLoop := h.pos
  have heq : m.mainYield entry .scheduler .leftLoop =
      { ((m.setState .scheduler .holdUp).setContext .scheduler (.swap .base .leftLoop)) with
        curExecutor := .base, control := .ran } := by
    simp only [mainYield, hat.scheduler, mainYieldInner]
    rw [if_neg (by simp), swapContext_swap (by simpa [setState, h.base] using hat.base)]
    simp [setContext, setState, goto, h.base]
  rw [heq]
  refine ⟨⟨h.main, h.base, rfl, fun e => (hat.idle e).congr ?_ ?_ rfl⟩, fun e he => ?_,
    fun e l he => by cases he⟩ <;> simp [setState, setContext]
  exact he

/-! ## Every step -/

/-- Queue operations before a switch do not matter for it. -/
theorem Follows.of_stacks {n : Machine L} (h : Follows entry n m')
    (hk : n.toStacks = m.toStacks) (hc : n.control = m.control) : Follows entry m m' := by
  obtain ⟨hp, he, hr⟩ := h
  rw [hk] at he hr
  rw [hc] at hr
  exact ⟨hp, he, hr⟩

theorem addExecutors_control (m : Machine L) (es : List (Option Nat)) :
    (m.addExecutors es).control = m.control := by
  induction es generalizing m with
  | nil => rfl
  | cons e es ih => exact ih (m.addExecutor e).2

theorem threadScheduleFunc_follows {pending : Bool} {remote : List (Option Nat)}
    (h : m.Placed m.control) (hc : m.control = .loop) :
    Follows entry m (m.threadScheduleFunc entry pending remote) := by
  unfold threadScheduleFunc
  split
  · exact mainYield_follows (hc ▸ h)
  obtain ⟨x, n, hn⟩ : ∃ x n, (m.addExecutors remote).takeReady = (x, n) := ⟨_, _, rfl⟩
  have hk : n.toStacks = m.toStacks := by
    have := takeReady_stacks (m.addExecutors remote)
    rwa [hn, addExecutors_stacks] at this
  have hnc : n.control = m.control := by
    have : (m.addExecutors remote).takeReady.2.control = _ := addExecutors_control m remote
    rwa [hn] at this
  have hp : n.Placed .loop := by rw [hk, ← hc]; exact h
  rw [hn]
  cases x with
  | none =>
    dsimp only
    split
    · exact (mainYield_follows hp).of_stacks hk hnc
    · exact .stay h hk (by rw [hc]; exact id) (fun e l he => by cases he)
  | some e =>
    dsimp only
    split
    · rename_i hlive
      refine Follows.of_stacks ?_ hk hnc
      obtain hi | hi | ⟨hi, -⟩ := (hp.pos : n.InLoop).idle e
      · exact exec_enter hp hi
      · exact absurd hi hlive.1
      · exact exec_resume hp hi
    · exact .stay h hk (by rw [hc]; exact id) (fun e l he => by cases he)

theorem checkReturned_eq (h : m.Placed (.returned e)) : m.checkReturned e = m.goto .loop := by
  rcases h.pos.2 with hs | hs <;> simp [checkReturned, hs]

theorem checkReturned_follows (h : m.Placed m.control) (hc : m.control = .returned e) :
    Follows entry m (m.checkReturned e) := by
  rw [checkReturned_eq (hc ▸ h)]
  exact .stay h rfl (by rw [hc]; exact fun hat => hat.1) (fun e l he => by cases he)

theorem Acts.follows {a : Action} {l' : L} (ha : Acts m e l' a m') (h : m.Placed m.control)
    (hc : m.control = .body e l) : Follows entry m m' := by
  have hp : m.Placed (.body e l) := hc ▸ h
  obtain ⟨hcur, hst, hsch, hbase, hloop, hidle⟩ := (hp.pos : m.InBody e)
  have hbody : ∀ f b, Control.body e l' = .body f b → ∃ b', m.control = .body f b' :=
    fun f b he => by cases he; exact ⟨l, hc⟩
  have hstay : m.At m.control → m.At (.body e l') := by rw [hc]; exact id
  cases ha with
  | compute => exact .stay h rfl hstay hbody
  | addExecutor x => exact .stay h rfl hstay hbody
  | stop => exact .stay h rfl hstay hbody
  | ignored hf => exact .stay h rfl hstay hbody
  | @killed f hf =>
    refine ⟨⟨h.main, h.base, hcur, ?_, ?_, hbase, hloop, fun g hg => ?_⟩, fun g hg => ?_,
      fun g b hg => .inl (hbody g b hg)⟩
    · simpa [setState, goto, Ne.symm hf] using hst
    · simpa [setState, goto] using hsch
    · by_cases hgf : g = f
      · exact .inr (.inl (by simp [setState, goto, hgf]))
      · exact (hidle g hg).congr (by simp [setState, goto, hgf]) rfl rfl
    · by_cases hgf : g = f
      · simp [setState, goto, hgf]
      · simpa [setState, goto, hgf] using hg
  | left hs hh =>
    refine ⟨⟨h.main, h.base, ⟨rfl, ?_, ?_, fun f => ?_⟩, ?_⟩, fun f hf => ?_,
      fun f l hf => by cases hf⟩
    · simpa [setState, setContext] using hsch
    · simpa [setState, setContext] using hbase
    · by_cases hf : f = e
      · subst hf
        rcases hs with rfl | ⟨rfl, l', rfl, hl⟩
        · exact .inr (.inl (by simp [setState, setContext]))
        · exact .inr (.inr ⟨by simp [setState, setContext], l', by simp [setContext], hl⟩)
      · exact (hidle f hf).congr (by simp [setState, setContext, hf])
          (by simp [setState, setContext, hf]) (hh f hf)
    · rcases hs with rfl | ⟨rfl, -⟩
      · exact .inr (by simp [setState, setContext])
      · exact .inl (by simp [setState, setContext])
    · have hne : f ≠ e := by rintro rfl; rw [hst] at hf; cases hf
      simpa [setState, setContext, hne] using hf

theorem step_follows {i : Input L} (h : m.Placed m.control) (hs : step entry m i = some m') :
    Follows entry m m' := by
  unfold step at hs
  split at hs <;> cases hs
  · rename_i hc
    exact .stay h rfl id fun e l he => ⟨l, he⟩
  · rename_i hc
    exact mainExec_follows (hc ▸ h)
  · rename_i hc
    exact threadScheduleFunc_follows h hc
  · rename_i hc
    refine .stay h (addExecutors_stacks _ _) ?_ fun e l he => by cases he
    rw [hc]
    exact id
  · rename_i hc
    exact checkReturned_follows h hc
  · rename_i hc
    exact (act_acts (hc ▸ h) _ _).follows h hc

theorem placed_init (g : Bool) : (init g : Machine L).Placed (init g : Machine L).control :=
  ⟨rfl, rfl, rfl, rfl, fun _ => .inl rfl⟩

theorem placed_reach {g : Bool} (h : Reach (step entry) (init g) m) : m.Placed m.control :=
  h.inv (placed_init g) fun _ _ _ hp hs => (step_follows hp hs).placed

/-- **Control flow.** In every state a program can reach: a running body is that of
`t_cur_executor`, which is in state `Exec`; `exec()` returns to the loop in the scheduler's
executor, with the executed one in state `HoldUp` or `Terminal`; no assertion fails; a body
starts at its entry and is resumed right after its own last `yield()`; and an executor that is
`Terminal` stays so, its body never running again. -/
theorem control_flow {g : Bool} {is : List (Input L)} (hr : run (step entry) (init g) is = some m) :
    (∀ e l, m.control = .body e l →
      m.curExecutor = .callback e ∧ m.state (.callback e) = .exec) ∧
    (∀ e, m.control = .returned e → m.curExecutor = .scheduler ∧
      (m.state (.callback e) = .holdUp ∨ m.state (.callback e) = .terminal)) ∧
    (∀ a, m.control ≠ .failed a) ∧
    (∀ i m' e l, step entry m i = some m' → (∀ l', m.control ≠ .body e l') →
      m'.control = .body e l → m.state (.callback e) = .init ∧ l = entry e ∨
        m.state (.callback e) = .holdUp ∧ m.held e = some l) ∧
    ∀ js m' e, m.state (.callback e) = .terminal → run (step entry) m js = some m' →
      m'.state (.callback e) = .terminal ∧ ∀ l, m'.control ≠ .body e l := by
  have hp : m.Placed m.control := placed_reach ⟨is, hr⟩
  refine ⟨fun e l hc => ?_, fun e hc => ?_, fun a hc => ?_, fun i m' e l hs hn hc => ?_,
    fun js m' e ht hr' => ?_⟩
  · have hat := hc ▸ hp.pos
    exact ⟨hat.cur, hat.state⟩
  · have hat := hc ▸ hp.pos
    exact ⟨hat.1.cur, hat.2⟩
  · have hat := hp.pos
    rw [hc] at hat
    exact hat
  · rcases (step_follows hp hs).resumed e l hc with ⟨l', hl'⟩ | h
    · exact absurd hl' (hn l')
    · exact h
  · have hkeep := run_inv (I := fun m : Machine L => m.Placed m.control ∧
        m.state (.callback e) = .terminal)
      (fun n i n' hn hs => ⟨(step_follows hn.1 hs).placed, (step_follows hn.1 hs).ended e hn.2⟩)
      ⟨hp, ht⟩ hr'
    refine ⟨hkeep.2, fun l hc => ?_⟩
    have hat := hc ▸ hkeep.1.pos
    exact absurd (hkeep.2.symm.trans hat.state) (by simp)

/-- Two executors; the first queues itself and yields, the second runs to its end, and the
first goes on after its `yield()`. -/
theorem control_flow_pair : ∃ m : Machine Nat,
    run (step fun _ => 0) (init true) [.submit (some 0), .submit (some 1), .run, .round false [],
      .act (.addExecutor (some 0)) 1, .act (.yield 0) 2, .check, .round false [], .act .ret 1,
      .check, .round false []] = some m ∧
    (m.control = .body 0 2 ∧ m.state (.callback 1) = .terminal) ∧
    m.curExecutor = .callback 0 ∧ m.state (.callback 0) = .exec := by
  refine run_and ⟨_, rfl, rfl, rfl⟩ fun m hr hm => ?_
  exact (control_flow hr).1 0 2 hm.1

end Machine

end NetBase
