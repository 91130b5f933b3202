import NetBase.Coroutine.Switch

/-!
# The two kinds of contexts

`executor.cpp` is compiled with `fcontext_t` (the default: `EnableBoostContext` of `CMakeLists.txt`
is on) or with `ucontext_t`. A `Backend` is what `LON_CONTEXT_TYPE` selects: `swapContext`, and
what the constructor of the thread's own executor leaves in `context_`. The functions without an
`#if` are stated over any backend; over `Backend.fcontext` they are those of `Machine`.

`swapcontext` saves the caller in its own `context_`, while `jump_fcontext` leaves that to the
side it jumps to. In every state a program reaches the two come to the same.

An executor may also be made and not entered yet, in state `Ready` with its context at the
entry. `Machine.asNew` takes it for one that has never been made; steps commute with it, so
that what is known about the states without such executors carries over.
-/

namespace NetBase

open Lib

structure Backend (L : Type) where
  swapContext : Machine L → Tid → Tid → Control L → Machine L
  /-- `newContext` and `getCurrentContext` in the constructor of the thread's own executor. -/
  current : Option (Context L)

namespace Backend

variable {L : Type} (b : Backend L) (entry : Nat → L)

def fcontext : Backend L where
  swapContext := Machine.swapContext entry
  current := none

/-- `swapcontext` writes the caller's continuation into its `context_`, whose `ucontext_t` has to
exist, and goes on with the other one. -/
def ucontext : Backend L where
  swapContext m src dst ret :=
    match m.context src, m.context dst with
    | some _, some .entry => (m.setContext src (.swap dst ret)).executorMainFunc entry
    | some _, some (.swap _ ret') => (m.setContext src (.swap dst ret)).goto ret'
    | _, _ => m.goto (.failed .nullContext)
  current := some (.swap .base .setup)

def init (exitWithTasksProcessed : Bool) : Machine L :=
  { Machine.init exitWithTasksProcessed with
    context := Function.update (fun _ => none) .base b.current }

def execInner (m : Machine L) (t : Tid) (ret : Control L) : Machine L :=
  b.swapContext { m with curExecutor := t } m.mainExecutor t ret

def mainExecInner (m : Machine L) (t : Tid) (ret : Control L) : Machine L :=
  b.swapContext { m with curExecutor := t } m.baseExecutor t ret

/-- The switch of `yieldInner` and `terminalInner`. -/
def switchToMain (m : Machine L) (t : Tid) (ret : Control L) : Machine L :=
  b.swapContext { m with curExecutor := m.mainExecutor } t m.mainExecutor ret

def mainYieldInner (m : Machine L) (t : Tid) (ret : Control L) : Machine L :=
  b.swapContext { m with curExecutor := m.baseExecutor } t m.baseExecutor ret

def doExec (m : Machine L) (t : Tid) (main : Bool) (ret : Control L) : Machine L :=
  let inner := fun m : Machine L =>
    if main then b.mainExecInner (m.setState t .exec) t ret
    else b.execInner (m.setState t .exec) t ret
  match m.state t with
  | .init => inner (m.initToReady t)
  | .holdUp => inner m
  | .ready => inner m
  | .exec => m.goto ret
  | .terminal => m.goto ret
  | .aborted => m.goto ret

def exec (m : Machine L) (t : Tid) (ret : Control L) : Machine L :=
  if t = m.mainExecutor then m.goto (.failed .execOfMain) else b.doExec m t false ret

def mainExec (m : Machine L) (t : Tid) (ret : Control L) : Machine L := b.doExec m t true ret

def yield (m : Machine L) (t : Tid) (ret : Control L) : Machine L :=
  if m.state t ≠ .exec then m.goto ret else b.switchToMain (m.setState t .holdUp) t ret

def mainYield (m : Machine L) (t : Tid) (ret : Control L) : Machine L :=
  if m.state t ≠ .exec then m.goto ret else b.mainYieldInner (m.setState t .holdUp) t ret

def kill (m : Machine L) (t : Tid) (ret : Control L) : Machine L :=
  if m.state t = .exec then b.switchToMain (m.setState t .terminal) t ret
  else (m.setState t .terminal).goto ret

def terminal (m : Machine L) (t : Tid) : Machine L :=
  if m.state t = .exec then b.switchToMain (m.setState t .terminal) t .finished
  else m.goto (.failed .notExec)

def threadScheduleFunc (m : Machine L) (pending : Bool) (remote : List (Option Nat)) :
    Machine L :=
  if m.scheduler.stopPending pending then b.mainYield m .scheduler .leftLoop
  else
    match (m.addExecutors remote).takeReady with
    | (none, m) =>
      if m.scheduler.stopping then b.mainYield m .scheduler .leftLoop else m.goto .blocking
    | (some e, m) =>
      if m.state (.callback e) ≠ .terminal ∧ m.state (.callback e) ≠ .aborted then
        b.exec m (.callback e) (.returned e)
      else m.goto .loop

def act (m : Machine L) (e : Nat) (a : Machine.Action) (l : L) : Machine L :=
  match a with
  | .compute => m.goto (.body e l)
  | .addExecutor executor => (m.addExecutor executor).2.goto (.body e l)
  | .stop => { m with scheduler := m.scheduler.stop }.goto (.body e l)
  | .yield f =>
    b.yield { m with held := if f = e then Function.update m.held e (some l) else m.held }
      (.callback f) (.body e l)
  | .kill f => b.kill m (.callback f) (.body e l)
  | .ret => b.terminal m m.curExecutor
  | .throws => b.terminal m m.curExecutor

def step (m : Machine L) (i : Machine.Input L) : Option (Machine L) :=
  match m.control, i with
  | .setup, .submit executor => some (m.addExecutor executor).2
  | .setup, .run => some (b.mainExec m .scheduler .ran)
  | .loop, .round pending remote => some (b.threadScheduleFunc m pending remote)
  | .blocking, .unblock executors => some ((m.addExecutors executors).goto .loop)
  | .returned e, .check => some (m.checkReturned e)
  | .body e _, .act a l => some (b.act m e a l)
  | _, _ => none

/-- The functions without an `#if` are those of the executors modelled first. -/
theorem fcontext_step : (fcontext entry).step = Machine.step entry := rfl

theorem fcontext_init (g : Bool) : (fcontext entry).init g = Machine.init g := by
  simp [init, fcontext, Machine.init]

end Backend

variable {L : Type} {entry : Nat → L} {m m' : Machine L} {t src dst : Tid} {ret : Control L}
  {e : Nat} {l : L}

/-! ## Executors that start again -/

/-- A made but not entered executor taken for a new one. -/
def Executor.State.asNew : Executor.State → Executor.State
  | .ready => .init
  | s => s

@[simp] theorem Executor.State.asNew_eq_exec {s : Executor.State} :
    s.asNew = .exec ↔ s = .exec := by cases s <;> simp [asNew]

@[simp] theorem Executor.State.asNew_eq_holdUp {s : Executor.State} :
    s.asNew = .holdUp ↔ s = .holdUp := by cases s <;> simp [asNew]

@[simp] theorem Executor.State.asNew_eq_terminal {s : Executor.State} :
    s.asNew = .terminal ↔ s = .terminal := by cases s <;> simp [asNew]

@[simp] theorem Executor.State.asNew_eq_aborted {s : Executor.State} :
    s.asNew = .aborted ↔ s = .aborted := by cases s <;> simp [asNew]

@[simp] theorem Executor.State.asNew_eq_init {s : Executor.State} :
    s.asNew = .init ↔ s = .init ∨ s = .ready := by cases s <;> simp [asNew]

namespace Machine

def asNew (m : Machine L) : Machine L := { m with state := fun t => (m.state t).asNew }

theorem setState_setState (m : Machine L) (t : Tid) (s s' : Executor.State) :
    (m.setState t s).setState t s' = m.setState t s' := by
  simp [setState]

theorem setContext_self {c : Context L} (h : m.context t = some c) : m.setContext t c = m := by
  unfold setContext
  rw [← h, Function.update_eq_self]

theorem asNew_setState (m : Machine L) (t : Tid) (s : Executor.State) :
    (m.setState t s).asNew = m.asNew.setState t s.asNew := by
  simp only [asNew, setState, mk.injEq, Stacks.mk.injEq, and_true]
  funext u
  by_cases hu : u = t
  · simp [hu]
  · simp [hu]

theorem asNew_executorMainFunc (entry : Nat → L) (m : Machine L) :
    (m.executorMainFunc entry).asNew = m.asNew.executorMainFunc entry := by
  unfold executorMainFunc
  rw [show m.asNew.curExecutor = m.curExecutor from rfl]
  cases m.curExecutor <;> rfl

theorem asNew_swapContext (entry : Nat → L) (m : Machine L) (src dst : Tid) (ret : Control L) :
    (m.swapContext entry src dst ret).asNew = m.asNew.swapContext entry src dst ret := by
  unfold swapContext
  rw [show m.asNew.context dst = m.context dst from rfl]
  match m.context dst with
  | none => rfl
  | some .entry => exact asNew_executorMainFunc entry _
  | some (.swap _ _) => rfl

/-- The contexts that have to exist: that of the thread's own executor and those of the running
ones; and one that is ready stands at its entry. -/
structure Made (m : Machine L) : Prop where
  base : (m.context .base).isSome
  running : ∀ t, m.state t = .exec → (m.context t).isSome
  ready : ∀ t, t ≠ .base → m.state t = .ready → m.context t = some .entry

theorem asNew_doExec {main : Bool} (h : m.Made) (ht : t ≠ .base) :
    (m.doExec entry t main ret).asNew = m.asNew.doExec entry t main ret := by
  have hinner : ∀ n : Machine L,
      (if main then mainExecInner entry (n.setState t .exec) t ret
        else execInner entry (n.setState t .exec) t ret).asNew =
      if main then mainExecInner entry (n.asNew.setState t .exec) t ret
        else execInner entry (n.asNew.setState t .exec) t ret := by
    intro n
    rw [show n.asNew.setState t .exec = (n.setState t .exec).asNew from
      (asNew_setState n t .exec).symm]
    split
    · exact asNew_swapContext entry _ _ _ _
    · exact asNew_swapContext entry _ _ _ _
  have hst : m.asNew.state t = (m.state t).asNew := rfl
  cases hm : m.state t with
  | init =>
    simp only [doExec, hm, hst, Executor.State.asNew, hinner, initToReady, setState_setState]
    rfl
  | ready =>
    have hc : m.asNew.context t = some .entry := h.ready t ht hm
    simp only [doExec, hm, hst, Executor.State.asNew, hinner, initToReady, setState_setState,
      setContext_self hc]
  | holdUp => simp only [doExec, hm, hst, Executor.State.asNew, hinner]
  | exec => simp only [doExec, hm, hst, Executor.State.asNew]; rfl
  | terminal => simp only [doExec, hm, hst, Executor.State.asNew]; rfl
  | aborted => simp only [doExec, hm, hst, Executor.State.asNew]; rfl

theorem asNew_exec (h : m.Made) (e : Nat) :
    (m.exec entry (.callback e) ret).asNew = m.asNew.exec entry (.callback e) ret := by
  unfold exec
  rw [show m.asNew.mainExecutor = m.mainExecutor from rfl]
  split
  · rfl
  · exact asNew_doExec h (by simp)

theorem asNew_switchToMain (m : Machine L) (t : Tid) (ret : Control L) (s : Executor.State) :
    ((m.setState t s).switchToMain entry t ret).asNew =
      (m.asNew.setState t s.asNew).switchToMain entry t ret := by
  rw [← asNew_setState]
  exact asNew_swapContext entry _ _ _ _

theorem asNew_mainYield (m : Machine L) (t : Tid) (ret : Control L) :
    (m.mainYield entry t ret).asNew = m.asNew.mainYield entry t ret := by
  unfold mainYield
  rw [show m.asNew.state t = (m.state t).asNew from rfl]
  simp only [ne_eq, Executor.State.asNew_eq_exec]
  split
  · rfl
  · rw [show m.asNew.setState t .holdUp = (m.setState t .holdUp).asNew from
      (asNew_setState m t .holdUp).symm]
    exact asNew_swapContext entry _ _ _ _

theorem asNew_addExecutors (m : Machine L) (es : List (Option Nat)) :
    (m.addExecutors es).asNew = m.asNew.addExecutors es := by
  induction es generalizing m with
  | nil => rfl
  | cons x es ih => exact ih (m.addExecutor x).2

theorem addExecutors_made (h : m.Made) (es : List (Option Nat)) : (m.addExecutors es).Made := by
  have hk := addExecutors_stacks m es
  exact ⟨by rw [hk]; exact h.base, by rw [hk]; exact h.running, by rw [hk]; exact h.ready⟩

theorem asNew_threadScheduleFunc {pending : Bool} {remote : List (Option Nat)} (h : m.Made) :
    (m.threadScheduleFunc entry pending remote).asNew =
      m.asNew.threadScheduleFunc entry pending remote := by
  unfold threadScheduleFunc
  rw [show m.asNew.scheduler = m.scheduler from rfl, ← asNew_addExecutors]
  split
  · exact asNew_mainYield m _ _
  have hmade := addExecutors_made h remote
  generalize m.addExecutors remote = n at hmade
  rw [show n.asNew.takeReady = (n.takeReady.1, n.takeReady.2.asNew) from rfl]
  obtain ⟨x, n', hn⟩ : ∃ x n', n.takeReady = (x, n') := ⟨_, _, rfl⟩
  have hmade' : n'.Made := by
    obtain rfl : n.takeReady.2 = n' := by rw [hn]
    exact ⟨hmade.base, hmade.running, hmade.ready⟩
  rw [hn]
  cases x with
  | none =>
    simp only [show n'.asNew.scheduler = n'.scheduler from rfl]
    split
    · exact asNew_mainYield n' _ _
    · rfl
  | some e =>
    simp only [show n'.asNew.state (.callback e) = (n'.state (.callback e)).asNew from rfl, ne_eq,
      Executor.State.asNew_eq_terminal, Executor.State.asNew_eq_aborted]
    split
    · exact asNew_exec hmade' e
    · rfl

theorem asNew_act (m : Machine L) (e : Nat) (a : Action) (l : L) :
    (m.act entry e a l).asNew = m.asNew.act entry e a l := by
  have hst : ∀ t, m.asNew.state t = (m.state t).asNew := fun _ => rfl
  have hend : (m.terminal entry m.curExecutor).asNew = m.asNew.terminal entry m.curExecutor := by
    simp only [terminal, hst, Executor.State.asNew_eq_exec]
    split
    · exact asNew_switchToMain m _ _ .terminal
    · rfl
  cases a with
  | compute => rfl
  | addExecutor x => rfl
  | stop => rfl
  | yield f =>
    simp only [act, yield, hst, ne_eq, Executor.State.asNew_eq_exec]
    split
    · rfl
    · exact asNew_switchToMain { m with held := _ } _ _ .holdUp
  | kill f =>
    simp only [act, kill, hst, Executor.State.asNew_eq_exec]
    split
    · exact asNew_switchToMain m _ _ .terminal
    · exact congrArg (goto · _) (asNew_setState m _ .terminal)
  | ret => exact hend
  | throws => exact hend

theorem asNew_checkReturned (m : Machine L) (e : Nat) :
    (m.checkReturned e).asNew = m.asNew.checkReturned e := by
  have hst : m.asNew.state (.callback e) = (m.state (.callback e)).asNew := rfl
  cases hm : m.state (.callback e) <;> simp only [checkReturned, hst, hm] <;> rfl

/-- A step does not tell an executor that starts again from a new one. -/
theorem asNew_step {i : Input L} (h : m.Made) :
    (step entry m i).map asNew = step entry m.asNew i := by
  unfold step
  rw [show m.asNew.control = m.control from rfl]
  split
  · rfl
  · exact congrArg some (asNew_doExec h (by simp))
  · exact congrArg some (asNew_threadScheduleFunc h)
  · exact congrArg (fun n : Machine L => some (n.goto .loop)) (asNew_addExecutors m _)
  · exact congrArg some (asNew_checkReturned m _)
  · exact congrArg some (asNew_act m _ _ _)
  · rfl

end Machine

/-! ## `swapcontext` and `jump_fcontext` -/

namespace Backend

open Machine

/-- The two agree when the stack jumped to waits for the one that jumps. -/
theorem ucontext_swapContext (hs : (m.context src).isSome)
    (hd : ∀ d c, m.context dst = some (.swap d c) → d = src) :
    (ucontext entry).swapContext m src dst ret = m.swapContext entry src dst ret := by
  obtain ⟨c, hc⟩ := Option.isSome_iff_exists.1 hs
  simp only [ucontext, Machine.swapContext, hc]
  rcases hm : m.context dst with _ | _ | ⟨d, c⟩
  · rfl
  · rfl
  · obtain rfl := hd d c hm
    rfl

variable (hp : m.asNew.Placed m.control) (h : m.Made)

include hp h

theorem ucontext_mainExec (hc : m.control = .setup) :
    (ucontext entry).mainExec m .scheduler .ran = m.mainExec entry .scheduler .ran := by
  rw [hc] at hp
  have hb : m.baseExecutor = .base := hp.base
  obtain ⟨-, hs, -⟩ := hp.pos
  replace hs : (m.state .scheduler).asNew = .init := hs
  rcases Executor.State.asNew_eq_init.1 hs with hs | hs <;>
    simp only [mainExec, Machine.mainExec, doExec, Machine.doExec, hs, if_true] <;>
    refine ucontext_swapContext ?_ ?_
  · simpa [hb, setState, initToReady, setContext] using h.base
  · simp [setState, initToReady, setContext]
  · simpa [hb, setState] using h.base
  · simp [setState, h.ready _ _ hs]

omit hp in
theorem ucontext_exec (hp : m.asNew.Placed .loop) (hlive : m.state (.callback e) ≠ .terminal) :
    (ucontext entry).exec m (.callback e) (.returned e) =
      m.exec entry (.callback e) (.returned e) := by
  have hat : m.asNew.InLoop := hp.pos
  have hmain : m.mainExecutor = .scheduler := hp.main
  have hsch : (m.context .scheduler).isSome :=
    h.running _ (Executor.State.asNew_eq_exec.1 hat.scheduler)
  simp only [exec, Machine.exec, doExec, Machine.doExec, hmain]
  rcases hat.idle e with hi | hi | ⟨hi, l, hctx, -⟩
  · replace hi : (m.state (.callback e)).asNew = .init := hi
    rcases Executor.State.asNew_eq_init.1 hi with hs | hs <;> simp only [hs] <;>
      refine congrArg (ite _ _) (ucontext_swapContext ?_ ?_)
    · simpa [hmain, setState, initToReady, setContext] using hsch
    · simp [setState, initToReady, setContext]
    · simpa [hmain, setState] using hsch
    · simp [setState, h.ready _ _ hs]
  · exact absurd (Executor.State.asNew_eq_terminal.1 hi) hlive
  · have hs : m.state (.callback e) = .holdUp := Executor.State.asNew_eq_holdUp.1 hi
    replace hctx : m.context (.callback e) = some (.swap .scheduler (.body e l)) := hctx
    simp only [hs]
    refine congrArg (ite _ _) (ucontext_swapContext ?_ ?_)
    · simpa [hmain, setState] using hsch
    · simp [setState, hctx, hmain]

omit hp in
theorem ucontext_mainYield (hp : m.asNew.Placed .loop) :
    (ucontext entry).mainYield m .scheduler .leftLoop =
      m.mainYield entry .scheduler .leftLoop := by
  have hat : m.asNew.InLoop := hp.pos
  have hs : m.state .scheduler = .exec := Executor.State.asNew_eq_exec.1 hat.scheduler
  have hb : m.baseExecutor = .base := hp.base
  have hctx : m.context .base = some (.swap .scheduler .ran) := hat.base
  simp only [mainYield, Machine.mainYield]
  refine congrArg (ite _ _) (ucontext_swapContext ?_ ?_)
  · simpa [setState] using h.running _ hs
  · simp [setState, hb, hctx]

theorem ucontext_threadScheduleFunc {pending : Bool} {remote : List (Option Nat)}
    (hc : m.control = .loop) :
    (ucontext entry).threadScheduleFunc m pending remote =
      m.threadScheduleFunc entry pending remote := by
  unfold threadScheduleFunc Machine.threadScheduleFunc
  split
  · exact ucontext_mainYield h (hc ▸ hp)
  obtain ⟨x, n, hn⟩ : ∃ x n, (m.addExecutors remote).takeReady = (x, n) := ⟨_, _, rfl⟩
  have hk : n.toStacks = m.toStacks := by
    have := takeReady_stacks (m.addExecutors remote)
    rwa [hn, addExecutors_stacks] at this
  have hmade : n.Made := ⟨by rw [hk]; exact h.base, by rw [hk]; exact h.running,
    by rw [hk]; exact h.ready⟩
  have hka : n.asNew.toStacks = m.asNew.toStacks := by
    unfold Machine.asNew
    rw [hk]
  have hpn : n.asNew.Placed .loop := by rw [hka, ← hc]; exact hp
  rw [hn]
  cases x with
  | none =>
    dsimp only
    rw [ucontext_mainYield hmade hpn]
  | some e =>
    dsimp only
    split
    · rename_i hlive
      exact ucontext_exec hmade hpn hlive.1
    · rfl

omit hp in
theorem ucontext_switchToMain (hp : m.asNew.Placed (.body e l)) (s : Executor.State)
    (held : Nat → Option L) (ret : Control L) :
    (ucontext entry).switchToMain ({ m with held := held }.setState (.callback e) s)
        (.callback e) ret =
      ({ m with held := held }.setState (.callback e) s).switchToMain entry (.callback e) ret := by
  have hat : m.asNew.InBody e := hp.pos
  have hs : m.state (.callback e) = .exec := Executor.State.asNew_eq_exec.1 hat.state
  have hmain : m.mainExecutor = .scheduler := hp.main
  have hctx : m.context .scheduler = some (.swap (.callback e) (.returned e)) := hat.loop
  refine ucontext_swapContext ?_ ?_
  · simpa [setState] using h.running _ hs
  · simp [setState, hmain, hctx]

theorem ucontext_act {a : Action} {l' : L} (hc : m.control = .body e l) :
    (ucontext entry).act m e a l' = m.act entry e a l' := by
  rw [hc] at hp
  have hat : m.asNew.InBody e := hp.pos
  have hother : ∀ f, f ≠ e → m.state (.callback f) ≠ .exec := fun f hf hx => by
    have hx' : m.asNew.state (.callback f) = .exec := Executor.State.asNew_eq_exec.2 hx
    rcases hat.idle f hf with hs | hs | ⟨hs, -⟩ <;> simp [hs] at hx'
  have hcur : m.curExecutor = .callback e := hat.cur
  have hend : (ucontext entry).terminal m m.curExecutor = m.terminal entry m.curExecutor := by
    rw [hcur]
    exact congrArg (ite _ · _) (ucontext_switchToMain h hp .terminal m.held .finished)
  cases a with
  | compute => rfl
  | addExecutor x => rfl
  | stop => rfl
  | yield f =>
    by_cases hf : f = e
    · subst hf
      exact congrArg (ite _ _) (ucontext_switchToMain h hp .holdUp _ _)
    · simp only [act, Machine.act, yield, Machine.yield, ne_eq, hother f hf, not_false_eq_true,
        if_true]
  | kill f =>
    by_cases hf : f = e
    · subst hf
      exact congrArg (ite _ · _) (ucontext_switchToMain h hp .terminal m.held _)
    · simp only [act, Machine.act, kill, Machine.kill, hother f hf, if_false]
  | ret => exact hend
  | throws => exact hend

/-- Under the invariant both kinds of contexts do the same. -/
theorem ucontext_step {i : Input L} : (ucontext entry).step m i = Machine.step entry m i := by
  cases hc : m.control <;> cases i <;> simp only [step, Machine.step, hc]
  · exact congrArg some (ucontext_mainExec hp h hc)
  · exact congrArg some (ucontext_threadScheduleFunc hp h hc)
  · exact congrArg some (ucontext_act hp h hc)

omit hp h

/-! ## The contexts stay made -/

theorem made_setState {s : Executor.State} (h : m.Made)
    (he : s = .exec → (m.context t).isSome) (hr : s = .ready → m.context t = some .entry) :
    (m.setState t s).Made where
  base := h.base
  running u hu := by
    by_cases hut : u = t
    · subst hut
      exact he (by simpa [setState] using hu)
    · exact h.running u (by simpa [setState, hut] using hu)
  ready u hb hu := by
    by_cases hut : u = t
    · subst hut
      exact hr (by simpa [setState] using hu)
    · exact h.ready u hb (by simpa [setState, hut] using hu)

/-- A context written for an executor that is not ready, or at its entry. -/
theorem made_setContext {c : Context L} (h : m.Made)
    (hc : t ≠ .base → m.state t = .ready → c = .entry) : (m.setContext t c).Made where
  base := by
    by_cases hb : Tid.base = t
    · simp [setContext, ← hb]
    · simpa [setContext, hb] using h.base
  running u hu := by
    by_cases hut : u = t
    · simp [setContext, hut]
    · simpa [setContext, hut] using h.running u hu
  ready u hb hu := by
    by_cases hut : u = t
    · subst hut
      simp [setContext, hc hb hu]
    · simpa [setContext, hut] using h.ready u hb hu

theorem made_swapContext (h : m.Made) (hs : src ≠ .base → m.state src ≠ .ready) :
    ((ucontext entry).swapContext m src dst ret).Made := by
  have hset : (m.setContext src (.swap dst ret)).Made :=
    made_setContext h fun hb hr => absurd hr (hs hb)
  simp only [ucontext]
  split
  · unfold executorMainFunc
    split <;> exact ⟨hset.base, hset.running, hset.ready⟩
  · exact ⟨hset.base, hset.running, hset.ready⟩
  · exact ⟨h.base, h.running, h.ready⟩

theorem made_exec {main : Bool} (h : m.Made) (ht : t ≠ .base) (hb : m.baseExecutor = .base)
    (hmain : main = false → m.state m.mainExecutor = .exec)
    (hheld : m.state t = .holdUp → (m.context t).isSome) :
    ((ucontext entry).doExec m t main ret).Made := by
  have hswap : ∀ n : Machine L, n.Made → n.baseExecutor = .base →
      (main = false → n.state n.mainExecutor ≠ .ready) →
      (if main then (ucontext entry).mainExecInner n t ret
        else (ucontext entry).execInner n t ret).Made := by
    intro n hn hnb hnm
    have hn' : { n with curExecutor := t }.Made := ⟨hn.base, hn.running, hn.ready⟩
    cases main with
    | true => exact made_swapContext hn' fun hne => absurd hnb hne
    | false => exact made_swapContext hn' fun _ => hnm rfl
  have hne : ∀ c, main = false →
      Function.update (Function.update m.state t c) t .exec m.mainExecutor ≠ .ready := by
    intro c hf
    by_cases hmt : m.mainExecutor = t
    · simp [hmt]
    · simp [hmt, hmain hf]
  unfold doExec
  cases hs : m.state t with
  | init =>
    have hset : (m.setContext t .entry).Made := made_setContext h fun _ _ => rfl
    have hready : (m.initToReady t).Made :=
      made_setState hset (fun hx => by cases hx) fun _ => by simp [setContext]
    exact hswap _ (made_setState hready (fun _ => by simp [initToReady, setContext, setState])
      fun hx => by cases hx) hb (hne .ready)
  | holdUp =>
    refine hswap _ (made_setState h (fun _ => hheld hs) fun hx => by cases hx) hb fun hf => ?_
    simpa [setState] using hne .exec hf
  | ready =>
    refine hswap _ (made_setState h (fun _ => by simp [h.ready t ht hs]) fun hx => by cases hx)
      hb fun hf => ?_
    simpa [setState] using hne .exec hf
  | exec => exact ⟨h.base, h.running, h.ready⟩
  | terminal => exact ⟨h.base, h.running, h.ready⟩
  | aborted => exact ⟨h.base, h.running, h.ready⟩

theorem made_switchToMain {s : Executor.State} {held : Nat → Option L} (h : m.Made)
    (hs : s = .holdUp ∨ s = .terminal) :
    ((ucontext entry).switchToMain ({ m with held := held }.setState t s) t ret).Made := by
  have hn : ({ m with held := held }.setState t s).Made := by
    refine made_setState ⟨h.base, h.running, h.ready⟩ ?_ ?_ <;> rcases hs with rfl | rfl <;> simp
  refine made_swapContext ⟨hn.base, hn.running, hn.ready⟩ fun _ => ?_
  rcases hs with rfl | rfl <;> simp [setState]

theorem made_mainYield (h : m.Made) :
    ((ucontext entry).mainYield m .scheduler ret).Made := by
  unfold mainYield
  split
  · exact ⟨h.base, h.running, h.ready⟩
  · have hn : (m.setState .scheduler .holdUp).Made :=
      made_setState h (fun hx => by cases hx) fun hx => by cases hx
    exact made_swapContext ⟨hn.base, hn.running, hn.ready⟩ fun _ => by simp [setState]

theorem made_act {a : Action} (h : m.Made) : ((ucontext entry).act m e a l).Made := by
  have hstay : ∀ c, (m.goto c).Made := fun _ => ⟨h.base, h.running, h.ready⟩
  have hend : ((ucontext entry).terminal m m.curExecutor).Made := by
    unfold terminal
    split
    · exact made_switchToMain h (.inr rfl)
    · exact hstay _
  cases a with
  | compute => exact hstay _
  | addExecutor x => exact ⟨h.base, h.running, h.ready⟩
  | stop => exact ⟨h.base, h.running, h.ready⟩
  | yield f =>
    simp only [act, yield]
    split
    · exact ⟨h.base, h.running, h.ready⟩
    · exact made_switchToMain h (.inl rfl)
  | kill f =>
    simp only [act, kill]
    split
    · exact made_switchToMain h (.inr rfl)
    · have hn : (m.setState (.callback f) .terminal).Made :=
        made_setState h (fun hx => by cases hx) fun hx => by cases hx
      exact ⟨hn.base, hn.running, hn.ready⟩
  | ret => exact hend
  | throws => exact hend

theorem made_threadScheduleFunc {pending : Bool} {remote : List (Option Nat)}
    (hp : m.asNew.Placed .loop) (h : m.Made) :
    ((ucontext entry).threadScheduleFunc m pending remote).Made := by
  have hat : m.asNew.InLoop := hp.pos
  unfold threadScheduleFunc
  split
  · exact made_mainYield h
  obtain ⟨x, n, hn⟩ : ∃ x n, (m.addExecutors remote).takeReady = (x, n) := ⟨_, _, rfl⟩
  have hk : n.toStacks = m.toStacks := by
    have := takeReady_stacks (m.addExecutors remote)
    rwa [hn, addExecutors_stacks] at this
  have hmade : n.Made := ⟨by rw [hk]; exact h.base, by rw [hk]; exact h.running,
    by rw [hk]; exact h.ready⟩
  have hstay : ∀ c, (n.goto c).Made := fun _ => ⟨hmade.base, hmade.running, hmade.ready⟩
  rw [hn]
  cases x with
  | none =>
    dsimp only
    split
    · exact made_mainYield hmade
    · exact hstay _
  | some e =>
    have hmain : m.mainExecutor = .scheduler := hp.main
    dsimp only
    split
    · unfold exec
      split
      · exact hstay _
      refine made_exec hmade (by simp) (by rw [hk]; exact hp.base) (fun _ => ?_) fun hs => ?_
      · rw [hk, hmain]
        exact Executor.State.asNew_eq_exec.1 hat.scheduler
      · rw [hk] at hs ⊢
        rcases hat.idle e with hi | hi | ⟨-, b, hctx, -⟩
        · simp [asNew, hs, Executor.State.asNew] at hi
        · simp [asNew, hs, Executor.State.asNew] at hi
        · rw [show m.context (.callback e) = _ from hctx]
          rfl
    · exact hstay _

theorem made_step {i : Input L} (hp : m.asNew.Placed m.control) (h : m.Made)
    (hs : (ucontext entry).step m i = some m') : m'.Made := by
  unfold step at hs
  split at hs <;> cases hs
  · exact ⟨h.base, h.running, h.ready⟩
  · rename_i hc
    rw [hc] at hp
    have hi : (m.state .scheduler).asNew = .init := hp.pos.2.1
    refine made_exec h (by simp) hp.base (fun hx => by cases hx) fun hh => ?_
    simp [hh, Executor.State.asNew] at hi
  · rename_i hc
    exact made_threadScheduleFunc (hc ▸ hp) h
  · have hn := addExecutors_made h
    exact ⟨(hn _).base, (hn _).running, (hn _).ready⟩
  · unfold checkReturned
    split <;> exact ⟨h.base, h.running, h.ready⟩
  · exact made_act h

/-- The contexts exist and, new and restarted executors not told apart, the stacks are those of a
program without `reuse()`. -/
structure Good (m : Machine L) : Prop where
  placed : m.asNew.Placed m.control
  made : m.Made

theorem Good.init (entry : Nat → L) (g : Bool) : Good ((ucontext entry).init g) where
  placed := ⟨rfl, rfl, rfl, rfl, fun _ => .inl rfl⟩
  made := by
    refine ⟨by simp [Backend.init, ucontext], fun t ht => ?_, fun t hb ht => ?_⟩ <;>
      cases t <;> simp_all [Backend.init, Machine.init]

theorem Good.step_eq {i : Input L} (h : Good m) (hs : (ucontext entry).step m i = some m') :
    Machine.step entry m.asNew i = some m'.asNew := by
  rw [← asNew_step h.made, ← ucontext_step h.placed h.made, hs]
  rfl

theorem Good.step {i : Input L} (h : Good m) (hs : (ucontext entry).step m i = some m') :
    Good m' :=
  ⟨(step_follows h.placed (h.step_eq hs)).placed, made_step h.placed h.made hs⟩

end Backend

/-! ## Programs without `reuse()` -/

namespace Machine

/-- A state without its contexts. -/
def visible (m : Machine L) : Machine L := { m with context := fun _ => none }

/-- The same state, but that the thread's own executor may have a context of its own before
`run()`. -/
def SameBut (m n : Machine L) : Prop :=
  m = n ∨ n.control = .setup ∧ m = n.setContext .base (.swap .base .setup)

theorem SameBut.visible {n : Machine L} (h : SameBut m n) : m.visible = n.visible := by
  rcases h with rfl | ⟨-, rfl⟩ <;> rfl

theorem asNew_placed {c : Control L} (h : m.Placed c) : m.asNew.Placed c := by
  have hidle : ∀ e, m.Idle e → m.asNew.Idle e := by
    intro e he
    rcases he with hs | hs | ⟨hs, hl⟩
    · exact .inl (by simp [asNew, hs])
    · exact .inr (.inl (by simp [asNew, hs]))
    · exact .inr (.inr ⟨by simp [asNew, hs], hl⟩)
  have hloop : m.InLoop → m.asNew.InLoop := fun hat =>
    ⟨hat.cur, by simp [asNew, hat.scheduler], hat.base, fun e => hidle e (hat.idle e)⟩
  refine ⟨h.main, h.base, ?_⟩
  have hpos := h.pos
  cases c with
  | setup => exact ⟨hpos.1, by simp [asNew, hpos.2.1], fun e => hidle e (hpos.2.2 e)⟩
  | ran => exact ⟨hpos.1, fun e => hidle e (hpos.2 e)⟩
  | loop => exact hloop hpos
  | blocking => exact hloop hpos
  | returned e => exact ⟨hloop hpos.1, by simpa [asNew] using hpos.2⟩
  | body e l =>
    exact ⟨hpos.cur, by simp [asNew, hpos.state], by simp [asNew, hpos.scheduler], hpos.base,
      hpos.loop, fun f hf => hidle f (hpos.idle f hf)⟩
  | leftLoop => exact hpos.elim
  | finished => exact hpos.elim
  | failed a => exact hpos.elim

theorem SameBut.step {n : Machine L} {i : Input L} (h : SameBut m n) (hn : n.Placed n.control)
    (hm : m.Made) :
    Option.Rel SameBut ((Backend.ucontext entry).step m i) (step entry n i) := by
  rcases h with rfl | ⟨hc, rfl⟩
  · rw [Backend.ucontext_step (asNew_placed hn) hm]
    cases Machine.step entry m i with
    | none => exact .none
    | some m' => exact .some (.inl rfl)
  · have hc' : (n.setContext .base (.swap .base .setup)).control = .setup := hc
    have hp : (n.setContext .base (.swap .base .setup)).Placed .setup := by
      have := hc ▸ hn
      exact ⟨this.main, this.base, this.pos.1, this.pos.2.1, this.pos.2.2⟩
    rw [Backend.ucontext_step (by rw [hc']; exact asNew_placed hp) hm]
    cases i <;> simp only [Machine.step, hc', hc]
    case submit x => exact .some (.inr ⟨hc, rfl⟩)
    case run =>
      refine .some (.inl ?_)
      rw [mainExec_eq hp, mainExec_eq (hc ▸ hn)]
      simp [setContext, setState, Function.update_comm]
    all_goals exact .none

/-- **Two kinds of contexts, one behaviour.** Every program that leaves `exec()` to
`threadScheduleFunc` and calls neither `reset()` nor `reuse()` runs the same with `ucontext_t` as
with `fcontext_t`: the same inputs are taken, and leave the thread at the same place, with the same
current executor, states, ready queue and suspended bodies. -/
theorem contexts_agree (entry : Nat → L) (g : Bool) (is : List (Input L)) :
    (run (Backend.ucontext entry).step ((Backend.ucontext entry).init g) is).map visible =
      (run (step entry) (init g) is).map visible := by
  have hinit : SameBut ((Backend.ucontext entry).init g) (init g) := .inr ⟨rfl, rfl⟩
  have hrun : Option.Rel (fun m n => SameBut m n ∧ Backend.Good m ∧ n.Placed n.control)
      (run (Backend.ucontext entry).step ((Backend.ucontext entry).init g) is)
      (run (step entry) (init g) is) := by
    refine run_lockstep (fun m n i hmn => ?_) ⟨hinit, .init entry g, placed_init g⟩
    obtain ⟨hsame, hgood, hplaced⟩ := hmn
    have hst : Option.Rel SameBut ((Backend.ucontext entry).step m i) (step entry n i) :=
      hsame.step hplaced hgood.made
    revert hst
    cases hm : (Backend.ucontext entry).step m i <;> cases hn : step entry n i <;> intro hst <;>
      cases hst
    · exact .none
    · rename_i hst
      exact .some ⟨hst, hgood.step hm, (step_follows hplaced hn).placed⟩
  revert hrun
  cases run (Backend.ucontext entry).step ((Backend.ucontext entry).init g) is <;>
    cases run (step entry) (init g) is <;> intro hrun <;> cases hrun
  · rfl
  · rename_i hrun
    exact congrArg some hrun.1.visible

end Machine

end NetBase
