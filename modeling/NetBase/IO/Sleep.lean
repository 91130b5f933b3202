import NetBase.IO.Clocked
import NetBase.Lib.Runs

/-!
# Sleeping

`co_sleep`, `co_usleep` and `co_nanosleep` of `src/io/co_io_function.cpp`. Each turns its
argument into an `unsigned` number of milliseconds and hands that to `sleepInner`. A sleep
should last as long as asked for: the timer's interval is not shorter, and the call does not
return before the clock has reached the timer's target.

The conversions lose what is below a millisecond and what is above 32 bits, and the base
executor does not wait at all. A coroutine that sleeps may besides be entered by an entry left
over from an earlier suspension.
-/

namespace NetBase

open Lib

/-- A valid `timespec`. -/
structure Timespec where
  tvSec : Nat
  tvNsec : Nat
  sec_lt : tvSec < 0x8000000000000000
  nsec_lt : tvNsec < 1000000000

inductive SleepCall where
  | coSleep (seconds : BitVec 32)
  | coUsleep (usec : BitVec 32)
  | coNanosleep (req : Timespec)

namespace SleepCall

/-- The argument of `sleepInner`. The products are of type `unsigned` and `long`; where the
latter overflows, the cast keeps the low 32 bits all the same. -/
def ms : SleepCall → BitVec 32
  | .coSleep seconds => seconds * 1000
  | .coUsleep usec => usec / 1000
  | .coNanosleep req => BitVec.ofNat 32 (req.tvSec * 1000 + req.tvNsec / 1000 / 1000)

/-- The duration asked for, in nanoseconds. -/
def requested : SleepCall → Nat
  | .coSleep seconds => seconds.toNat * 1000000000
  | .coUsleep usec => usec.toNat * 1000
  | .coNanosleep req => req.tvSec * 1000000000 + req.tvNsec

/-- Whole milliseconds, less than `2^32` of them. -/
def Lossless : SleepCall → Prop
  | .coSleep seconds => seconds.toNat ≤ 4294967
  | .coUsleep usec => usec.toNat % 1000 = 0
  | .coNanosleep req =>
    req.tvNsec % 1000000 = 0 ∧ req.tvSec * 1000 + req.tvNsec / 1000000 < 0x100000000

instance : (call : SleepCall) → Decidable call.Lossless
  | .coSleep _ => inferInstanceAs (Decidable (_ ≤ _))
  | .coUsleep _ => inferInstanceAs (Decidable (_ = _))
  | .coNanosleep _ => inferInstanceAs (Decidable (_ ∧ _))

/-- The conversion covers the duration exactly when it loses nothing. -/
theorem requested_le_iff (call : SleepCall) :
    call.requested ≤ call.ms.toNat * 1000000 ↔ call.Lossless := by
  cases call with
  | coSleep seconds =>
    simp only [requested, ms, Lossless, BitVec.toNat_mul, BitVec.reduceToNat]
    have := seconds.isLt
    omega
  | coUsleep usec =>
    simp only [requested, ms, Lossless, BitVec.toNat_udiv, BitVec.reduceToNat]
    omega
  | coNanosleep req =>
    simp only [requested, ms, Lossless, BitVec.toNat_ofNat]
    have := req.nsec_lt
    omega

end SleepCall

/-! ## The system -/

/-- The state of the current executor is `Exec`. -/
def CoPhase.yields : CoPhase → Bool
  | .running _ => true
  | _ => false

/-- Ghost: a call and the timer it made. -/
structure Nap where
  call : SleepCall
  timer : Timer Callback

/-- Ghost: a sleep of the executor has returned; a reading of the clock had reached its target. -/
structure Return where
  executor : Nat
  reached : Bool
  deriving DecidableEq

structure SleepSys where
  clocked : Clocked
  naps : List Nap := []
  returns : List Return := []

inductive SleepInput where
  /-- The current executor sleeps. -/
  | sleep (call : SleepCall) (curMs : Nat)
  | dispatch (pick : Nat)
  | other (i : Clocked.Input)

namespace SleepSys

def init (pipe : Nat) : SleepSys where
  clocked := .init pipe

/-- The sleep that ends when the executor current in `t` is entered, if it is in one. -/
def ended (s t : Clocked) : List Return :=
  match t.sys.phase.current with
  | some c => if (s.sys.co c).state = .waiting .sleep then [⟨c, s.ripe c⟩] else []
  | none => []

/-- The timer `sleepInner` makes for the executor `c`. -/
def timerOf (s : CoSys) (c ms curMs : Nat) : Timer Callback :=
  (CoSys.startTimer s.world curMs ms (.wake c ((s.co c).suspension + 1))).1

def step (s : SleepSys) : SleepInput → Option SleepSys
  | .sleep call curMs =>
    match s.clocked.sys.phase.current with
    | some c => (s.clocked.step (.sleepInner call.ms.toNat curMs)).map fun t =>
      { clocked := t
        naps := s.naps ++ [⟨call, timerOf s.clocked.sys c call.ms.toNat curMs⟩]
        -- the base executor does not yield: its call returns at once
        returns := s.returns ++
          if s.clocked.sys.phase = .running c then [] else [⟨c, t.ripe c⟩] }
    | none => none
  | .dispatch pick => (s.clocked.step (.dispatch pick)).map fun t =>
    { s with clocked := t, returns := s.returns ++ ended s.clocked t }
  | .other i =>
    match i with
    | .sleepInner .. => none
    | .dispatch _ => none
    | i => (s.clocked.step i).map fun t => { s with clocked := t }

/-- Every timer made covers the duration asked for, and no sleep has returned before the clock
reached its target. -/
def Lasts (s : SleepSys) : Prop :=
  (∀ n ∈ s.naps, n.call.requested ≤ n.timer.interval * 1000000) ∧ ∀ r ∈ s.returns, r.reached = true

/-- What the loop takes next ends no sleep early: an entry that enters a sleeping coroutine is
of this sleep, or the clock has reached its target already; and the loop is not left while the
base executor sleeps. -/
def NextTimely (s : Clocked) : Prop :=
  match s.sys.world.scheduler.takeReady.1 with
  | some (.co c n) => (s.sys.co c).state = .waiting .sleep →
    n = (s.sys.co c).suspension ∨ s.ripe c = true
  | some (.run _) => True
  | none => s.sys.world.scheduler.stopping = true →
    (s.sys.co baseExecutor).state = .waiting .sleep → s.ripe baseExecutor = true

instance (s : Clocked) : Decidable (NextTimely s) :=
  match h : s.sys.world.scheduler.takeReady.1 with
  | some (.co c n) => decidable_of_iff ((s.sys.co c).state = .waiting .sleep →
      n = (s.sys.co c).suspension ∨ s.ripe c = true) (by simp only [NextTimely, h])
  | some (.run _) => .isTrue (by simp only [NextTimely, h])
  | none => decidable_of_iff (s.sys.world.scheduler.stopping = true →
      (s.sys.co baseExecutor).state = .waiting .sleep → s.ripe baseExecutor = true)
      (by simp only [NextTimely, h])

/-- The calls lose nothing, the base executor only sleeps until a moment that has come, and what
the loop takes next is timely. -/
def Keeps (s : SleepSys) : SleepInput → Prop
  | .sleep call curMs => call.Lossless ∧
    (s.clocked.sys.phase.yields = true ∨ targetOf curMs call.ms.toNat ≤ curMs)
  | .dispatch _ => NextTimely s.clocked
  | .other _ => True

instance (s : SleepSys) : (i : SleepInput) → Decidable (s.Keeps i)
  | .sleep .. => inferInstanceAs (Decidable (_ ∧ _))
  | .dispatch _ => inferInstanceAs (Decidable (NextTimely _))
  | .other _ => .isTrue trivial

/-! ## Steps -/

variable {s t : SleepSys}

theorem lasts_append {naps : List Nap} {returns : List Return} {u : Clocked} (h : s.Lasts) :
    Lasts ⟨u, s.naps ++ naps, s.returns ++ returns⟩ ↔
      (∀ n ∈ naps, n.call.requested ≤ n.timer.interval * 1000000) ∧
        ∀ r ∈ returns, r.reached = true := by
  simp only [Lasts, List.forall_mem_append]
  exact ⟨fun ⟨h1, h2⟩ => ⟨h1.2, h2.2⟩, fun ⟨h1, h2⟩ => ⟨⟨h.1, h1⟩, h.2, h2⟩⟩

/-- After the timer is made its target is reached exactly when it is not in the future. -/
theorem sleepBase_ripe (u : Clocked) (ms curMs : Nat) :
    (u.sleepBase ms curMs).ripe baseExecutor = decide (targetOf curMs ms ≤ curMs) := by
  simp [Clocked.sleepBase, Clocked.setTimer, Clocked.ripe]

theorem sleep_exact {call : SleepCall} {curMs : Nat} (h : s.Lasts)
    (hs : s.step (.sleep call curMs) = some t) :
    (t.Lasts ↔ s.Keeps (.sleep call curMs)) ∧
      s.clocked.step (.sleepInner call.ms.toNat curMs) = some t.clocked := by
  simp only [step] at hs
  cases hc : s.clocked.sys.phase.current with
  | none => simp [hc] at hs
  | some c =>
    simp only [hc] at hs
    obtain ⟨u, hu, rfl⟩ := Option.map_eq_some_iff.1 hs
    refine ⟨?_, hu⟩
    have hinterval : (timerOf s.clocked.sys c call.ms.toNat curMs).interval = call.ms.toNat := rfl
    rw [lasts_append h]
    simp only [List.mem_singleton, forall_eq, hinterval, call.requested_le_iff, Keeps]
    apply and_congr_right
    intro _
    unfold Clocked.step at hu
    split at hu
    · cases hu
    cases hp : s.clocked.sys.phase with
    | setup =>
      simp only [hp] at hu hc
      cases hu
      cases hc
      simp [CoPhase.yields, sleepBase_ripe]
    | left =>
      simp only [hp] at hu hc
      cases hu
      cases hc
      simp [CoPhase.yields, sleepBase_ripe]
    | running c' =>
      rw [hp] at hc
      cases hc
      simp [CoPhase.yields]
    | loop => rw [hp] at hc; cases hc
    | blocked => rw [hp] at hc; cases hc

/-- A sleep that the loop ends is ripe exactly when the entry taken is timely: the entry of the
sleep itself comes from its timer. -/
theorem dispatch_exact {u v : Clocked} {pick : Nat} (hj : u.Punctual)
    (hs : u.step (.dispatch pick) = some v) :
    (∀ r ∈ ended u v, r.reached = true) ↔ NextTimely u := by
  unfold Clocked.step at hs
  split at hs
  · cases hs
  rename_i hf
  have hp : u.sys.phase = .loop := by
    by_contra hp
    cases hph : u.sys.phase <;> simp [hph] at hp hs
  simp only [hp, Option.some.injEq] at hs
  subst hs
  have hended : ∀ c, (∀ r ∈ (if (u.sys.co c).state = .waiting .sleep then
      [(⟨c, u.ripe c⟩ : Return)] else []), r.reached = true) ↔
      ((u.sys.co c).state = .waiting .sleep → u.ripe c = true) := by
    intro c
    split <;> simp [*]
  have hq := (hj (by simpa using hf)).queue
  have hstop : u.sys.world.scheduler.takeReady.2.stopping = u.sys.world.scheduler.stopping := by
    unfold Scheduler.takeReady
    split <;> rfl
  unfold ended NextTimely
  rw [Clocked.dispatch_phase, CoSys.dispatch_phase hp, hstop]
  cases hx : u.sys.world.scheduler.takeReady.1 with
  | none =>
    cases hst : u.sys.world.scheduler.stopping with
    | true => simp [CoPhase.current]
    | false => simp [CoPhase.current]
  | some e =>
    cases e with
    | run k => simp [CoPhase.current]
    | co c n =>
      by_cases hd : (u.sys.co c).state = .done
      · simp [hd, CoPhase.current]
      · simp only [if_neg hd, CoPhase.current]
        refine (hended c).trans ⟨fun h hsl => .inr (h hsl), fun h hsl => ?_⟩
        rcases h hsl with hn | hr
        · -- the entry of this sleep
          apply (hq (.co c n) (Scheduler.mem_of_takeReady hx)).2
          rw [hn, ← hsl]
        · exact hr

theorem step_exact {i : SleepInput} (hj : s.clocked.Punctual) (h : s.Lasts)
    (hs : s.step i = some t) : (t.Lasts ↔ s.Keeps i) ∧ t.clocked.Punctual := by
  cases i with
  | sleep call curMs =>
    obtain ⟨hx, hu⟩ := sleep_exact h hs
    exact ⟨hx, Clocked.step_punctual hj hu⟩
  | dispatch pick =>
    obtain ⟨u, hu, rfl⟩ := Option.map_eq_some_iff.1 hs
    refine ⟨?_, Clocked.step_punctual hj hu⟩
    have happ : Lasts ⟨u, s.naps ++ [], s.returns ++ ended s.clocked u⟩ ↔ _ := lasts_append h
    rw [List.append_nil] at happ
    apply happ.trans
    simp only [List.not_mem_nil, false_implies, implies_true, true_and]
    exact dispatch_exact hj hu
  | other i =>
    obtain ⟨u, hu, rfl⟩ : ∃ u, s.clocked.step i = some u ∧ { s with clocked := u } = t := by
      cases i with
      | sleepInner => cases hs
      | dispatch => cases hs
      | _ => exact Option.map_eq_some_iff.1 hs
    exact ⟨iff_of_true h trivial, Clocked.step_punctual hj hu⟩

/-- **How long a sleep lasts.** For every run of the coroutines and the base executor: in every
state, every timer made by `co_sleep`, `co_usleep` or `co_nanosleep` covers the duration asked
for, and every such call that has returned did so after a reading of the clock that reached the
timer's target, exactly when every step keeps it so. -/
theorem lasts_iff {pipe : Nat} {is : List SleepInput} (hr : run step (init pipe) is = some t) :
    Along step Lasts (init pipe) is ↔ Meets step Keeps (init pipe) is :=
  along_iff_meets (J := fun s => s.clocked.Punctual)
    (fun _ _ _ hj hp hs _ => (step_exact hj hp hs).2)
    (fun _ _ _ hj hp hs => (step_exact hj hp hs).1)
    (Clocked.init_punctual pipe) ⟨fun _ hn => (by cases hn), fun _ hr => (by cases hr)⟩ hr

/-- Before `run()` the base executor sleeps for no time at all, coroutine 1 for two seconds. The
loop enters both: the base executor sleeps again, now like a coroutine, and coroutine 1 goes on
when its time is over. -/
theorem lasts_two_seconds : Along step Lasts (init 3)
    [.sleep (.coUsleep 0) 5, .other (.act (.spawn 1)), .other .run, .dispatch 0,
      .sleep (.coSleep 2) 10, .dispatch 0, .other (.blockPending (fun _ => 2010) []), .dispatch 0,
      .dispatch 0, .dispatch 0, .sleep (.coNanosleep ⟨1, 500000000, by decide, by decide⟩) 2010,
      .dispatch 0] :=
  run_of_isSome (by decide +kernel) fun _ hr => (lasts_iff hr).2 (by decide +kernel)

/-- A nanosecond is no millisecond, `2^32` milliseconds are none either, the base executor does
not sleep, and a coroutine that sleeps is entered by an entry of the read it was in before. -/
theorem not_lasts :
    (∃ s, run step (init 3) [.other (.act (.spawn 1)), .other .run, .dispatch 0,
        .sleep (.coNanosleep ⟨0, 1, by decide, by decide⟩) 0] = some s ∧ ¬ s.Lasts) ∧
      (∃ s, run step (init 3) [.other (.act (.spawn 1)), .other .run, .dispatch 0,
        .sleep (.coSleep 4294968) 0] = some s ∧ ¬ s.Lasts) ∧
      (∃ s, run step (init 3) [.sleep (.coSleep 1) 0] = some s ∧ s.returns = [⟨0, false⟩] ∧
        ¬ s.Lasts) ∧
      ∃ s, run step (init 3) [.other (.act (.spawn 1)), .other .run, .dispatch 0,
        .other (.act (.coSocket 5)), .other (.ioInner 5 .read 10 0), .dispatch 0,
        .other (.blockPending (fun _ => 10) [⟨5, epollIn⟩]), .dispatch 0, .dispatch 0,
        .sleep (.coSleep 1) 10, .dispatch 0] = some s ∧ s.returns = [⟨1, false⟩] ∧ ¬ s.Lasts := by
  have hreturn : ∀ {s : SleepSys} {c : Nat}, s.returns = [⟨c, false⟩] → ¬ s.Lasts :=
    fun {s c} hs h => by simpa using h.2 ⟨c, false⟩ (by rw [hs]; exact List.mem_cons_self)
  refine ⟨⟨_, rfl, fun h => ?_⟩, ⟨_, rfl, fun h => ?_⟩, ⟨_, rfl, rfl, hreturn rfl⟩,
    ⟨_, rfl, rfl, hreturn rfl⟩⟩
  · exact absurd (h.1 _ List.mem_cons_self) (by decide)
  · exact absurd (h.1 _ List.mem_cons_self) (by decide)

end SleepSys

end NetBase
