import NetBase.Logging.AsyncFlusher
import NetBase.Logging.FlusherRegistry

/-!
# The flushers a configuration gets

The six flusher classes of `include/logging/logger_flusher.h`, as the makers of
`_LogFlusherManager` construct them: from the pattern, where the class takes one. The two
asynchronous ones share `AsyncFlusher`; `AsyncFileLogFlusher` starts its worker in the constructor
from a file name and not in the one from a pattern, which is the one its maker calls. Nobody
takes anything out of its queue then, and its destructor joins a thread that was never started,
which throws out of the destructor.

Calls of `flush` on a flusher without a worker do not overlap here (`ProtectedFlusher` has what
the lock is for), and its destructor is one step.
-/

namespace NetBase.Logging

open Lib

/-- The classes the constructor of `_LogFlusherManager` registers. -/
inductive FlusherKind where
  | simpleFile
  | protectedFile
  | asyncFile
  | simpleStdout
  | protectedStdout
  | asyncStdout
  deriving DecidableEq, Repr

namespace FlusherKind

def name : FlusherKind → String
  | .simpleFile => "SimpleFileFlusher"
  | .protectedFile => "ProtectedFileFlusher"
  | .asyncFile => "AsyncFileLogFlusher"
  | .simpleStdout => "SimpleStdoutFlusher"
  | .protectedStdout => "ProtectedStdoutFlusher"
  | .asyncStdout => "AsyncStdoutLogFlusher"

def all : List FlusherKind :=
  [.simpleFile, .protectedFile, .asyncFile, .simpleStdout, .protectedStdout, .asyncStdout]

/-- The class of a name, for the registered ones. -/
def ofName (name : String) : FlusherKind :=
  (all.find? fun kind => kind.name == name).getD .simpleFile

/-- `flush` leaves the string to a worker. -/
def isAsync : FlusherKind → Bool
  | .asyncFile => true
  | .asyncStdout => true
  | _ => false

end FlusherKind

/-- Which constructor of a file flusher is called. -/
inductive Construction where
  | fileName
  | pattern
  deriving DecidableEq, Repr

structure MadeFlusher (α : Type) where
  kind : FlusherKind
  /-- `thread_` has been started. -/
  started : Bool
  /-- The part inherited from `AsyncFlusher`; of the other flushers only the strings passed on, and
  the destructor, are of interest. -/
  base : AsyncFlusher α := {}
  /-- The process has ended in the destructor. -/
  terminated : Bool := false

namespace MadeFlusher

variable {α : Type}

def construct (kind : FlusherKind) (how : Construction) : MadeFlusher α where
  kind
  started :=
    match kind with
    | .asyncStdout => true
    | .asyncFile => how == .fileName
    | _ => false

/-- The makers pass the pattern on. -/
def maker (name : String) (_ : String) : MadeFlusher α := construct (.ofName name) .pattern

def withBase (f : MadeFlusher α) (i : FlusherInput α) : Option (MadeFlusher α) :=
  (f.base.step i).map fun base => { f with base }

/-- A step of the worker, or of a thread that flushes or destroys the flusher. -/
def asyncStep (f : MadeFlusher α) : FlusherInput α → Option (MadeFlusher α)
  | .work => if f.started then f.withBase .work else none
  | .spurious => if f.started then f.withBase .spurious else none
  | .join =>
    if f.started then f.withBase .join
    else if f.base.destructor = .joining then some { f with terminated := true } else none
  | .push str => f.withBase (.push str)
  | .notify => f.withBase .notify
  | .setStop => f.withBase .setStop
  | .notifyStop => f.withBase .notifyStop

def directStep (f : MadeFlusher α) : FlusherInput α → Option (MadeFlusher α)
  | .push str =>
    if f.base.destructor = .notCalled then
      some { f with base := { f.base with
        output := f.base.output ++ [str], flushed := f.base.flushed ++ [str] } }
    else none
  | .setStop =>
    if f.base.destructor = .notCalled then
      some { f with base := { f.base with destructor := .returned } }
    else none
  | _ => none

def step (f : MadeFlusher α) (i : FlusherInput α) : Option (MadeFlusher α) :=
  if f.terminated then none
  else if f.kind.isAsync then f.asyncStep i else f.directStep i

/-- Nothing more is flushed, and no wait ends by itself. -/
def quiet : FlusherInput α → Bool
  | .push _ => false
  | .spurious => false
  | _ => true

/-! ## With a worker -/

/-- What holds of an asynchronous flusher in every interleaving. -/
structure Sound (s : AsyncFlusher α) : Prop where
  ledger : s.output ++ s.logPool = s.flushed
  running : s.destructor = .notCalled → s.stop = false
  exited : s.worker = .exited → s.stop = true

end MadeFlusher

namespace AsyncFlusher

open MadeFlusher

variable {α : Type} {s t : AsyncFlusher α} {i : FlusherInput α}

theorem notifyOne_sound (h : Sound s) : Sound s.notifyOne := by
  rw [notifyOne_cases]
  refine ⟨h.ledger, h.running, fun hw => ?_⟩
  simp only at hw
  split at hw
  · cases hw
  · exact h.exited hw

theorem step_sound (h : Sound s) (hs : step s i = some t) : Sound t := by
  cases i with
  | push str =>
    obtain ⟨hok, rfl⟩ := Option.ite_some_none_eq_some.1 hs
    exact ⟨by simp [← h.ledger], h.running, h.exited⟩
  | notify =>
    obtain ⟨-, rfl⟩ := Option.ite_some_none_eq_some.1 hs
    have hn := notifyOne_sound h
    exact ⟨hn.ledger, hn.running, hn.exited⟩
  | spurious =>
    obtain ⟨-, rfl⟩ := Option.ite_some_none_eq_some.1 hs
    exact ⟨h.ledger, h.running, fun hw => by cases hw⟩
  | work =>
    rcases work_cases hs with ⟨hw, hst, rfl⟩ | ⟨hw, w, hne, rfl⟩ | ⟨hw, w, hw', rfl⟩ |
      ⟨hw, str, rest, hp, rfl⟩
    · exact ⟨h.ledger, h.running, fun _ => hst⟩
    · exact ⟨h.ledger, h.running, fun he => absurd he hne⟩
    · refine ⟨h.ledger, h.running, fun he => ?_⟩
      rcases hw' with rfl | rfl | rfl <;> cases he
    · have hl := h.ledger
      rw [hp] at hl
      exact ⟨by simpa using hl, h.running, h.exited⟩
  | setStop =>
    obtain ⟨-, rfl⟩ := Option.ite_some_none_eq_some.1 hs
    exact ⟨h.ledger, (fun hd => by cases hd), fun _ => rfl⟩
  | notifyStop =>
    obtain ⟨-, rfl⟩ := Option.ite_some_none_eq_some.1 hs
    have hn := notifyOne_sound h
    exact ⟨hn.ledger, (fun hd => by cases hd), hn.exited⟩
  | join =>
    obtain ⟨-, rfl⟩ := Option.ite_some_none_eq_some.1 hs
    exact ⟨h.ledger, (fun hd => by cases hd), h.exited⟩

/-- What neither the worker nor a `join` does puts out no string and ends no destructor. -/
theorem step_unworked (hs : step s i = some t)
    (hi : i ≠ .work ∧ i ≠ .spurious ∧ i ≠ .join) :
    t.output = s.output ∧ (t.destructor = .returned → s.destructor = .returned) := by
  have hnotify : s.notifyOne.output = s.output ∧ s.notifyOne.destructor = s.destructor := by
    rw [notifyOne_cases]
    exact ⟨rfl, rfl⟩
  cases i with
  | push str =>
    obtain ⟨-, rfl⟩ := Option.ite_some_none_eq_some.1 hs
    exact ⟨rfl, id⟩
  | notify =>
    obtain ⟨-, rfl⟩ := Option.ite_some_none_eq_some.1 hs
    exact ⟨hnotify.1, fun hd => hnotify.2.symm.trans hd⟩
  | setStop =>
    obtain ⟨-, rfl⟩ := Option.ite_some_none_eq_some.1 hs
    exact ⟨rfl, fun hd => by cases hd⟩
  | notifyStop =>
    obtain ⟨-, rfl⟩ := Option.ite_some_none_eq_some.1 hs
    exact ⟨hnotify.1, fun hd => by cases hd⟩
  | work => exact absurd rfl hi.1
  | spurious => exact absurd rfl hi.2.1
  | join => exact absurd rfl hi.2.2

/-- One step of the worker. -/
theorem reach_work (hs : s.work = some t) : Reach (only quiet step) s t := by
  have hstep : step s .work = some t := hs
  exact .cons (only_of rfl hstep) (.refl t)

/-- `doFlush` empties the queue. By induction on its length. -/
theorem reach_flushed (hw : s.worker = .flushing) :
    Reach (only quiet step) s
      { s with logPool := [], output := s.output ++ s.logPool, worker := .check } := by
  generalize hp : s.logPool = pool
  induction pool generalizing s with
  | nil =>
    have hs : s.work = some { s with worker := .check } := by simp [work, hw, hp]
    have heq : ({ s with worker := .check } : AsyncFlusher α) =
        { s with logPool := [], output := s.output ++ [], worker := .check } := by
      rw [List.append_nil, ← hp]
    exact heq ▸ reach_work hs
  | cons str rest ih =>
    have hs : s.work = some { s with logPool := rest, output := s.output ++ [str] } := by
      simp [work, hw, hp]
    have hrest := ih (s := { s with logPool := rest, output := s.output ++ [str] }) hw rfl
    have hreach := (reach_work hs).trans hrest
    simpa [hp] using hreach

/-- A worker that is woken passes on everything. -/
theorem reach_passed (hw : s.worker = .woken) :
    Reach (only quiet step) s
      { s with logPool := [], output := s.output ++ s.logPool, worker := .check } := by
  have h1 : s.work = some { s with worker := .doFlush } := by simp [work, hw]
  have h2 : ({ s with worker := .doFlush } : AsyncFlusher α).work =
      some { s with worker := .flushing } := rfl
  have h3 := reach_flushed (s := { s with worker := .flushing }) rfl
  exact ((reach_work h1).trans (reach_work h2)).trans h3

/-- From the top of its loop the worker comes to its wait. -/
theorem reach_waiting (hw : s.worker = .check) (hst : s.stop = false) :
    Reach (only quiet step) s { s with worker := .waiting } := by
  have h1 : s.work = some { s with worker := .lock } := by simp [work, hw, hst]
  have h2 : ({ s with worker := .lock } : AsyncFlusher α).work =
      some { s with worker := .locked } := rfl
  have h3 : ({ s with worker := .locked } : AsyncFlusher α).work =
      some { s with worker := .waiting } := rfl
  exact ((reach_work h1).trans (reach_work h2)).trans (reach_work h3)

/-- Wherever it is, a worker that is not told to stop comes to its wait, and nothing is lost on
the way. -/
theorem reach_wait (h : Sound s) (hst : s.stop = false) :
    ∃ out pool, out ++ pool = s.flushed ∧
      Reach (only quiet step) s { s with logPool := pool, output := out, worker := .waiting } := by
  cases hw : s.worker with
  | check => exact ⟨_, _, h.ledger, reach_waiting hw hst⟩
  | lock =>
    have h1 : s.work = some { s with worker := .locked } := by simp [work, hw]
    have h2 : ({ s with worker := .locked } : AsyncFlusher α).work =
        some { s with worker := .waiting } := rfl
    exact ⟨_, _, h.ledger, (reach_work h1).trans (reach_work h2)⟩
  | locked =>
    have h1 : s.work = some { s with worker := .waiting } := by simp [work, hw]
    exact ⟨_, _, h.ledger, reach_work h1⟩
  | waiting => exact ⟨_, _, h.ledger, by rw [← hw]; exact .refl s⟩
  | woken =>
    exact ⟨_, _, (List.append_nil _).trans h.ledger,
      (reach_passed hw).trans (reach_waiting rfl hst)⟩
  | doFlush =>
    have h1 : s.work = some { s with worker := .flushing } := by simp [work, hw]
    exact ⟨_, _, (List.append_nil _).trans h.ledger,
      ((reach_work h1).trans (reach_flushed rfl)).trans (reach_waiting rfl hst)⟩
  | flushing =>
    exact ⟨_, _, (List.append_nil _).trans h.ledger,
      (reach_flushed hw).trans (reach_waiting rfl hst)⟩
  | exited => cases hst.symm.trans (h.exited hw)

/-- The calls of `flush` that have pushed come to their ends. By induction on their number. -/
theorem reach_notified (n : Nat) (hn : s.notifies = n) : ∃ w, (w = .exited → s.worker = .exited) ∧
    Reach (only quiet step) s { s with worker := w, notifies := 0 } := by
  induction n generalizing s with
  | zero => exact ⟨s.worker, id, by rw [← hn]; exact .refl s⟩
  | succ n ih =>
    have hs : step s .notify = some { s.notifyOne with notifies := s.notifies - 1 } := by
      simp [step, hn]
    rw [notifyOne_cases] at hs
    obtain ⟨w, hw, hreach⟩ := ih (s := { s with
      worker := if s.worker = .waiting then .woken else s.worker, notifies := s.notifies - 1 })
      (by simp [hn])
    refine ⟨w, fun he => ?_, .cons (only_of rfl hs) hreach⟩
    have := hw he
    simp only at this
    split at this
    · cases this
    · exact this

/-- A flusher that is not being destroyed can be destroyed with everything passed on. -/
theorem reach_returned (h : Sound s) (hd : s.destructor = .notCalled) :
    ∃ t, Reach (only quiet step) s t ∧ t.output = s.flushed ∧ t.destructor = .returned := by
  have hst := h.running hd
  obtain ⟨w, hw, h1⟩ := reach_notified (s := s) _ rfl
  have hsound : Sound { s with worker := w, notifies := 0 } :=
    ⟨h.ledger, h.running, fun he => h.exited (hw he)⟩
  obtain ⟨out, pool, hl, h2⟩ := reach_wait hsound hst
  -- the destructor finds the worker waiting, and its notification is for the whole queue
  let u : AsyncFlusher α :=
    { s with worker := .waiting, notifies := 0, logPool := pool, output := out }
  have h3 : step u .setStop = some { u with stop := true, destructor := .stopSet } := by
    simp [step, u, hd, mutexFree]
  have h4 : step ({ u with stop := true, destructor := .stopSet } : AsyncFlusher α) .notifyStop =
      some { u with stop := true, destructor := .joining, worker := .woken } := by
    simp [step, notifyOne, u]
  have h5 := reach_passed (s := { u with stop := true, destructor := .joining, worker := .woken })
    rfl
  let v : AsyncFlusher α :=
    { u with stop := true, destructor := .joining, logPool := [], output := out ++ pool }
  have h6 : ({ v with worker := .check } : AsyncFlusher α).work =
      some { v with worker := .exited } := by simp [work, v]
  have h7 : step ({ v with worker := .exited } : AsyncFlusher α) .join =
      some { v with worker := .exited, destructor := .returned } := by simp [step, v]
  exact ⟨_, (h1.trans h2).trans (.cons (only_of rfl h3) (.cons (only_of rfl h4)
    (h5.trans ((reach_work h6).trans (.cons (only_of rfl h7) (.refl _)))))), hl, rfl⟩

end AsyncFlusher

namespace Registry

variable {Φ : Type}

/-- A call with a new key, as later lookups see it. -/
theorem getLogFlusher_step {s t : Registry Φ} {call : String × (String → Φ)} (hm : Mapped s)
    (hnew : ∀ r ∈ s.calls, ¬ SameKey r.key call.1) (hs : step s call = some t)
    (key pattern : String) : t.manager.getLogFlusher key pattern =
      if toUpper key = toUpper call.1 then some (call.2 pattern)
      else s.manager.getLogFlusher key pattern := by
  obtain ⟨name, func⟩ := call
  obtain ⟨hl, -, -⟩ | ⟨hl, hmgr, -⟩ := step_cases hs
  · obtain ⟨r, hr, hrk⟩ := (hm.some_iff name).1 hl
    have hsame : SameKey r.key name := by rw [SameKey, hrk, hm.upper hl]
    exact absurd hsame (hnew r hr)
  · have hc : UpperOrNew s (name, func) := .inr hnew
    have hfree := hc.lookup_none hm hl
    rw [hmgr, FlusherManager.getLogFlusher, lookup_emplace]
    by_cases hk : toUpper key = toUpper name
    · rw [if_pos ⟨hk, hfree⟩, if_pos hk]
      rfl
    · rw [if_neg (fun h => hk h.1), if_neg hk]
      rfl

/-- Lookups after calls whose keys are new and differ from each other. -/
theorem getLogFlusher_run {s t : Registry Φ} {calls : List (String × (String → Φ))}
    (hm : Mapped s) (hnew : ∀ call ∈ calls, ∀ r ∈ s.calls, ¬ SameKey r.key call.1)
    (hnodup : (calls.map fun call => toUpper call.1).Nodup) (h : run step s calls = some t)
    (key pattern : String) :
    (∀ call ∈ calls, SameKey key call.1 →
      t.manager.getLogFlusher key pattern = some (call.2 pattern)) ∧
    ((∀ call ∈ calls, ¬ SameKey key call.1) →
      t.manager.getLogFlusher key pattern = s.manager.getLogFlusher key pattern) := by
  induction calls generalizing s with
  | nil =>
    cases h
    exact ⟨fun _ hc => absurd hc List.not_mem_nil, fun _ => rfl⟩
  | cons call calls ih =>
    obtain ⟨u, hu, hrun⟩ := run_cons_inv h
    rw [List.map_cons, List.nodup_cons] at hnodup
    have hnew' : ∀ c ∈ calls, ∀ r ∈ u.calls, ¬ SameKey r.key c.1 := by
      intro c hc r hr
      cases hu
      rcases List.mem_cons.1 hr with rfl | hr
      · exact fun hsame => hnodup.1 (List.mem_map.2 ⟨c, hc, hsame.symm⟩)
      · exact hnew c (.tail _ hc) r hr
    have hstep := getLogFlusher_step hm (hnew call (.head _)) hu key pattern
    obtain ⟨hmem, hrest⟩ := ih (hm.step hu) hnew' hnodup.2 hrun
    constructor
    · intro c hc hk
      rcases List.mem_cons.1 hc with rfl | hc
      · have hother : ∀ d ∈ calls, ¬ SameKey key d.1 := fun d hd hkd =>
          hnodup.1 (List.mem_map.2 ⟨d, hd, hkd.symm.trans hk⟩)
        rw [hrest hother, hstep, if_pos (show toUpper key = toUpper c.1 from hk)]
      · exact hmem c hc hk
    · intro hno
      have hdiff : toUpper key ≠ toUpper call.1 := hno call (.head _)
      rw [hrest fun d hd => hno d (.tail _ hd), hstep, if_neg hdiff]

/-- A built-in name, in any case, gets the flusher its maker makes. -/
theorem constructed_made {make : String → String → Φ} {s : Registry Φ} {key name : String}
    (h : Constructed make s) (hn : name ∈ builtIn) (hk : SameKey key name) (pattern : String) :
    s.manager.getLogFlusher key pattern = some (make name pattern) := by
  have hnodup : (builtIn.map toUpper).Nodup := by decide +kernel
  have hget := getLogFlusher_run mapped_empty (by simp) (by rw [List.map_map]; exact hnodup) h
    key pattern
  exact hget.1 (name, make name) (List.mem_map_of_mem hn) hk
end Registry

namespace MadeFlusher

variable {α : Type} {f g : MadeFlusher α} {i : FlusherInput α} {kind : FlusherKind}
  {how : Construction}

theorem step_started (ha : f.kind.isAsync = true) (hs : f.started = true)
    (ht : f.terminated = false) : f.step i = f.withBase i := by
  simp only [step, ht, ha, Bool.false_eq_true, if_false, if_true]
  cases i <;> simp [asyncStep, hs]

theorem reach_base {b : AsyncFlusher α} (ha : f.kind.isAsync = true) (hs : f.started = true)
    (ht : f.terminated = false) (h : Reach (only quiet AsyncFlusher.step) f.base b) :
    Reach (only quiet step) f { f with base := b } := by
  obtain ⟨is, h⟩ := h
  induction is generalizing f with
  | nil =>
    cases h
    exact .refl f
  | cons i is ih =>
    obtain ⟨b', h1, h2⟩ := run_cons_inv h
    obtain ⟨hq, h1⟩ := only_inv h1
    have hstep : f.step i = some { f with base := b' } := by
      rw [step_started ha hs ht, withBase, h1]
      rfl
    exact .cons (only_of hq hstep) (ih (f := { f with base := b' }) ha hs ht h2)

/-- The flusher was constructed so, and its lists agree. -/
structure Built (kind : FlusherKind) (how : Construction) (f : MadeFlusher α) : Prop where
  isKind : f.kind = kind
  started : f.started = (construct (α := α) kind how).started
  worked : kind.isAsync = true → Sound f.base
  passed : kind.isAsync = false → f.base.output = f.base.flushed
  alive : f.started = true ∨ kind.isAsync = false → f.terminated = false
  ended : f.terminated = true → f.base.destructor = .joining

theorem withBase_inv (h : f.withBase i = some g) :
    ∃ b, f.base.step i = some b ∧ g = { f with base := b } := by
  obtain ⟨b, hb, rfl⟩ := Option.map_eq_some_iff.1 h
  exact ⟨b, hb, rfl⟩

/-- An asynchronous flusher steps as its base does, but for a `join` with nobody to wait for. -/
theorem asyncStep_cases (h : f.asyncStep i = some g) :
    (∃ b, f.base.step i = some b ∧ g = { f with base := b } ∧
      (f.started = false → i ≠ .work ∧ i ≠ .spurious ∧ i ≠ .join)) ∨
    (f.started = false ∧ f.base.destructor = .joining ∧ g = { f with terminated := true }) := by
  have hbase : f.withBase i = some g → (f.started = false → i ≠ .work ∧ i ≠ .spurious ∧ i ≠ .join) →
      ∃ b, f.base.step i = some b ∧ g = { f with base := b } ∧
        (f.started = false → i ≠ .work ∧ i ≠ .spurious ∧ i ≠ .join) := by
    intro hw hn
    obtain ⟨b, hb, hg⟩ := withBase_inv hw
    exact ⟨b, hb, hg, hn⟩
  cases i with
  | work =>
    simp only [asyncStep] at h
    split at h
    · rename_i hs
      exact .inl (hbase h fun hn => by rw [hs] at hn; cases hn)
    · cases h
  | spurious =>
    simp only [asyncStep] at h
    split at h
    · rename_i hs
      exact .inl (hbase h fun hn => by rw [hs] at hn; cases hn)
    · cases h
  | join =>
    simp only [asyncStep] at h
    split at h
    · rename_i hs
      exact .inl (hbase h fun hn => by rw [hs] at hn; cases hn)
    · rename_i hs
      split at h
      · rename_i hj
        cases h
        exact .inr ⟨by simpa using hs, hj, rfl⟩
      · cases h
  | push str => exact .inl (hbase h fun _ => by simp)
  | notify => exact .inl (hbase h fun _ => by simp)
  | setStop => exact .inl (hbase h fun _ => by simp)
  | notifyStop => exact .inl (hbase h fun _ => by simp)

theorem step_built (h : Built kind how f) (hs : f.step i = some g) : Built kind how g := by
  unfold step at hs
  split at hs
  · cases hs
  · rename_i hlive
    split at hs
    · rename_i ha
      rw [h.isKind] at ha
      rcases asyncStep_cases hs with ⟨b, hb, rfl, -⟩ | ⟨hn, hj, rfl⟩
      · refine ⟨h.isKind, h.started, fun _ => AsyncFlusher.step_sound (h.worked ha) hb,
          fun hd => ?_, h.alive, fun hd => absurd hd hlive⟩
        cases ha.symm.trans hd
      · refine ⟨h.isKind, h.started, h.worked, h.passed, fun hd => ?_, fun _ => hj⟩
        rcases hd with hd | hd
        · cases hn.symm.trans hd
        · cases ha.symm.trans hd
    · rename_i ha
      rw [h.isKind] at ha
      have hn : kind.isAsync = false := by simpa using ha
      unfold directStep at hs
      split at hs
      · split at hs
        · cases hs
          refine ⟨h.isKind, h.started, fun hd => absurd hd ha, fun _ => ?_, h.alive,
            fun hd => absurd hd hlive⟩
          simp [h.passed hn]
        · cases hs
      · split at hs
        · cases hs
          exact ⟨h.isKind, h.started, fun hd => absurd hd ha, fun _ => h.passed hn, h.alive,
            fun hd => absurd hd hlive⟩
        · cases hs
      · cases hs

theorem construct_built : Built kind how (construct (α := α) kind how) :=
  ⟨rfl, rfl, fun _ => ⟨rfl, fun _ => rfl, fun h => by cases h⟩, fun _ => rfl, fun _ => rfl,
    fun h => by cases h⟩

/-! ## Without one -/

/-- Nobody takes strings from the queue, and the destructor does not come to its end. -/
structure Silent (f : MadeFlusher α) : Prop where
  isKind : f.kind = .asyncFile
  started : f.started = false
  output : f.base.output = []
  destructor : f.base.destructor ≠ .returned

theorem step_silent (h : f.Silent) (hs : f.step i = some g) : g.Silent := by
  unfold step at hs
  split at hs
  · cases hs
  · rw [if_pos (by rw [h.isKind]; rfl)] at hs
    rcases asyncStep_cases hs with ⟨b, hb, rfl, hn⟩ | ⟨-, -, rfl⟩
    · obtain ⟨hout, hret⟩ := AsyncFlusher.step_unworked hb (hn h.started)
      exact ⟨h.isKind, h.started, hout.trans h.output, fun hd => h.destructor (hret hd)⟩
    · exact ⟨h.isKind, h.started, h.output, h.destructor⟩

theorem construct_silent : (construct (α := α) .asyncFile .pattern).Silent :=
  ⟨rfl, rfl, rfl, fun h => by cases h⟩

/-- `join` throws out of the destructor. -/
theorem Silent.join (h : f.Silent) (hs : f.step .join = some g) : g.terminated = true := by
  have ha : f.kind.isAsync = true := by
    rw [h.isKind]
    rfl
  unfold step at hs
  split at hs
  · cases hs
  · rcases asyncStep_cases hs with ⟨-, -, -, hn⟩ | ⟨-, -, rfl⟩
    · exact absurd rfl (hn h.started).2.2
    · rfl

/-- Whether a flusher can still be destroyed with everything passed on. -/
theorem delivers_iff (h : Built kind how f) (hd : f.base.destructor = .notCalled)
    (hsilent : kind = .asyncFile ∧ how = .pattern → f.Silent) :
    (∃ g, Reach (only quiet step) f g ∧ g.base.output = f.base.flushed ∧
      g.base.destructor = .returned) ↔ ¬ (kind = .asyncFile ∧ how = .pattern) := by
  constructor
  · rintro ⟨g, hreach, -, hret⟩ hk
    have hg := hreach.of_only.inv (hsilent hk) fun _ _ _ => step_silent
    exact hg.destructor hret
  · intro hk
    have hlive : f.terminated = false := by
      by_contra hend
      cases hd.symm.trans (h.ended (by simpa using hend))
    cases ha : kind.isAsync with
    | true =>
      have hs : f.started = true := by
        rw [h.started]
        cases kind with
        | asyncFile =>
          cases how with
          | fileName => rfl
          | pattern => exact absurd ⟨rfl, rfl⟩ hk
        | asyncStdout => rfl
        | _ => cases ha
      obtain ⟨b, hreach, hout, hret⟩ := AsyncFlusher.reach_returned (h.worked ha) hd
      exact ⟨_, reach_base (by rw [h.isKind]; exact ha) hs hlive hreach, hout, hret⟩
    | false =>
      have hs : f.step .setStop = some { f with
          base := { f.base with destructor := .returned } } := by
        simp [step, hlive, h.isKind, ha, directStep, hd]
      exact ⟨_, .cons (only_of rfl hs) (.refl _), h.passed ha, rfl⟩

/-! ## The manager's -/

theorem ofName_name (kind : FlusherKind) : FlusherKind.ofName kind.name = kind := by
  cases kind <;> decide +kernel

theorem name_mem_builtIn (kind : FlusherKind) : kind.name ∈ Registry.builtIn := by
  cases kind <;> decide +kernel

/-- **Made by the manager.** A built-in name, in any case, gets a flusher of its class. On every
run of it, whatever the threads do, it can be destroyed with every string passed on as long as
its destructor has not begun, exactly unless it is an `AsyncFileLogFlusher`. That one never
passes a string on, its destructor never returns, and a `join` ends the process, which happens to
no other. -/
theorem made_delivers_iff {registry : Registry (MadeFlusher α)}
    (h : Registry.Constructed maker registry) {kind : FlusherKind} {key : String}
    (hk : SameKey key kind.name) (pattern : String) :
    registry.manager.getLogFlusher key pattern = some (construct kind .pattern) ∧
      ∀ g : MadeFlusher α, Reach step (construct kind .pattern) g →
        (kind = .asyncFile → g.base.output = [] ∧ g.base.destructor ≠ .returned ∧
          ∀ t, g.step .join = some t → t.terminated = true) ∧
        (g.terminated = true → kind = .asyncFile) ∧
        (g.base.destructor = .notCalled →
          ((∃ t, Reach (only quiet step) g t ∧ t.base.output = g.base.flushed ∧
            t.base.destructor = .returned) ↔ kind ≠ .asyncFile)) := by
  have hmade := Registry.constructed_made h (name_mem_builtIn kind) hk pattern
  rw [maker, ofName_name] at hmade
  refine ⟨hmade, fun g hreach => ?_⟩
  have hbuilt : Built kind .pattern g := hreach.inv construct_built fun _ _ _ => step_built
  have hsilent : kind = .asyncFile → g.Silent := by
    rintro rfl
    exact hreach.inv construct_silent fun _ _ _ => step_silent
  refine ⟨fun hf => ?_, fun hend => ?_, fun hd => ?_⟩
  · have hs := hsilent hf
    exact ⟨hs.output, hs.destructor, fun t ht => hs.join ht⟩
  · by_contra hf
    have halive := hbuilt.alive
    rw [hend, hbuilt.started] at halive
    cases kind with
    | asyncFile => exact hf rfl
    | asyncStdout => cases halive (.inl rfl)
    | _ => cases halive (.inr rfl)
  · rw [delivers_iff hbuilt hd fun hf => hsilent hf.1]
    simp

/-- A line flushed to an `AsyncStdoutLogFlusher`, and one to an `AsyncFileLogFlusher`. -/
theorem made_delivers_iff_lines : ∃ registry : Registry (MadeFlusher String),
    Registry.Constructed maker registry ∧
    (∃ f g t, registry.manager.getLogFlusher "asyncstdoutlogflusher" "" = some f ∧
      f.step (.push "line") = some g ∧ Reach (only quiet step) g t ∧ t.base.output = ["line"] ∧
      t.base.destructor = .returned) ∧
    (∃ f g, registry.manager.getLogFlusher "asyncfilelogflusher" "" = some f ∧
      f.step (.push "line") = some g ∧ ¬ ∃ t, Reach (only quiet step) g t ∧
        t.base.output = ["line"] ∧ t.base.destructor = .returned) := by
  obtain ⟨registry, h⟩ := Registry.run_isSome ({} : Registry (MadeFlusher String))
    (Registry.builtIn.map fun name => (name, maker name))
  have hout : SameKey "asyncstdoutlogflusher" FlusherKind.asyncStdout.name := by
    unfold SameKey
    decide +kernel
  have hfile : SameKey "asyncfilelogflusher" FlusherKind.asyncFile.name := by
    unfold SameKey
    decide +kernel
  obtain ⟨hget, hruns⟩ := made_delivers_iff h hout ""
  obtain ⟨hget', hruns'⟩ := made_delivers_iff h hfile ""
  have hpush : ∀ kind : FlusherKind, kind.isAsync = true →
      (construct kind .pattern : MadeFlusher String).step (.push "line") =
        some { (construct kind .pattern : MadeFlusher String) with
          base := { logPool := ["line"], flushed := ["line"], notifies := 1 } } := by
    intro kind ha
    cases kind <;> first | rfl | cases ha
  obtain ⟨t, ht, hline, hret⟩ := ((hruns _ (.cons (hpush _ rfl) (.refl _))).2.2 rfl).2 (by decide)
  have hno := mt ((hruns' _ (.cons (hpush _ rfl) (.refl _))).2.2 rfl).1 (not_not.2 rfl)
  exact ⟨registry, h, ⟨_, _, t, hget, hpush _ rfl, ht, hline, hret⟩,
    ⟨_, _, hget', hpush _ rfl, hno⟩⟩

end MadeFlusher

end NetBase.Logging
