import Mathlib.Data.List.Induction
import NetBase.Base.Timer
import NetBase.Lib.History
import NetBase.Lib.Runs

/-!
# When timers fire

Callers create timers, add them and take the expired ones; `clock n` is the `n`-th
reading of the clock in the whole run, and every constructor and every take reads it.
`trace` records what was added and what each take handed out, with the repetitions it
put in.

`pending` is the abstract queue: the timers waiting, in the order they were put in,
computed from the trace alone. The manager's multiset is that queue in stable order
(`FireSys.Tracks`), a take hands out the part that is due, and when timers fire is
then read off the trace.
-/

namespace NetBase

open Lib TimerManager

variable {κ : Type}

inductive FireEvent (κ : Type) where
  | added (t : Timer κ)
  | took (curMs : Nat) (result copies : List (Timer κ))
  deriving DecidableEq

inductive FireOp (κ : Type) where
  | newTimer (interval : Nat) (callback : κ) (repeats : Bool)
  | addTimer (t : Timer κ)
  | takeExpiredTimers

/-- The timers `addRepeats` puts in. -/
def TimerManager.repetitions (nextId : Nat) (clock : Nat → Nat) : List (Timer κ) → List (Timer κ)
  | [] => []
  | t :: ts =>
    if t.repeats then
      .make nextId t.origin (clock 0) t.interval t.callback true ::
        repetitions (nextId + 1) (fun n => clock (n + 1)) ts
    else repetitions nextId clock ts

structure FireSys (κ : Type) where
  mgr : TimerManager κ := {}
  /-- Timer objects some caller holds a pointer to. -/
  objects : List (Timer κ) := []
  /-- Clock readings made so far. -/
  reads : Nat := 0
  trace : List (FireEvent κ) := []

namespace FireSys

def step [DecidableEq κ] (clock : Nat → Nat) (s : FireSys κ) : FireOp κ → Option (FireSys κ)
  | .newTimer interval callback repeats =>
    let (t, m) := s.mgr.newTimer (clock s.reads) interval (some callback) repeats
    some { s with mgr := m, objects := s.objects ++ [t], reads := s.reads + 1 }
  | .addTimer t =>
    if s.objects.contains t then
      match s.mgr.addTimer t with
      | .ok m => some { s with mgr := m, trace := s.trace ++ [.added t] }
      | .error _ => none
    else none
  | .takeExpiredTimers =>
    let clock' := fun n => clock (s.reads + n)
    let (result, m) := s.mgr.takeExpiredTimers clock'
    let copies := repetitions s.mgr.nextId (fun n => clock' (n + 1)) result
    some { mgr := m, objects := s.objects ++ result, reads := s.reads + 1 + copies.length,
           trace := s.trace ++ [.took (clock s.reads) result copies] }

end FireSys

/-! ## The abstract queue -/

namespace FireEvent

/-- A take that has to hand out `t` if it is waiting. -/
def due (t : Timer κ) : FireEvent κ → Bool
  | .added _ => false
  | .took curMs _ _ => t.targetTimestamp ≤ curMs

def inserts : FireEvent κ → List (Timer κ)
  | .added t => [t]
  | .took _ _ copies => copies

/-- What an event leaves of the timers waiting. -/
def queue (p : List (Timer κ)) : FireEvent κ → List (Timer κ)
  | .added t => p ++ [t]
  | .took curMs _ copies => (p.filter fun t => curMs < t.targetTimestamp) ++ copies

end FireEvent

/-- Every timer put in so far, in order. -/
def insertions (tr : List (FireEvent κ)) : List (Timer κ) := tr.flatMap FireEvent.inserts

/-- The timers waiting, in the order they were put in. -/
def pending (tr : List (FireEvent κ)) : List (Timer κ) := tr.foldl FireEvent.queue []

/-- How often `t` was added since the last take that had to hand it out. -/
def unserved [DecidableEq κ] (t : Timer κ) (tr : List (FireEvent κ)) : Nat :=
  (tr.reverse.takeWhile fun e => !e.due t).count (.added t)

/-- `x` is `t` or one of its repetitions. -/
def Timer.isCopy [DecidableEq κ] (t x : Timer κ) : Bool :=
  x.repeats && x.origin == t.origin && x.interval == t.interval && x.callback == t.callback

/-- An addition of `t` or of one of its repetitions. -/
def FireEvent.starts [DecidableEq κ] (t : Timer κ) : FireEvent κ → Bool
  | .added x => t.isCopy x
  | .took _ _ _ => false

/-- `y` is the repetition of `x` put in after `x` was handed out at `curMs`. -/
structure Repetition (curMs : Nat) (x y : Timer κ) : Prop where
  repeats : x.repeats = true ∧ y.repeats = true
  origin : y.origin = x.origin
  interval : y.interval = x.interval
  callback : y.callback = x.callback
  target : min (curMs + x.interval) maxStamp ≤ y.targetTimestamp

/-- What a take may record after `before`. -/
def TookRight (before : List (FireEvent κ)) : FireEvent κ → Prop
  | .added _ => True
  | .took curMs result copies =>
    Multi.Stable key result ((pending before).filter fun t => t.targetTimestamp ≤ curMs) ∧
      List.Forall₂ (Repetition curMs) (result.filter Timer.repeats) copies ∧
      ∀ r result' copies', .took r result' copies' ∈ before → r ≤ curMs

@[simp] theorem pending_snoc (tr : List (FireEvent κ)) (e : FireEvent κ) :
    pending (tr ++ [e]) = e.queue (pending tr) := by
  simp [pending]

@[simp] theorem insertions_snoc (tr : List (FireEvent κ)) (e : FireEvent κ) :
    insertions (tr ++ [e]) = insertions tr ++ e.inserts := by
  simp [insertions]

theorem pending_sublist (tr : List (FireEvent κ)) : (pending tr).Sublist (insertions tr) := by
  induction tr using List.reverseRecOn with
  | nil => exact List.Sublist.refl _
  | append_singleton tr e ih =>
    rw [pending_snoc, insertions_snoc]
    cases e with
    | added t => exact ih.append (List.Sublist.refl _)
    | took curMs result copies =>
      exact (List.filter_sublist.trans ih).append (List.Sublist.refl _)

/-! ## Reading the trace -/

theorem exists_repeated {curMs : Nat} {xs copies : List (Timer κ)}
    (h : List.Forall₂ (Repetition curMs) xs copies) {y : Timer κ} (hy : y ∈ copies) :
    ∃ x ∈ xs, Repetition curMs x y := by
  induction h with
  | nil => cases hy
  | cons hxy _ ih =>
    rcases List.mem_cons.1 hy with rfl | hy
    · exact ⟨_, List.mem_cons_self, hxy⟩
    · obtain ⟨x, hx, hxy⟩ := ih hy
      exact ⟨x, List.mem_cons_of_mem _ hx, hxy⟩

section Once

variable [DecidableEq κ] {t : Timer κ}

theorem unserved_snoc (tr : List (FireEvent κ)) (e : FireEvent κ) :
    unserved t (tr ++ [e]) =
      if e.due t then 0 else unserved t tr + if e = .added t then 1 else 0 := by
  unfold unserved
  rw [List.reverse_append, List.reverse_singleton, List.singleton_append, List.takeWhile_cons]
  cases he : e.due t with
  | true => rfl
  | false => simp [List.count_cons]

/-- The waiting copies of a one-shot timer are its unserved additions. -/
theorem count_pending (ht : t.repeats = false) {tr : List (FireEvent κ)}
    (hr : Each TookRight tr) : (pending tr).count t = unserved t tr := by
  induction tr using List.reverseRecOn with
  | nil => rfl
  | append_singleton tr e ih =>
    obtain ⟨htr, he⟩ := each_snoc.1 hr
    rw [pending_snoc, unserved_snoc]
    cases e with
    | added u => simp [FireEvent.queue, FireEvent.due, ih htr, List.count_cons]
    | took curMs result copies =>
      -- a repetition is a repeating timer
      have hc : copies.count t = 0 := by
        apply List.count_eq_zero.2
        intro hm
        obtain ⟨x, -, hxy⟩ := exists_repeated he.2.1 hm
        exact absurd hxy.repeats.2 (by simp [ht])
      by_cases hd : t.targetTimestamp ≤ curMs
      · have hz : ((pending tr).filter fun u => curMs < u.targetTimestamp).count t = 0 :=
          List.count_eq_zero.2 fun hm => by
            have := (List.mem_filter.1 hm).2
            simp at this
            omega
        simp [FireEvent.queue, FireEvent.due, hd, hc, hz]
      · have hz := List.count_filter (l := pending tr) (a := t)
          (p := fun u => decide (curMs < u.targetTimestamp)) (by simpa using hd)
        simp [FireEvent.queue, FireEvent.due, hd, hc, hz, ih htr]

/-- An addition is unserved until the first take at or past the target. -/
theorem unserved_pos_iff {tr : List (FireEvent κ)} : 0 < unserved t tr ↔
    ∃ earlier later, tr = earlier ++ .added t :: later ∧ ∀ e ∈ later, e.due t = false := by
  induction tr using List.reverseRecOn with
  | nil => simp [unserved]
  | append_singleton tr e ih =>
    rw [unserved_snoc]
    constructor
    · intro h
      by_cases hd : e.due t = true
      · simp [hd] at h
      · rw [if_neg hd] at h
        by_cases he : e = .added t
        · exact ⟨tr, [], by rw [he], by simp⟩
        · rw [if_neg he, Nat.add_zero, ih] at h
          obtain ⟨earlier, later, rfl, hl⟩ := h
          refine ⟨earlier, later ++ [e], by simp, fun x hx => ?_⟩
          rcases List.mem_append.1 hx with hx | hx
          · exact hl x hx
          · rw [List.mem_singleton.1 hx]
            simpa using hd
    · rintro ⟨earlier, later, hs, hl⟩
      rcases split_snoc hs with ⟨-, rfl, rfl⟩ | ⟨rest, rfl, hr⟩
      · simp [FireEvent.due]
      · have hd := hl e (by simp)
        rw [if_neg (by simp [hd])]
        have := ih.2 ⟨earlier, rest, hr, fun x hx => hl x (by simp [hx])⟩
        omega

end Once

section Repeating

variable [DecidableEq κ] {t : Timer κ}

theorem isCopy_interval {x : Timer κ} (h : t.isCopy x = true) : x.interval = t.interval := by
  simp only [Timer.isCopy, Bool.and_eq_true, beq_iff_eq] at h
  exact h.1.2

theorem Repetition.isCopy_iff {curMs : Nat} {x y : Timer κ} (h : Repetition curMs x y) :
    t.isCopy y = t.isCopy x := by
  simp only [Timer.isCopy, h.repeats.1, h.repeats.2, h.origin, h.interval, h.callback]

theorem countP_copies {curMs : Nat} {xs copies : List (Timer κ)}
    (h : List.Forall₂ (Repetition curMs) xs copies) :
    copies.countP t.isCopy = xs.countP t.isCopy := by
  induction h with
  | nil => rfl
  | cons hxy _ ih => rw [List.countP_cons, List.countP_cons, ih, hxy.isCopy_iff]

theorem countP_repeats (l : List (Timer κ)) :
    (l.filter Timer.repeats).countP t.isCopy = l.countP t.isCopy := by
  rw [List.countP_filter]
  apply List.countP_congr
  intro x _
  simp [Timer.isCopy]
  grind

/-- A take swaps every copy it hands out for its repetition. -/
theorem countP_pending {tr : List (FireEvent κ)} (hr : Each TookRight tr) :
    (pending tr).countP t.isCopy = tr.countP (FireEvent.starts t) := by
  induction tr using List.reverseRecOn with
  | nil => rfl
  | append_singleton tr e ih =>
    obtain ⟨htr, he⟩ := each_snoc.1 hr
    rw [pending_snoc, List.countP_append, ← ih htr]
    cases e with
    | added u => exact List.countP_append.trans rfl
    | took curMs result copies =>
      obtain ⟨hst, hcs, -⟩ := he
      have hcopies : copies.countP t.isCopy = result.countP t.isCopy := by
        rw [countP_copies hcs, countP_repeats]
      have hperm : result.Perm ((pending tr).filter fun u => u.targetTimestamp ≤ curMs) :=
        List.perm_iff_count.2 hst.count_eq
      have hsplit := List.countP_eq_countP_filter_add (pending tr) t.isCopy
        (fun u => decide (curMs < u.targetTimestamp))
      have hle : ((pending tr).filter fun u => !decide (curMs < u.targetTimestamp)) =
          (pending tr).filter fun u => u.targetTimestamp ≤ curMs :=
        List.filter_congr fun u _ => by by_cases h : curMs < u.targetTimestamp <;> simp [h]; omega
      simp only [hle] at hsplit
      rw [FireEvent.queue, List.countP_append, hcopies, hperm.countP_eq, hsplit]
      rfl

theorem two_le_countP {α : Type} {p : α → Bool} {l : List α} {x y : α} (hx : x ∈ l) (hy : y ∈ l)
    (hxy : x ≠ y) (hpx : p x = true) (hpy : p y = true) : 2 ≤ l.countP p := by
  rw [List.countP_eq_length_filter]
  have hx' : x ∈ l.filter p := List.mem_filter.2 ⟨hx, hpx⟩
  have hy' : y ∈ l.filter p := List.mem_filter.2 ⟨hy, hpy⟩
  match hf : l.filter p with
  | [] => simp [hf] at hx'
  | [z] =>
    rw [hf, List.mem_singleton] at hx' hy'
    exact absurd (hx'.trans hy'.symm) hxy
  | _ :: _ :: _ => simp

/-- What a take hands out was waiting, and due. -/
theorem TookRight.mem_result {before : List (FireEvent κ)} {curMs : Nat}
    {result copies : List (Timer κ)} (h : TookRight before (.took curMs result copies))
    {x : Timer κ} : x ∈ result ↔ x ∈ pending before ∧ x.targetTimestamp ≤ curMs := by
  rw [← List.count_pos_iff, h.1.count_eq, List.count_pos_iff, List.mem_filter, decide_eq_true_iff]

/-- A repeating timer that fired was added. -/
theorem starts_of_took {tr : List (FireEvent κ)} (hr : Each TookRight tr) {r : Nat}
    {result copies : List (Timer κ)} (htk : .took r result copies ∈ tr) {x : Timer κ}
    (hx : x ∈ result) (hxt : t.isCopy x = true) : 0 < tr.countP (FireEvent.starts t) := by
  obtain ⟨before, after, rfl⟩ := List.append_of_mem htk
  have hxp := ((hr before _ after rfl).mem_result.1 hx).1
  have hpos : 0 < (pending before).countP t.isCopy := List.countP_pos_iff.2 ⟨x, hxp, hxt⟩
  rw [countP_pending hr.before] at hpos
  rw [List.countP_append]
  omega

/-- A repeating timer added once waits at least its interval after each time it fired. -/
theorem pending_apart {tr : List (FireEvent κ)} (hr : Each TookRight tr)
    (h1 : tr.countP (FireEvent.starts t) ≤ 1) {r : Nat} {result copies : List (Timer κ)}
    (htk : .took r result copies ∈ tr) {x : Timer κ} (hx : x ∈ result) (hxt : t.isCopy x = true)
    {y : Timer κ} (hy : y ∈ pending tr) (hyt : t.isCopy y = true) :
    min (r + t.interval) maxStamp ≤ y.targetTimestamp := by
  induction tr using List.reverseRecOn with
  | nil => cases htk
  | append_singleton tr e ih =>
    obtain ⟨htr, he⟩ := each_snoc.1 hr
    rw [List.countP_append] at h1
    have h1' : tr.countP (FireEvent.starts t) ≤ 1 := by omega
    rw [pending_snoc] at hy
    cases e with
    | added u =>
      have htk' : .took r result copies ∈ tr := by simpa using htk
      rcases List.mem_append.1 hy with hy | hy
      · exact ih htr h1' htk' hy
      · -- the one addition is this one: `x` cannot have been handed out before
        obtain rfl := List.mem_singleton.1 hy
        have hpos := starts_of_took htr htk' hx hxt
        have hone : [FireEvent.added y].countP (FireEvent.starts t) = 1 := by
          simp [FireEvent.starts, hyt]
        omega
    | took curMs result' copies' =>
      have hmem : ∀ {z : Timer κ}, z ∈ result' ↔ _ := he.mem_result
      obtain ⟨-, hcs, hmono⟩ := he
      have hfresh : ∀ {q : Nat}, q ≤ curMs → y ∈ copies' →
          min (q + t.interval) maxStamp ≤ y.targetTimestamp := by
        intro q hq hyc
        obtain ⟨z, hz, hzy⟩ := exists_repeated hcs hyc
        have hzt := isCopy_interval (hzy.isCopy_iff.symm.trans hyt)
        have := hzy.target
        omega
      rcases List.mem_append.1 hy with hyo | hyc
      · rcases List.mem_append.1 htk with htk | htk
        · exact ih htr h1' htk (List.mem_filter.1 hyo).1
        · -- two copies waiting at once, one due and one not
          cases List.mem_singleton.1 htk
          obtain ⟨hxp, hxd⟩ := hmem.1 hx
          obtain ⟨hyp, hyd⟩ := List.mem_filter.1 hyo
          have hxy : x ≠ y := by
            rintro rfl
            simp at hyd
            omega
          have h2 := two_le_countP hxp hyp hxy hxt hyt
          rw [countP_pending htr] at h2
          omega
      · rcases List.mem_append.1 htk with htk | htk
        · exact hfresh (hmono _ _ _ htk) hyc
        · cases List.mem_singleton.1 htk
          exact hfresh (Nat.le_refl _) hyc

end Repeating

/-! ## The manager follows the queue -/

theorem repetition_make {curMs now : Nat} {t : Timer κ} (ht : t.repeats = true) (hn : curMs ≤ now)
    (id : Nat) : Repetition curMs t (.make id t.origin now t.interval t.callback true) where
  repeats := ⟨ht, rfl⟩
  origin := rfl
  interval := rfl
  callback := rfl
  target := by
    unfold Timer.make
    simp only
    split <;> omega

theorem repetitions_forall₂ {curMs : Nat} {ts : List (Timer κ)} :
    ∀ {nextId : Nat} {clock : Nat → Nat}, (∀ n, curMs ≤ clock n) →
      List.Forall₂ (Repetition curMs) (ts.filter Timer.repeats)
        (repetitions nextId clock ts) := by
  induction ts with
  | nil => exact fun _ => .nil
  | cons t ts ih =>
    intro nextId clock hc
    unfold repetitions
    split
    · rename_i ht
      rw [List.filter_cons_of_pos ht]
      exact .cons (repetition_make ht (hc 0) nextId) (ih fun n => hc (n + 1))
    · rename_i ht
      rw [List.filter_cons_of_neg ht]
      exact ih hc

theorem stable_addRepeats {ts : List (Timer κ)} :
    ∀ {m : TimerManager κ} {clock : Nat → Nat} {p : List (Timer κ)},
      Multi.Stable key m.timers p → Multi.Stable key (m.addRepeats clock ts).timers
        (p ++ repetitions m.nextId clock ts) := by
  induction ts with
  | nil =>
    intro m clock p h
    simpa [repetitions, addRepeats] using h
  | cons t ts ih =>
    intro m clock p h
    unfold repetitions addRepeats
    split
    · have := @ih (m.addRepeat (clock 0) t) (fun n => clock (n + 1)) _
        (h.insert (.make m.nextId t.origin (clock 0) t.interval t.callback true))
      simpa [addRepeat] using this
    · exact ih h

namespace FireSys

/-- The multiset is the abstract queue, every take so far was right, and no reading is ahead
of the clock. -/
structure Tracks (clock : Nat → Nat) (s : FireSys κ) : Prop where
  stable : Multi.Stable key s.mgr.timers (pending s.trace)
  right : Each TookRight s.trace
  past : ∀ r result copies, .took r result copies ∈ s.trace → r ≤ clock s.reads

variable [DecidableEq κ] {clock : Nat → Nat}

omit [DecidableEq κ] in
theorem tracks_take (hmono : ∀ m n, m ≤ n → clock m ≤ clock n) {s : FireSys κ}
    (h : Tracks clock s) :
    TookRight s.trace (.took (clock s.reads)
      (s.mgr.takeExpiredTimers fun n => clock (s.reads + n)).1
      (repetitions s.mgr.nextId (fun n => clock (s.reads + (n + 1)))
        (s.mgr.takeExpiredTimers fun n => clock (s.reads + n)).1)) := by
  refine ⟨?_, repetitions_forall₂ fun n => hmono _ _ (by omega), h.past⟩
  show Multi.Stable key (s.mgr.timers.take (expiredEnd (clock s.reads) s.mgr.timers)) _
  rw [(expiredEnd_spec h.stable.sorted).1]
  exact h.stable.filter _

theorem tracks_step (hmono : ∀ m n, m ≤ n → clock m ≤ clock n) {s s' : FireSys κ} {op : FireOp κ}
    (h : Tracks clock s) (hs : step clock s op = some s') : Tracks clock s' := by
  cases op with
  | newTimer interval callback repeats =>
    cases hs
    exact ⟨h.stable, h.right, fun r result copies hm =>
      (h.past r result copies hm).trans (hmono _ _ (Nat.le_succ _))⟩
  | addTimer t =>
    unfold step at hs
    simp only [TimerManager.addTimer] at hs
    split at hs
    · split at hs
      · rename_i m hm
        cases hs
        split at hm
        · cases hm
          refine ⟨?_, each_snoc.2 ⟨h.right, trivial⟩, fun r result copies hm => ?_⟩
          · rw [pending_snoc]
            exact h.stable.insert t
          · exact h.past r result copies (by simpa using hm)
        · cases hm
      · cases hs
    · cases hs
  | takeExpiredTimers =>
    have hright := tracks_take hmono h
    cases hs
    refine ⟨?_, each_snoc.2 ⟨h.right, hright⟩, fun r result copies hm => ?_⟩
    · rw [pending_snoc]
      apply stable_addRepeats (m := { s.mgr with timers := _ })
      show Multi.Stable key (s.mgr.timers.drop (expiredEnd (clock s.reads) s.mgr.timers)) _
      rw [(expiredEnd_spec h.stable.sorted).2]
      exact h.stable.filter _
    · refine Nat.le_trans ?_ (hmono s.reads _ ((Nat.le_succ _).trans (Nat.le_add_right _ _)))
      rcases List.mem_append.1 hm with hm | hm
      · exact h.past r result copies hm
      · cases List.mem_singleton.1 hm
        exact Nat.le_refl _

theorem reach_tracks (hmono : ∀ m n, m ≤ n → clock m ≤ clock n) {s : FireSys κ}
    (hr : Reach (step clock) {} s) : Tracks clock s :=
  hr.inv ⟨Multi.stable_nil, each_nil, by simp⟩ fun _ _ _ h hs => tracks_step hmono h hs

/-! ## The result -/

/-- Timers fire when they should. -/
structure FiresRight (s : FireSys κ) : Prop where
  /-- A one-shot timer is handed out by the first take at or past its target that follows
  an addition of it, once for each such addition, and by no other take. -/
  once : ∀ before curMs result copies after,
    s.trace = before ++ .took curMs result copies :: after → ∀ t : Timer κ, t.repeats = false →
      (t ∈ result ↔ t.targetTimestamp ≤ curMs ∧ ∃ earlier later,
        before = earlier ++ .added t :: later ∧ ∀ e ∈ later, e.due t = false) ∧
      result.count t = if t.targetTimestamp ≤ curMs then unserved t before else 0
  /-- A take hands out due timers only, in target order, equal targets as they were put in. -/
  order : ∀ before curMs result copies after,
    s.trace = before ++ .took curMs result copies :: after →
      (∀ x ∈ result, x.targetTimestamp ≤ curMs) ∧ Multi.Sorted key result ∧
      ∀ k, (result.filter fun x => x.targetTimestamp = k).Sublist
        ((insertions before).filter fun x => x.targetTimestamp = k)
  /-- As many copies of a repeating timer wait as it was added. -/
  waiting : ∀ t : Timer κ, s.mgr.timers.countP t.isCopy = s.trace.countP (FireEvent.starts t)
  /-- A repeating timer added once fires at most once in a take, and two takes that fire it
  are its interval apart, unless no stamp is that far. -/
  apart : ∀ t : Timer κ, s.trace.countP (FireEvent.starts t) = 1 →
    ∀ before r₁ result₁ copies₁ after, s.trace = before ++ .took r₁ result₁ copies₁ :: after →
      result₁.countP t.isCopy ≤ 1 ∧
      ∀ between r₂ result₂ copies₂ rest, after = between ++ .took r₂ result₂ copies₂ :: rest →
        (∃ x ∈ result₁, t.isCopy x = true) → (∃ x ∈ result₂, t.isCopy x = true) →
          r₁ + t.interval ≤ r₂ ∨ maxStamp < r₁ + t.interval

theorem took_once {before : List (FireEvent κ)} {curMs : Nat} {result copies : List (Timer κ)}
    (hb : Each TookRight before) (he : TookRight before (.took curMs result copies))
    {t : Timer κ} (ht : t.repeats = false) :
    (t ∈ result ↔ t.targetTimestamp ≤ curMs ∧ ∃ earlier later,
      before = earlier ++ .added t :: later ∧ ∀ e ∈ later, e.due t = false) ∧
    result.count t = if t.targetTimestamp ≤ curMs then unserved t before else 0 := by
  have hcount := count_pending ht hb
  constructor
  · rw [he.mem_result, ← unserved_pos_iff, ← hcount, List.count_pos_iff, and_comm]
  · split
    · rename_i hd
      rw [he.1.count_eq, List.count_filter (by simpa using hd), hcount]
    · rename_i hd
      exact List.count_eq_zero.2 fun hm => hd (he.mem_result.1 hm).2

theorem took_order {before : List (FireEvent κ)} {curMs : Nat} {result copies : List (Timer κ)}
    (he : TookRight before (.took curMs result copies)) :
    (∀ x ∈ result, x.targetTimestamp ≤ curMs) ∧ Multi.Sorted key result ∧
      ∀ k, (result.filter fun x => x.targetTimestamp = k).Sublist
        ((insertions before).filter fun x => x.targetTimestamp = k) := by
  refine ⟨fun x hx => (he.mem_result.1 hx).2, he.1.sorted, fun k => ?_⟩
  have hk : (result.filter fun x => x.targetTimestamp = k) = _ := he.1.equal k
  rw [hk]
  exact (List.filter_sublist.trans (pending_sublist before)).filter _

theorem took_apart {s : FireSys κ} (h : Tracks clock s) (hmax : ∀ n, clock n ≤ maxStamp)
    {t : Timer κ} (h1 : s.trace.countP (FireEvent.starts t) = 1) {before after : List (FireEvent κ)}
    {r₁ : Nat} {result₁ copies₁ : List (Timer κ)}
    (hs : s.trace = before ++ .took r₁ result₁ copies₁ :: after) :
    result₁.countP t.isCopy ≤ 1 ∧
      ∀ between r₂ result₂ copies₂ rest, after = between ++ .took r₂ result₂ copies₂ :: rest →
        (∃ x ∈ result₁, t.isCopy x = true) → (∃ x ∈ result₂, t.isCopy x = true) →
          r₁ + t.interval ≤ r₂ ∨ maxStamp < r₁ + t.interval := by
  have hright := h.right
  rw [hs] at hright h1
  constructor
  · have he := hright before _ after rfl
    have hperm := List.perm_iff_count.2 he.1.count_eq
    have hle : result₁.countP t.isCopy ≤ (pending before).countP t.isCopy := by
      rw [hperm.countP_eq]
      exact List.filter_sublist.countP_le
    rw [countP_pending hright.before] at hle
    rw [List.countP_append] at h1
    omega
  · rintro between r₂ result₂ copies₂ rest rfl ⟨x, hx, hxt⟩ ⟨y, hy, hyt⟩
    have hsplit : before ++ FireEvent.took r₁ result₁ copies₁ ::
        (between ++ .took r₂ result₂ copies₂ :: rest) =
        (before ++ .took r₁ result₁ copies₁ :: between) ++ .took r₂ result₂ copies₂ :: rest := by
      simp
    have he := hright _ _ _ hsplit
    rw [hsplit] at hright h1
    rw [List.countP_append] at h1
    obtain ⟨hyp, hyd⟩ := he.mem_result.1 hy
    have htk : FireEvent.took r₁ result₁ copies₁ ∈
        before ++ .took r₁ result₁ copies₁ :: between := by simp
    have := pending_apart hright.before (by omega) htk hx hxt hyp hyt
    have hr : r₂ ≤ maxStamp := (h.past r₂ result₂ copies₂ (by simp [hs])).trans (hmax _)
    omega

/-- **Timers fire once and never early.** Whatever callers create, add and take, as long as
the clock does not run backwards. -/
theorem timers_fire_once (hmono : ∀ m n, m ≤ n → clock m ≤ clock n)
    (hmax : ∀ n, clock n ≤ maxStamp) {s : FireSys κ} (hr : Reach (step clock) {} s) :
    FiresRight s := by
  have h := reach_tracks hmono hr
  refine ⟨?_, ?_, fun t => ?_, fun t h1 before r₁ result₁ copies₁ after hs =>
    took_apart h hmax h1 hs⟩
  · intro before curMs result copies after hs t ht
    have hright := h.right
    rw [hs] at hright
    exact took_once hright.before (hright _ _ _ rfl) ht
  · intro before curMs result copies after hs
    exact took_order (h.right _ _ _ hs)
  · rw [(List.perm_iff_count.2 h.stable.count_eq).countP_eq, countP_pending h.right]

/-- A one-shot timer due before the last stamp and a repeating one whose target saturates. -/
theorem timers_fire_once_saturated :
    ∃ s, run (step fun n => min (maxStamp - 6 + 2 * n) maxStamp) ({} : FireSys Nat)
        [.newTimer 3 7 false, .addTimer (.make 0 0 (maxStamp - 6) 3 (some 7) false),
          .newTimer 9 8 true, .addTimer (.make 1 1 (maxStamp - 4) 9 (some 8) true),
          .takeExpiredTimers, .takeExpiredTimers] = some s ∧
      (s.trace.length = 4 ∧ s.mgr.timers.length = 1) ∧ FiresRight s := by
  refine run_and ⟨_, rfl, by decide +kernel⟩ fun s hs _ => timers_fire_once ?_ ?_ ⟨_, hs⟩
  · intro m n hmn
    omega
  · intro n
    exact Nat.min_le_right _ _

end FireSys

end NetBase
