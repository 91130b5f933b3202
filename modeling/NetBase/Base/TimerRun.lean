import NetBase.Base.Timer
import NetBase.Lib.Runs

/-!
# Runs of a timer manager

A `TimerSys` is a `TimerManager`, the timer objects its callers hold pointers to, and
the timers handed out so far. Callers create timers, add them (again and again if they
like), cancel any timer they know of, and take expired ones with any clock readings.

`removeTimer` looks a timer up by its target only. `removeTimer_exact_iff` says when
that is enough to cancel exactly the timer meant: its target is shared with no other
pending timer, and the pending timer found is the only one of its chain of repetitions.
-/

namespace NetBase

open Lib TimerManager

variable {κ : Type}

structure TimerSys (κ : Type) where
  mgr : TimerManager κ := {}
  /-- Timer objects some caller holds a pointer to. -/
  objects : List (Timer κ) := []
  /-- Timers handed out by takes, in order. -/
  taken : List (Timer κ) := []
  fault : Option Fault := none

inductive TimerOp (κ : Type) where
  | newTimer (curMs interval : Nat) (callback : κ) (repeats : Bool)
  | addTimer (t : Timer κ)
  | removeTimer (t : Timer κ) (pick : Nat)
  | takeExpiredTimers (clock : Nat → Nat)
  | takeFirstIfExpired (curMs : Nat) (clock : Nat → Nat)

namespace TimerSys

/-- The state after a call on the manager: its result, or the fault. -/
def after (s : TimerSys κ) : Except Fault (TimerManager κ) → TimerSys κ
  | .ok m => { s with mgr := m }
  | .error f => { s with fault := some f }

def step [DecidableEq κ] (s : TimerSys κ) (op : TimerOp κ) : Option (TimerSys κ) :=
  if s.fault.isSome then none
  else match op with
    | .newTimer curMs interval callback repeats =>
      let (t, m) := s.mgr.newTimer curMs interval (some callback) repeats
      some { s with mgr := m, objects := s.objects ++ [t] }
    | .addTimer t => if t ∈ s.objects then some (s.after (s.mgr.addTimer t)) else none
    | .removeTimer t pick =>
      if t ∈ s.objects then some (s.after (s.mgr.removeTimer pick (some t))) else none
    | .takeExpiredTimers clock =>
      let (result, m) := s.mgr.takeExpiredTimers clock
      some { s with mgr := m, objects := s.objects ++ result, taken := s.taken ++ result }
    | .takeFirstIfExpired curMs clock =>
      match s.mgr.takeFirstIfExpired curMs clock with
      | (true, some t, m) =>
        some { s with mgr := m, objects := s.objects ++ [t], taken := s.taken ++ [t] }
      | (_, _, m) => some { s with mgr := m }

/-- The pending timers a cancel of `t` should leave: all but those of its chain. -/
def cancelled (t : Timer κ) (l : List (Timer κ)) : List (Timer κ) :=
  l.filter fun x => x.origin ≠ t.origin

variable [DecidableEq κ]

/-- `removeTimer(t)` does what it is for: no fault, every other pending timer stays as it
is, and until something of `t`'s chain is added again no take hands out `t` or a
repetition of it. -/
def CancelExact (s : TimerSys κ) (t : Timer κ) (pick : Nat) : Prop :=
  ∃ s', step s (.removeTimer t pick) = some s' ∧ s'.fault = none ∧
    s'.mgr.timers = cancelled t s.mgr.timers ∧
    ∀ ops s'', run step s' ops = some s'' → (∀ u, .addTimer u ∈ ops → u.origin ≠ t.origin) →
      ∀ x ∈ s''.taken.drop s'.taken.length, x.origin ≠ t.origin

/-- One pending timer has the target of `t`, and it is the one pending timer of `t`'s chain. -/
def Sole (s : TimerSys κ) (t : Timer κ) : Prop :=
  ∃ x, Multi.equalRange key t.targetTimestamp s.mgr.timers = [x] ∧
    (s.mgr.timers.filter fun y => y.origin = t.origin) = [x]

/-! ## Steps -/

theorem step_fault {s s' : TimerSys κ} {op : TimerOp κ} (h : step s op = some s') :
    s.fault = none := by
  unfold step at h
  split at h
  · cases h
  · rename_i hf; simpa using hf

/-- What a step does to the pending timers and to the record of takes. -/
theorem step_cases {s s' : TimerSys κ} {op : TimerOp κ} (h : step s op = some s') :
    (s'.mgr.timers = s.mgr.timers ∧ s'.taken = s.taken) ∨
    (∃ t, op = .addTimer t ∧ s'.mgr = s.mgr.insert t ∧ s'.taken = s.taken) ∨
    (∃ t pick i, op = .removeTimer t pick ∧ s'.mgr.timers = s.mgr.timers.eraseIdx i ∧
      s'.taken = s.taken) ∨
    (∃ result rest clock, s.mgr.timers = result ++ rest ∧ s'.taken = s.taken ++ result ∧
      s'.mgr = { s.mgr with timers := rest }.addRepeats clock result) ∨
    (∃ t rest clock, s.mgr.timers = t :: rest ∧ s'.taken = s.taken ∧
      s'.mgr = { s.mgr with timers := rest }.addRepeats clock [t]) := by
  have hf := step_fault h
  unfold step at h
  rw [if_neg (by simp [hf])] at h
  cases op with
  | newTimer curMs interval callback repeats =>
    cases h
    exact .inl ⟨rfl, rfl⟩
  | addTimer t =>
    simp only at h
    split at h
    · cases h
      unfold TimerManager.addTimer
      split
      · exact .inr (.inl ⟨t, rfl, rfl, rfl⟩)
      · exact .inl ⟨rfl, rfl⟩
    · cases h
  | removeTimer t pick =>
    simp only at h
    split at h
    · cases h
      unfold TimerManager.removeTimer
      simp only
      split
      · exact .inr (.inr (.inl ⟨t, pick, _, rfl, rfl, rfl⟩))
      · exact .inl ⟨rfl, rfl⟩
    · cases h
  | takeExpiredTimers clock =>
    cases h
    exact .inr (.inr (.inr (.inl ⟨_, _, _, (List.take_append_drop _ _).symm, rfl, rfl⟩)))
  | takeFirstIfExpired curMs clock =>
    simp only [TimerManager.takeFirstIfExpired] at h
    cases hl : s.mgr.timers with
    | nil =>
      rw [hl] at h
      cases h
      exact .inl ⟨hl.symm ▸ rfl, rfl⟩
    | cons t rest =>
      rw [hl] at h
      simp only at h
      by_cases hd : t.targetTimestamp ≤ curMs
      · rw [if_pos hd] at h
        cases hc : t.callback.isSome with
        | true =>
          rw [hc] at h
          cases h
          exact .inr (.inr (.inr (.inl ⟨[t], rest, clock, rfl, rfl, rfl⟩)))
        | false =>
          rw [hc] at h
          cases h
          exact .inr (.inr (.inr (.inr ⟨t, rest, clock, rfl, rfl, rfl⟩)))
      · rw [if_neg hd] at h
        cases h
        exact .inl ⟨hl.symm ▸ rfl, rfl⟩

theorem ordered_step {s s' : TimerSys κ} {op : TimerOp κ} (hs : s.mgr.Ordered)
    (h : step s op = some s') : s'.mgr.Ordered := by
  rcases step_cases h with ⟨h, -⟩ | ⟨t, -, h, -⟩ | ⟨t, pick, i, -, h, -⟩ |
    ⟨result, rest, clock, hl, -, h⟩ | ⟨t, rest, clock, hl, -, h⟩
  · unfold Ordered; rw [h]; exact hs
  · rw [h]; exact hs.insert t
  · unfold Ordered; rw [h]; exact List.Pairwise.sublist (List.eraseIdx_sublist _ i) hs
  · rw [h]
    apply Ordered.addRepeats (m := { s.mgr with timers := rest })
    exact List.Pairwise.sublist (hl ▸ List.sublist_append_right result rest) hs
  · rw [h]
    apply Ordered.addRepeats (m := { s.mgr with timers := rest })
    exact List.Pairwise.sublist (hl ▸ List.sublist_cons_self t rest) hs

theorem reach_ordered {s : TimerSys κ} (h : Reach step {} s) : s.mgr.Ordered :=
  h.inv (I := fun s => s.mgr.Ordered) List.Pairwise.nil fun _ _ _ => ordered_step

/-- Nothing of chain `o` is pending, and nothing of it was handed out since `n` takes. -/
def Gone (o n : Nat) (s : TimerSys κ) : Prop :=
  n ≤ s.taken.length ∧ (∀ x ∈ s.mgr.timers, x.origin ≠ o) ∧ ∀ x ∈ s.taken.drop n, x.origin ≠ o

omit [DecidableEq κ] in
theorem gone_addRepeats {o : Nat} {m : TimerManager κ} {rest ts : List (Timer κ)}
    {clock : Nat → Nat} (hr : ∀ x ∈ rest, x.origin ≠ o) (ht : ∀ x ∈ ts, x.origin ≠ o) :
    ∀ x ∈ ({ m with timers := rest }.addRepeats clock ts).timers, x.origin ≠ o := by
  intro x hx
  rcases mem_addRepeats hx with hx | ⟨t, hts, -, ho, -⟩
  · exact hr x hx
  · rw [ho]; exact ht t hts

theorem gone_step {o n : Nat} {s s' : TimerSys κ} {op : TimerOp κ} (hg : Gone o n s)
    (hop : ∀ u, op = .addTimer u → u.origin ≠ o) (h : step s op = some s') : Gone o n s' := by
  obtain ⟨hn, hp, ht⟩ := hg
  rcases step_cases h with ⟨h, ht'⟩ | ⟨t, rfl, h, ht'⟩ | ⟨t, pick, i, -, h, ht'⟩ |
    ⟨result, rest, clock, hl, ht', h⟩ | ⟨t, rest, clock, hl, ht', h⟩
  · exact ⟨ht' ▸ hn, h ▸ hp, ht' ▸ ht⟩
  · refine ⟨ht' ▸ hn, fun x hx => ?_, ht' ▸ ht⟩
    rw [h] at hx
    rcases Multi.mem_insert.1 hx with rfl | hx
    · exact hop _ rfl
    · exact hp x hx
  · refine ⟨ht' ▸ hn, fun x hx => hp x ?_, ht' ▸ ht⟩
    rw [h] at hx
    exact List.mem_of_mem_eraseIdx hx
  · rw [hl] at hp
    have hres : ∀ x ∈ result, x.origin ≠ o := fun x hx => hp x (List.mem_append_left _ hx)
    have hrest : ∀ x ∈ rest, x.origin ≠ o := fun x hx => hp x (List.mem_append_right _ hx)
    refine ⟨by rw [ht', List.length_append]; omega, h ▸ gone_addRepeats hrest hres, ?_⟩
    rw [ht', List.drop_append_of_le_length hn]
    intro x hx
    rcases List.mem_append.1 hx with hx | hx
    · exact ht x hx
    · exact hres x hx
  · rw [hl] at hp
    have hrest : ∀ x ∈ rest, x.origin ≠ o := fun x hx => hp x (List.mem_cons_of_mem _ hx)
    refine ⟨ht' ▸ hn, h ▸ gone_addRepeats hrest (fun x hx => ?_), ht' ▸ ht⟩
    rw [List.mem_singleton.1 hx]
    exact hp t List.mem_cons_self

theorem gone_run {o n : Nat} : ∀ {ops : List (TimerOp κ)} {s s' : TimerSys κ}, Gone o n s →
    (∀ u, .addTimer u ∈ ops → u.origin ≠ o) → run step s ops = some s' → Gone o n s'
  | [], _, _, hg, _, h => by cases h; exact hg
  | op :: ops, _, _, hg, ha, h => by
    obtain ⟨t, h1, h2⟩ := run_cons_inv h
    exact gone_run (gone_step hg (fun u hu => ha u (hu ▸ List.mem_cons_self)) h1)
      (fun u hu => ha u (List.mem_cons_of_mem _ hu)) h2

/-! ## Cancelling -/

/-- The whole of a cancel is what it does to the pending timers. -/
theorem cancelExact_iff {s : TimerSys κ} {t : Timer κ} {pick : Nat} (hf : s.fault = none)
    (ht : t ∈ s.objects) : CancelExact s t pick ↔
      ∃ i, Multi.find key pick t.targetTimestamp s.mgr.timers = some i ∧
        s.mgr.timers.eraseIdx i = cancelled t s.mgr.timers := by
  have hstep : step s (.removeTimer t pick) =
      some (s.after (s.mgr.removeTimer pick (some t))) := by simp [step, hf, ht]
  constructor
  · rintro ⟨s', h1, h2, h3, -⟩
    rw [hstep] at h1
    obtain rfl := Option.some.inj h1
    unfold TimerManager.removeTimer at h2 h3
    simp only at h2 h3
    split at h3
    · rename_i i hi
      exact ⟨i, hi, h3⟩
    · rename_i hi
      simp [hi, after] at h2
  · rintro ⟨i, hi, he⟩
    have hm : s.mgr.removeTimer pick (some t) =
        .ok { s.mgr with timers := s.mgr.timers.eraseIdx i } := by
      simp [TimerManager.removeTimer, hi]
    rw [hm] at hstep
    refine ⟨_, hstep, hf, he, fun ops s'' hr ha x hx => ?_⟩
    refine (gone_run ⟨Nat.le_refl _, fun y hy => ?_, fun y hy => ?_⟩ ha hr).2.2 x hx
    · have hy' : y ∈ cancelled t s.mgr.timers := he ▸ hy
      simpa using (List.mem_filter.1 hy').2
    · simp at hy

omit [DecidableEq κ] in
/-- Erasing the element at `i` is dropping chain `o` exactly when that element is all of it. -/
theorem eraseIdx_eq_filter {l : List (Timer κ)} {i o : Nat} {x : Timer κ} (hx : l[i]? = some x)
    (h : l.eraseIdx i = l.filter fun y => y.origin ≠ o) :
    (l.filter fun y => y.origin = o) = [x] := by
  obtain ⟨hi, rfl⟩ := List.getElem?_eq_some_iff.1 hx
  have hperm : l.Perm (l[i] :: l.eraseIdx i) := by
    rw [List.eraseIdx_eq_take_drop_succ]
    refine (List.Perm.of_eq ?_).trans List.perm_middle
    rw [← List.drop_eq_getElem_cons hi, List.take_append_drop]
  have hf := hperm.filter fun y => y.origin = o
  have hnone : ((l.eraseIdx i).filter fun y => y.origin = o) = [] := by
    rw [h, List.filter_filter, List.filter_eq_nil_iff]
    simp
  by_cases ho : l[i].origin = o
  · rw [List.filter_cons_of_pos (by simpa using ho), hnone] at hf
    exact List.perm_singleton.1 hf
  · -- a kept element cannot be the erased one: the lengths would differ
    exfalso
    rw [List.filter_cons_of_neg (by simpa using ho), hnone] at hf
    have hall : (l.filter fun y => y.origin ≠ o) = l := by
      apply List.filter_eq_self.2
      intro y hy
      have := List.filter_eq_nil_iff.1 (List.perm_nil.1 hf) y hy
      simpa using this
    have hlen := congrArg List.length (h.trans hall)
    rw [List.length_eraseIdx_of_lt hi] at hlen
    omega

theorem sole_of_exact {s : TimerSys κ} {t : Timer κ} (hs : s.mgr.Ordered) (hf : s.fault = none)
    (ht : t ∈ s.objects) (h : ∀ pick, CancelExact s t pick) : Sole s t := by
  set l := s.mgr.timers with hl
  set E := Multi.equalRange key t.targetTimestamp l with hE
  have hpick : ∀ pick, ∃ x, E[pick % E.length]? = some x ∧
      (l.filter fun y => y.origin = t.origin) = [x] := by
    intro pick
    obtain ⟨i, hi, he⟩ := (cancelExact_iff hf ht).1 (h pick)
    obtain ⟨j, x, rfl, hx, hlx, -⟩ := Multi.find_some hs hi
    exact ⟨x, hx, eraseIdx_eq_filter hlx he⟩
  obtain ⟨x, hx0, hx⟩ := hpick 0
  have hall : ∀ y ∈ E, y.origin = t.origin := by
    intro y hy
    obtain ⟨j, hj, rfl⟩ := List.mem_iff_getElem.1 hy
    obtain ⟨z, hz, hz'⟩ := hpick j
    rw [Nat.mod_eq_of_lt hj, List.getElem?_eq_getElem hj] at hz
    obtain rfl := Option.some.inj hz
    have : E[j] ∈ l.filter fun y => y.origin = t.origin := by rw [hz']; exact List.mem_cons_self
    simpa using (List.mem_filter.1 this).2
  have hsub : E.Sublist [x] := by
    have hE' : (E.filter fun y => y.origin = t.origin) = E :=
      List.filter_eq_self.2 fun y hy => by simpa using hall y hy
    rw [← hx, ← hE']
    exact List.Sublist.filter _ List.filter_sublist
  refine ⟨x, ?_, hx⟩
  rcases List.sublist_singleton.1 hsub with hnil | h1
  · rw [hnil] at hx0; simp at hx0
  · exact h1

theorem exact_of_sole {s : TimerSys κ} {t : Timer κ} (hs : s.mgr.Ordered) (hf : s.fault = none)
    (ht : t ∈ s.objects) (h : Sole s t) (pick : Nat) : CancelExact s t pick := by
  obtain ⟨x, hE, hx⟩ := h
  apply (cancelExact_iff hf ht).2
  obtain ⟨i, hi⟩ : ∃ i, Multi.find key pick t.targetTimestamp s.mgr.timers = some i := by
    simp [Multi.find, hE]
  obtain ⟨j, y, rfl, hy, -, he⟩ := Multi.find_some hs hi
  refine ⟨i, hi, ?_⟩
  set A := s.mgr.timers.filter fun y => key y < t.targetTimestamp
  set B := s.mgr.timers.filter fun y => t.targetTimestamp < key y
  have hl : s.mgr.timers = A ++ (Multi.equalRange key t.targetTimestamp s.mgr.timers ++ B) :=
    hs.split _
  rw [hE] at he hl
  rw [he, cancelled]
  rw [hl] at hx ⊢
  simp only [List.filter_append] at hx ⊢
  have hxo : ([x].filter fun y => y.origin = t.origin) = [x] := by
    by_contra hne
    have hnil : ([x].filter fun y => y.origin = t.origin) = [] := by
      rcases List.sublist_singleton.1 (List.filter_sublist (l := [x])) with h0 | h1
      · exact h0
      · exact absurd h1 hne
    have hmem : x ∈ ([x] : List (Timer κ)) := List.mem_cons_self
    rw [← hx] at hmem
    have hin : x.origin = t.origin := by
      rcases List.mem_append.1 hmem with hm | hm
      · simpa using (List.mem_filter.1 hm).2
      · rcases List.mem_append.1 hm with hm | hm <;> simpa using (List.mem_filter.1 hm).2
    simp [hin] at hnil
  have hlen := congrArg List.length hx
  simp only [List.length_append, hxo, List.length_singleton] at hlen
  have hA : (A.filter fun y => y.origin = t.origin) = [] := List.eq_nil_of_length_eq_zero (by omega)
  have hB : (B.filter fun y => y.origin = t.origin) = [] := List.eq_nil_of_length_eq_zero (by omega)
  have hkeep : ∀ {C : List (Timer κ)}, (C.filter fun y => y.origin = t.origin) = [] →
      (C.filter fun y => y.origin ≠ t.origin) = C := by
    intro C hC
    apply List.filter_eq_self.2
    intro y hy
    have := List.filter_eq_nil_iff.1 hC y hy
    simpa using this
  have hxn : ([x].filter fun y => y.origin ≠ t.origin) = [] := by
    have : x.origin = t.origin := by simpa using (List.filter_eq_self.1 hxo) x List.mem_cons_self
    simp [this]
  rw [hkeep hA, hkeep hB, hxn]
  simp [Nat.mod_one]

/-- **Cancelling by target.** In every reachable state, cancelling a timer some caller
holds does what it should, whichever equal element `find` returns, exactly when one
pending timer has its target and is the one pending timer of its chain. -/
theorem removeTimer_exact_iff {s : TimerSys κ} (hr : Reach step {} s) (hf : s.fault = none)
    {t : Timer κ} (ht : t ∈ s.objects) : (∀ pick, CancelExact s t pick) ↔ Sole s t :=
  ⟨sole_of_exact (reach_ordered hr) hf ht, exact_of_sole (reach_ordered hr) hf ht⟩

/-- A timer alone at its target is cancelled exactly. -/
theorem removeTimer_exact_alone :
    ∃ s, run step ({} : TimerSys Nat)
        [.newTimer 100 5 7 false, .addTimer (.make 0 0 100 5 (some 7) false)] = some s ∧
      ∀ pick, CancelExact s (.make 0 0 100 5 (some 7) false) pick := by
  refine ⟨_, rfl, (removeTimer_exact_iff ?_ rfl (by decide)).2 ⟨_, rfl, rfl⟩⟩
  exact ⟨[.newTimer 100 5 7 false, .addTimer (.make 0 0 100 5 (some 7) false)], rfl⟩

/-- Two timers due at 105: cancelling the second erases the first. A timer that is not
pending and whose target nobody has: `erase(end())`. -/
theorem removeTimer_not_exact :
    (∃ s, run step ({} : TimerSys Nat)
        [.newTimer 100 5 7 false, .newTimer 100 5 8 false,
          .addTimer (.make 0 0 100 5 (some 7) false),
          .addTimer (.make 1 1 100 5 (some 8) false)] = some s ∧
      ¬ CancelExact s (.make 1 1 100 5 (some 8) false) 0) ∧
    ∃ s, run step ({} : TimerSys Nat)
        [.newTimer 100 5 7 false, .addTimer (.make 0 0 100 5 (some 7) false),
          .takeExpiredTimers fun _ => 105] = some s ∧
      ¬ CancelExact s (.make 0 0 100 5 (some 7) false) 0 := by
  refine ⟨⟨_, rfl, fun h => ?_⟩, ⟨_, rfl, fun h => ?_⟩⟩
  · obtain ⟨i, hi, he⟩ := (cancelExact_iff rfl (by decide)).1 h
    obtain rfl : 0 = i := Option.some.inj hi
    exact absurd he (by decide)
  · obtain ⟨i, hi, -⟩ := (cancelExact_iff rfl (by decide)).1 h
    cases hi

end TimerSys

end NetBase
