import NetBase.Coroutine.RemoteSafe

/-!
# Inserting makes progress

The retry loop of `insertFront`: a compare-exchange fails only when `head` is no longer what the
thread has read, so somebody else has inserted or detached meanwhile. `remaining` is what a
thread still has to do if nobody interferes; a change of `head` costs it at most one round of the
loop, the store of `next` and the compare-exchange again.
-/

namespace NetBase

open Lib RemoteTaskList

namespace RemoteSys

variable {own : Addr → Option Owner} {s t : RemoteSys} {p q : Nat} {op : RemoteOp}

/-- The steps `p` has to take to finish its insertion. -/
def remaining (s : RemoteSys) (p : Nat) : Nat :=
  match s.producers p with
  | .idle => 0
  | .load _ => 3
  | .link _ oldHead => if oldHead = s.head then 2 else 4
  | .cas _ oldHead => if oldHead = s.head then 1 else 3

/-- The steps `p` takes. -/
def taken (p : Nat) (_ : RemoteSys) : RemoteOp → Nat
  | .newNode q _ _ => if q = p then 1 else 0
  | .load q => if q = p then 1 else 0
  | .link q => if q = p then 1 else 0
  | .cas q => if q = p then 1 else 0
  | _ => 0

/-- The insertions `p` begins. -/
def begun (p : Nat) (_ : RemoteSys) : RemoteOp → Nat
  | .newNode q _ _ => if q = p then 1 else 0
  | _ => 0

/-- The changes of `head` by others. -/
def disturbed (p : Nat) (s : RemoteSys) (op : RemoteOp) : Nat :=
  match s.step op with
  | some t => if op = .cas p ∨ t.head = s.head then 0 else 1
  | none => 0

theorem disturbed_eq (h : s.step op = some t) (hp : op ≠ .cas p) :
    disturbed p s op = if t.head = s.head then 0 else 1 := by
  simp [disturbed, h, hp]

/-- A thread that does nothing loses one round at most, and none while `head` stays. -/
theorem remaining_le (hp : t.producers p = s.producers p) :
    t.remaining p ≤ s.remaining p + 2 * (if t.head = s.head then 0 else 1) := by
  unfold remaining
  rw [hp]
  cases s.producers p with
  | idle => exact Nat.le_add_right _ _
  | load a => exact Nat.le_add_right _ _
  | link a old =>
    by_cases hh : t.head = s.head
    · simp [hh]
    · simp only [hh, if_false]
      split <;> split <;> omega
  | cas a old =>
    by_cases hh : t.head = s.head
    · simp [hh]
    · simp only [hh, if_false]
      split <;> split <;> omega

/-- A step of somebody else. -/
theorem charge_other (hs : s.step op = some t) (ht : taken p s op = 0)
    (hp : t.producers p = s.producers p) :
    taken p s op + t.remaining p ≤
      s.remaining p + (4 * begun p s op + 2 * disturbed p s op) := by
  have hne : op ≠ .cas p := by
    rintro rfl
    simp [taken] at ht
  have hle := remaining_le hp
  rw [ht, disturbed_eq hs hne]
  omega

/-- Every step is paid for: an insertion by four steps, a disturbance by two. -/
theorem charge (h : Shape own s) (p : Nat) (hs : s.step op = some t) :
    taken p s op + t.remaining p ≤
      s.remaining p + (4 * begun p s op + 2 * disturbed p s op) := by
  cases step_effect h hs with
  | @newNode q a e hq ha =>
    by_cases hqp : q = p
    · subst hqp
      simp [taken, begun, remaining, hq, RemoteSys.newNode]
    · exact charge_other hs (by simp [taken, hqp]) (Function.update_of_ne (Ne.symm hqp) ..)
  | @load q a hq =>
    by_cases hqp : q = p
    · subst hqp
      simp only [taken, remaining, hq, setProducer_self, if_true]
      simp [setProducer]
    · exact charge_other hs (by simp [taken, hqp]) (setProducer_other _ (Ne.symm hqp))
  | @link q a old n hq hn =>
    by_cases hqp : q = p
    · subst hqp
      simp only [taken, remaining, hq, setProducer_self, if_true]
      by_cases hh : old = s.head <;> simp only [setProducer, setNode, hh, if_true, if_false] <;>
        omega
    · exact charge_other hs (by simp [taken, hqp]) (setProducer_other _ (Ne.symm hqp))
  | @win q a n hq hn =>
    by_cases hqp : q = p
    · subst hqp
      simp [taken, remaining, hq, push, setProducer]
    · exact charge_other hs (by simp [taken, hqp]) (setProducer_other _ (Ne.symm hqp))
  | @lose q a old hq hh =>
    by_cases hqp : q = p
    · subst hqp
      simp only [taken, remaining, hq, setProducer_self, if_true, if_neg (Ne.symm hh)]
      simp [setProducer]
    · exact charge_other hs (by simp [taken, hqp]) (setProducer_other _ (Ne.symm hqp))
  | exchange => exact charge_other hs rfl rfl
  | addExecutor => exact charge_other hs rfl rfl
  | delete => exact charge_other hs rfl rfl
  | take => exact charge_other hs rfl rfl
  | stop => exact charge_other hs rfl rfl

/-! ## Left alone -/

/-- The next step of `p` in `insertFront`. -/
def next (s : RemoteSys) (p : Nat) : RemoteOp :=
  match s.producers p with
  | .link _ _ => .link p
  | .cas _ _ => .cas p
  | _ => .load p

/-- What the steps of `p` leave alone. -/
structure Beside (p : Nat) (s t : RemoteSys) : Prop where
  producers : ∀ q, q ≠ p → t.producers q = s.producers q
  scheduler : t.scheduler = s.scheduler
  drains : t.drains = s.drains
  nextTicket : t.nextTicket = s.nextTicket

theorem Beside.trans {u : RemoteSys} (h : Beside p s t) (h' : Beside p t u) : Beside p s u :=
  ⟨fun q hq => (h'.producers q hq).trans (h.producers q hq), h'.scheduler.trans h.scheduler,
    h'.drains.trans h.drains, h'.nextTicket.trans h.nextTicket⟩

theorem advance (h : Shape own s) (hp : s.producers p ≠ .idle) :
    ∃ t, s.step (s.next p) = some t ∧ t.remaining p + 1 = s.remaining p ∧ Beside p s t := by
  have hset : ∀ st, Beside p s (s.setProducer p st) := fun st =>
    ⟨fun q hq => setProducer_other st hq, rfl, rfl, rfl⟩
  cases hst : s.producers p with
  | idle => exact absurd hst hp
  | load a =>
    refine ⟨s.setProducer p (.link a s.head), by simp [next, step, hst], ?_, hset _⟩
    simp only [remaining, setProducer_self, hst]
    simp [setProducer]
  | link a old =>
    obtain ⟨n, hn⟩ := h.heap_producer (p := p) (a := a) (by simp [hst, Producer.node])
    refine ⟨(s.setNode a (some { n with next := old })).setProducer p (.cas a old),
      by simp [next, step, hst, hn], ?_, fun q hq => setProducer_other _ hq, rfl, rfl, rfl⟩
    simp only [remaining, setProducer_self, hst]
    by_cases hh : old = s.head <;> simp [setProducer, setNode, hh]
  | cas a old =>
    obtain ⟨n, hn⟩ := h.heap_producer (p := p) (a := a) (by simp [hst, Producer.node])
    by_cases hh : s.head = old
    · refine ⟨s.push p a n.value, by simp [next, step, hst, hn, hh], ?_,
        fun q hq => setProducer_other _ hq, rfl, rfl, rfl⟩
      simp [remaining, push, setProducer, hst, hh]
    · refine ⟨s.setProducer p (.link a s.head), by simp [next, step, hst, hn, hh], ?_, hset _⟩
      simp only [remaining, setProducer_self, hst, if_neg (Ne.symm hh)]
      simp [setProducer]

theorem remaining_pos (h : s.producers p ≠ .idle) : 0 < s.remaining p := by
  unfold remaining
  cases hst : s.producers p with
  | idle => exact absurd hst h
  | load a => simp
  | link a old => dsimp only; split <;> simp
  | cas a old => dsimp only; split <;> simp

/-- By induction on what remains. -/
theorem finishes (h : Good s) (n : Nat) (hn : s.remaining p = n) :
    ∃ ops t, run step s ops = some t ∧ ops.length = n ∧
      (∀ op ∈ ops, op = .load p ∨ op = .link p ∨ op = .cas p) ∧ t.producers p = .idle ∧
      Beside p s t := by
  induction n generalizing s with
  | zero =>
    have hidle : s.producers p = .idle := by
      by_contra hp
      exact Nat.ne_of_gt (remaining_pos hp) hn
    exact ⟨[], s, rfl, rfl, by simp, hidle, fun _ _ => rfl, rfl, rfl, rfl⟩
  | succ n ih =>
    have hp : s.producers p ≠ .idle := by
      intro hp
      simp [remaining, hp] at hn
    obtain ⟨own, hs⟩ := h.1
    obtain ⟨u, hu, hr, hb⟩ := advance hs hp
    obtain ⟨ops, t, hrun, hlen, hops, hidle, hb'⟩ := ih (good_step h hu) (by omega)
    refine ⟨s.next p :: ops, t, run_cons hu hrun, by simp [hlen], fun op hop => ?_, hidle,
      hb.trans hb'⟩
    rcases List.mem_cons.1 hop with rfl | hop
    · unfold next
      split <;> simp
    · exact hops op hop

/-- **Inserting is lock-free.** In every interleaving, with retries and addresses used again, the
steps a thread has taken in `insertFront`, and those still ahead of it, are at most four for each
insertion it has begun and two for each time somebody else changed `head`; and from wherever it
stands it comes to its end in exactly the steps still ahead of it if it is left alone. -/
theorem insert_lock_free {ops : List RemoteOp} (hr : run step {} ops = some s) (p : Nat) :
    tally step (taken p) {} ops + s.remaining p ≤
        4 * tally step (begun p) {} ops + 2 * tally step (disturbed p) {} ops ∧
      ∃ ops' t, run step s ops' = some t ∧ ops'.length = s.remaining p ∧
        (∀ op ∈ ops', op = .load p ∨ op = .link p ∨ op = .cas p) ∧ t.producers p = .idle := by
  constructor
  · have hcharge : tally step (taken p) {} ops + s.remaining p ≤ remaining {} p +
        tally step (fun s op => 4 * begun p s op + 2 * disturbed p s op) {} ops :=
      tally_le (φ := fun s => s.remaining p) (fun _ _ _ h hs => good_step h hs)
        (fun s op t h hs => charge h.1.choose_spec p hs) good_init hr
    rw [tally_add] at hcharge
    have hzero : remaining {} p = 0 := rfl
    omega
  · obtain ⟨ops', t, hrun, hlen, hops, hidle, -⟩ := finishes (p := p) (good_reach ⟨ops, hr⟩) _ rfl
    exact ⟨ops', t, hrun, hlen, hops, hidle⟩

/-- Thread 0 has read the head when thread 1 inserts, and has to go round once more. -/
theorem insert_lock_free_retry : ∃ s, run step {} [.newNode 0 7 42, .newNode 1 8 43, .load 0,
      .load 1, .link 0, .link 1, .cas 1, .cas 0] = some s ∧
    tally step (taken 0) {} [.newNode 0 7 42, .newNode 1 8 43, .load 0, .load 1, .link 0, .link 1,
      .cas 1, .cas 0] + s.remaining 0 = 6 ∧
    ∃ ops' t, run step s ops' = some t ∧ ops'.length = 2 ∧ t.producers 0 = .idle := by
  have hr : run step {} [.newNode 0 7 42, .newNode 1 8 43, .load 0, .load 1, .link 0, .link 1,
    .cas 1, .cas 0] = some _ := rfl
  refine ⟨_, hr, by decide, ?_⟩
  obtain ⟨ops', t, hrun, hlen, -, hidle⟩ := (insert_lock_free hr 0).2
  exact ⟨ops', t, hrun, hlen, hidle⟩

end RemoteSys

end NetBase
