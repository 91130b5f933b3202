import NetBase.Coroutine.LockFree
import NetBase.IO.Wakeup

/-!
# Remote tasks get through

However far the threads have got, nothing can be stuck for good: not a producer that lost its
compare-exchange, not one that blocks on the full pipe, not the scheduler thread in the middle of
a batch or asleep in `epoll_wait`. From every state the steps still ahead of the threads lead to
one in which every task that was ever handed over has been dispatched.

The scheduler thread is brought to its wait first, with the pipe empty; then the producers come to
their ends one after the other, with the thread going back to sleep in between so that there is room
in the pipe. Nothing but a byte in the pipe ends a wait here: what wakes the thread for the tasks
that come in while it sleeps is the write of their producers, and that none is left behind in the
end is that no wake-up is lost (`Announced`).
-/

namespace NetBase

open Lib RemoteTaskList

namespace RemoteSys

variable {own : Addr → Option Owner} {s t : RemoteSys} {p : Nat} {op : RemoteOp}

/-- Every task handed over is in the list's log or still with its producer. -/
def Ticketed (s : RemoteSys) : Prop :=
  ∀ k, k < s.nextTicket → (∃ v ∈ s.log, v.ticket = k) ∨
    ∃ p v, s.inFlight p = some v ∧ v.ticket = k

theorem ticketed_keep (h : s.Ticketed) (hk : t.nextTicket = s.nextTicket) (hl : t.log = s.log)
    (hf : ∀ p, t.inFlight p = s.inFlight p) : t.Ticketed := by
  intro k hlt
  rw [hk] at hlt
  rcases h k hlt with hv | ⟨p, v, hp, hv⟩
  · exact .inl (hl ▸ hv)
  · exact .inr ⟨p, v, (hf p).trans hp, hv⟩

theorem ticketed_effect (hs : Shape own s) (h : s.Ticketed) (he : Effect s op t) : t.Ticketed := by
  have hfl := inFlight_effect hs he
  cases he with
  | @newNode p a e hp ha =>
    intro k hlt
    have hidle : s.inFlight p = none := by simp [inFlight, hp, Producer.node]
    rcases Nat.lt_succ_iff_lt_or_eq.1 hlt with hlt | rfl
    · rcases h k hlt with hv | ⟨q, v, hq, hv⟩
      · exact .inl hv
      · refine .inr ⟨q, v, ?_, hv⟩
        have hne : q ≠ p := by
          rintro rfl
          rw [hidle] at hq
          cases hq
        rw [inFlight_newNode hs ha, if_neg hne]
        exact hq
    · refine .inr ⟨p, ⟨e, s.nextTicket⟩, ?_, rfl⟩
      rw [inFlight_newNode hs ha, if_pos rfl]
  | load => exact ticketed_keep h rfl rfl (hfl (by simp) (by simp))
  | link => exact ticketed_keep h rfl rfl (hfl (by simp) (by simp))
  | @win p a n hp hn =>
    intro k hlt
    rcases h k hlt with ⟨v, hv, hk⟩ | ⟨q, v, hq, hk⟩
    · exact .inl ⟨v, List.mem_append_left _ hv, hk⟩
    · by_cases hqp : q = p
      · subst hqp
        have hval : s.inFlight q = some n.value := by simp [inFlight, hp, Producer.node, hn]
        cases hval.symm.trans hq
        exact .inl ⟨_, List.mem_append_right _ (List.mem_singleton_self _), hk⟩
      · refine .inr ⟨q, v, ?_, hk⟩
        rw [inFlight_push, if_neg hqp]
        exact hq
  | lose hp hh =>
    exact ticketed_keep h rfl rfl (inFlight_setProducer _ (by simp [hp, Producer.node]))
  | exchange => exact ticketed_keep h rfl rfl (hfl (by simp) (by simp))
  | addExecutor => exact ticketed_keep h rfl rfl (hfl (by simp) (by simp))
  | delete => exact ticketed_keep h rfl rfl (hfl (by simp) (by simp))
  | take => exact ticketed_keep h rfl rfl (hfl (by simp) (by simp))
  | stop => exact ticketed_keep h rfl rfl (hfl (by simp) (by simp))

theorem ticketed_reach (h : Reach step {} s) : s.Ticketed := by
  have hinv : s.Good ∧ s.Ticketed := h.inv (I := fun s : RemoteSys => s.Good ∧ s.Ticketed)
    ⟨good_init, fun k hk => absurd hk (Nat.not_lt_zero k)⟩ fun s op t hg hs =>
      ⟨good_step hg.1 hs, ticketed_effect hg.1.1.choose_spec hg.2
        (step_effect hg.1.1.choose_spec hs)⟩
  exact hinv.2

/-- A step moves one thread at most. -/
theorem producers_effect (he : Effect s op t) :
    ∃ p st, t.producers = Function.update s.producers p st := by
  have hsame : ∃ p st, s.producers = Function.update s.producers p st :=
    ⟨0, s.producers 0, (Function.update_eq_self 0 s.producers).symm⟩
  cases he with
  | newNode => exact ⟨_, _, rfl⟩
  | load => exact ⟨_, _, rfl⟩
  | link => exact ⟨_, _, rfl⟩
  | win => exact ⟨_, _, rfl⟩
  | lose => exact ⟨_, _, rfl⟩
  | exchange => exact hsame
  | addExecutor => exact hsame
  | delete => exact hsame
  | take => exact hsame
  | stop => exact hsame

/-- Only finitely many threads have come to `insertFront`. -/
theorem producers_idle (h : Reach step {} s) : ∃ n, ∀ p, n ≤ p → s.producers p = .idle := by
  have hinv : s.Good ∧ ∃ n, ∀ p, n ≤ p → s.producers p = .idle :=
    h.inv (I := fun s : RemoteSys => s.Good ∧ ∃ n, ∀ p, n ≤ p → s.producers p = .idle)
      ⟨good_init, 0, fun _ _ => rfl⟩ (by
        rintro s op t ⟨hg, n, hn⟩ hs
        obtain ⟨p, st, hp⟩ := producers_effect (step_effect hg.1.choose_spec hs)
        refine ⟨good_step hg hs, max n (p + 1), fun q hq => ?_⟩
        rw [hp, Function.update_of_ne (by omega)]
        exact hn q (by omega))
  exact hinv.2

theorem stopping_effect (he : Effect s op t) (hs : s.scheduler.stopping = true) :
    t.scheduler.stopping = true := by
  cases he with
  | addExecutor => exact (Scheduler.addExecutor_flags _ _).1.trans hs
  | stop =>
    show s.scheduler.stop.stopping = true
    unfold Scheduler.stop
    split
    · rfl
    · exact hs
  | _ => exact hs

end RemoteSys

namespace WakeSys

variable {capacity : Nat} {s t u : WakeSys} {op : WakeOp}

/-- Where the scheduler thread is in its batches, and who has still to write. -/
structure Steady (s : WakeSys) : Prop where
  reach : Reach RemoteSys.step {} s.remote
  walked : ∀ d D, s.remote.drains[d]? = some D → D.head = none ∨ s.phase = .walking d
  current : ∀ d, s.phase = .walking d → d < s.remote.drains.length
  left : s.phase = .left → s.remote.scheduler.stopping = true
  written : ∃ n, ∀ p, n ≤ p → s.unwritten p = false

/-- A step that leaves the batches and the phase alone. -/
theorem Steady.keep (h : s.Steady) (hr : Reach RemoteSys.step {} t.remote)
    (hd : t.remote.drains = s.remote.drains) (hp : t.phase = s.phase)
    (hs : s.remote.scheduler.stopping = true → t.remote.scheduler.stopping = true)
    (hu : ∃ n, ∀ p, n ≤ p → t.unwritten p = false) : t.Steady := by
  refine ⟨hr, fun d D hD => ?_, fun d hd' => ?_, fun hl => ?_, hu⟩
  · rw [hp]
    exact h.walked d D (hd ▸ hD)
  · rw [hd]
    exact h.current d (hp ▸ hd')
  · exact hs (h.left (hp ▸ hl))

/-- A step from one place outside the batches to another. -/
theorem Steady.moved (h : s.Steady) (hr : t.remote = s.remote) (hu : t.unwritten = s.unwritten)
    (hs : ∀ d D, s.phase = .walking d → s.remote.drains[d]? = some D → D.head = none)
    (ht : ∀ d, t.phase ≠ .walking d)
    (hl : t.phase = .left → s.remote.scheduler.stopping = true) : t.Steady := by
  refine ⟨hr ▸ h.reach, fun d D hD => ?_, fun d hd => absurd hd (ht d), fun hp => ?_,
    hu ▸ h.written⟩
  · rw [hr] at hD
    rcases h.walked d D hD with hn | hw
    · exact .inl hn
    · exact .inl (hs d D hw hD)
  · rw [hr]
    exact hl hp

theorem Steady.effect (h : s.Steady) {rop : RemoteOp} {r : RemoteSys}
    (hr : s.remote.step rop = some r) : RemoteSys.Effect s.remote rop r :=
  RemoteSys.step_effect (RemoteSys.good_reach h.reach).1.choose_spec hr

/-- A step of the list that leaves the batches alone. -/
theorem Steady.list {rop : RemoteOp} {r : RemoteSys} (h : s.Steady)
    (hr : s.remote.step rop = some r)
    (hd : rop ≠ .exchange ∧ (∀ d, rop ≠ .addExecutor d) ∧ (∀ d, rop ≠ .delete d)) :
    { s with remote := r }.Steady :=
  h.keep (h.reach.trans (.cons hr (.refl _))) ((RemoteSys.drains_effect (h.effect hr)).1 hd) rfl
    (RemoteSys.stopping_effect (h.effect hr)) h.written

/-- A step of the walk through the batch `d`. -/
theorem Steady.walk {d : Nat} {rop : RemoteOp} {r : RemoteSys} (h : s.Steady)
    (hp : s.phase = .walking d) (hd : rop = .addExecutor d ∨ rop = .delete d)
    (hr : s.remote.step rop = some r) : { s with remote := r }.Steady := by
  obtain ⟨hlen, hother⟩ := (RemoteSys.drains_effect (h.effect hr)).2 d hd
  refine ⟨h.reach.trans (.cons hr (.refl _)), fun e E hE => ?_, fun e hph => ?_, fun hl => ?_,
    h.written⟩
  · by_cases hed : e = d
    · exact .inr (hed ▸ hp)
    · exact h.walked e E (hother e hed ▸ hE)
  · exact hlen ▸ h.current e hph
  · cases hp.symm.trans hl

theorem Steady.exchange (h : s.Steady) (hp : s.phase = .top) : Steady { s with
    remote := s.remote.detach, phase := .walking s.remote.drains.length } := by
  have hx : s.remote.step .exchange = some s.remote.detach := rfl
  refine ⟨h.reach.trans (.cons hx (.refl _)), fun d D hD => ?_, fun d hd => ?_,
    (fun hl => by cases hl), h.written⟩
  · simp only [RemoteSys.detach, List.getElem?_append] at hD
    split at hD
    · rcases h.walked d D hD with hn | hw
      · exact .inl hn
      · cases hp.symm.trans hw
    · rename_i hlt
      have hle : d - s.remote.drains.length = 0 := by
        by_contra hne
        rw [List.getElem?_eq_none (by simp; omega)] at hD
        cases hD
      exact .inr (congrArg SchedulerPhase.walking (by omega))
  · cases hd
    simp [RemoteSys.detach]

theorem steady_step (h : s.Steady) (hs : step capacity s op = some t) : t.Steady := by
  have hmove : ∀ {ph : SchedulerPhase}, (∀ d, s.phase ≠ .walking d) → (∀ d, ph ≠ .walking d) →
      (ph = .left → s.remote.scheduler.stopping = true) → Steady { s with phase := ph } :=
    fun hs ht hl => h.moved rfl rfl (fun d D hd => absurd hd (hs d)) ht hl
  cases step_effect hs with
  | newNode hr | load hr | link hr | retry _ hr | stop _ hr => exact h.list hr (by simp)
  | @insert p r _ hr =>
    obtain ⟨n, hn⟩ := h.written
    have hst := h.list hr (by simp)
    refine hst.keep hst.reach rfl rfl id ⟨max n (p + 1), fun q hq => ?_⟩
    show Function.update s.unwritten p true q = false
    rw [Function.update_of_ne (by omega)]
    exact hn q (by omega)
  | @write p =>
    obtain ⟨n, hn⟩ := h.written
    refine h.keep h.reach rfl rfl id ⟨n, fun q hq => ?_⟩
    by_cases hqp : q = p
    · simp [hqp]
    · simpa [hqp] using hn q hq
  | exchange hp => exact h.exchange hp
  | walk hp hop hr => exact h.walk hp hop hr
  | walked hp hD hn =>
    refine h.moved rfl rfl (fun d' D' hd' hD' => ?_) (by simp) (by simp)
    cases hp.symm.trans hd'
    cases hD.symm.trans hD'
    exact hn
  | take hp hr =>
    exact (h.list hr (by simp)).moved rfl rfl (fun d D hd => by cases hp.symm.trans hd) (by simp)
      (by simp)
  | leave hp hst => exact hmove (by simp [hp]) (by simp) fun _ => hst
  | read => exact h.keep h.reach rfl rfl id h.written
  | runLocal hp | yield hp | block hp | enter hp | wake hp | drain hp | again hp | finish hp =>
    exact hmove (by simp [hp]) (by simp) (by simp)

theorem steady_reach (h : Reach (step capacity) {} s) : s.Steady := by
  refine h.inv ⟨.refl _, fun d D hD => ?_, fun d hd => ?_, fun hl => ?_, 0, fun _ _ => rfl⟩
    fun _ _ _ => steady_step
  · simp at hD
  · cases hd
  · cases hl

/-- With the wake-up announced; while the thread is in `epoll_wait`, or about to enter it, nothing
is queued. -/
structure Sound (s : WakeSys) : Prop extends s.Steady where
  announced : s.Announced
  idle : s.phase = .entering ∨ s.phase = .waiting → s.remote.scheduler.readyExecutors = []

theorem Steady.takeReady_none (h : s.Steady) (hn : s.remote.scheduler.takeReady.1 = none) :
    s.remote.scheduler.readyExecutors = [] := by
  have hnull := (RemoteSys.good_reach h.reach).2.noNull
  unfold Scheduler.takeReady at hn
  split at hn
  · assumption
  · rename_i executor rest hq
    simp only at hn
    subst hn
    exact absurd (hq ▸ List.mem_cons_self) hnull

/-- Only `addExecutor` and the loop change the queue. -/
theorem Steady.queue_kept (h : s.Steady) {rop : RemoteOp} {r : RemoteSys}
    (hr : s.remote.step rop = some r) (hop : (∀ d, rop ≠ .addExecutor d) ∧ rop ≠ .take) :
    r.scheduler.readyExecutors = s.remote.scheduler.readyExecutors := by
  have he := h.effect hr
  cases he with
  | addExecutor => exact absurd rfl (hop.1 _)
  | take => exact absurd rfl hop.2
  | stop =>
    show s.remote.scheduler.stop.readyExecutors = _
    unfold Scheduler.stop
    split <;> rfl
  | _ => rfl

theorem idle_step (h : s.Sound) (hs : step capacity s op = some t)
    (ht : t.phase = .entering ∨ t.phase = .waiting) :
    t.remote.scheduler.readyExecutors = [] := by
  have hlist : ∀ {rop : RemoteOp} {r : RemoteSys}, s.remote.step rop = some r →
      ((∀ d, rop ≠ .addExecutor d) ∧ rop ≠ .take) → s.phase = .entering ∨ s.phase = .waiting →
      r.scheduler.readyExecutors = [] :=
    fun hr hop hp => (h.queue_kept hr hop).trans (h.idle hp)
  cases step_effect hs with
  | newNode hr | load hr | link hr | insert _ hr | retry _ hr | stop _ hr =>
    exact hlist hr (by simp) ht
  | write => exact h.idle ht
  | block _ hn => exact h.takeReady_none hn
  | enter hp => exact h.idle (.inl hp)
  | walk hp | read hp => simp [hp] at ht
  | exchange | walked | take | runLocal | yield | leave | wake | drain | again | finish =>
    simp at ht

theorem sound_step (h : s.Sound) (hs : step capacity s op = some t) : t.Sound :=
  ⟨steady_step h.toSteady hs, announced_step h.announced hs, idle_step h hs⟩

theorem sound_reach (h : Reach (step capacity) {} s) : s.Sound :=
  h.inv ⟨@steady_reach capacity {} (.refl _), ⟨RemoteSys.good_init, fun hx => hx.elim⟩,
    fun hp => by simp at hp⟩ fun _ _ _ => sound_step

/-! ## The scheduler thread on its own -/

/-- The steps of the scheduler thread that something is there for: no `stop()`, no executor of other
code, and no return of `epoll_wait` but for the pipe. -/
def byLoop : WakeOp → Bool
  | .newNode _ _ _ => false
  | .load _ => false
  | .link _ => false
  | .cas _ => false
  | .write _ => false
  | .stop => false
  | .runLocal => false
  | .wake false => false
  | _ => true

/-- Nothing new is handed over, nobody stops the scheduler, there are no executors of other code,
and nothing but the pipe ends an `epoll_wait`. -/
def onward : WakeOp → Bool
  | .newNode _ _ _ => false
  | .stop => false
  | .runLocal => false
  | .wake false => false
  | _ => true

/-- What the scheduler thread leaves alone, and that it inserts nothing. -/
structure Aside (s t : WakeSys) : Prop where
  sound : t.Sound
  producers : t.remote.producers = s.remote.producers
  unwritten : t.unwritten = s.unwritten
  nextTicket : t.remote.nextTicket = s.remote.nextTicket
  stopping : t.remote.scheduler.stopping = s.remote.scheduler.stopping
  head : s.remote.head = none → t.remote.head = none
  pipe : t.pipe ≤ s.pipe

theorem Aside.refl (h : s.Sound) : s.Aside s := ⟨h, rfl, rfl, rfl, rfl, id, Nat.le_refl _⟩

theorem Aside.trans (h : s.Aside t) (h' : t.Aside u) : s.Aside u :=
  ⟨h'.sound, h'.producers.trans h.producers, h'.unwritten.trans h.unwritten,
    h'.nextTicket.trans h.nextTicket, h'.stopping.trans h.stopping,
    fun hn => h'.head (h.head hn), Nat.le_trans h'.pipe h.pipe⟩

/-- `s` comes to `t` by steps of the scheduler thread. -/
structure Runs (capacity : Nat) (s t : WakeSys) : Prop where
  reach : Reach (only byLoop (step capacity)) s t
  aside : s.Aside t

theorem Runs.refl (h : s.Sound) : Runs capacity s s := ⟨.refl s, .refl h⟩

theorem Runs.trans (h : Runs capacity s t) (h' : Runs capacity t u) : Runs capacity s u :=
  ⟨h.reach.trans h'.reach, h.aside.trans h'.aside⟩

theorem aside_step (h : s.Sound) (hb : byLoop op = true) (hs : step capacity s op = some t) :
    s.Aside t := by
  have hst := sound_step h hs
  have hphase : ∀ {ph : SchedulerPhase}, Sound { s with phase := ph } →
      s.Aside { s with phase := ph } := fun hst => ⟨hst, rfl, rfl, rfl, rfl, id, Nat.le_refl _⟩
  cases step_effect hs with
  | newNode | load | link | insert | retry | write | stop | runLocal => cases hb
  | exchange => exact ⟨hst, rfl, rfl, rfl, rfl, fun _ => rfl, Nat.le_refl _⟩
  | walk _ hop hr =>
    rcases hop with rfl | rfl
    · cases h.effect hr
      exact ⟨hst, rfl, rfl, rfl, (Scheduler.addExecutor_flags _ _).1, id, Nat.le_refl _⟩
    · cases h.effect hr
      exact ⟨hst, rfl, rfl, rfl, rfl, id, Nat.le_refl _⟩
  | take _ hr =>
    cases h.effect hr
    exact ⟨hst, rfl, rfl, rfl, rfl, id, Nat.le_refl _⟩
  | read => exact ⟨hst, rfl, rfl, rfl, rfl, id, Nat.sub_le _ _⟩
  | walked | yield | block | leave | enter | wake | drain | again | finish => exact hphase hst

theorem Runs.cons (h : s.Sound) (hb : byLoop op = true) (hs : step capacity s op = some t)
    (hr : t.Sound → Runs capacity t u) : Runs capacity s u := by
  have hrest := hr (sound_step h hs)
  exact ⟨.cons (only_of hb hs) hrest.reach, (aside_step h hb hs).trans hrest.aside⟩

/-- A batch comes to its end. By induction on what is left of it. -/
theorem walks_out (capacity : Nat) (n : Nat) {d : Nat} {D : Drain} (h : s.Sound)
    (hp : s.phase = .walking d) (hD : s.remote.drains[d]? = some D)
    (hn : RemoteSys.work D ≤ n) : ∃ t, Runs capacity s t ∧ t.phase = .choosing := by
  induction n generalizing s D with
  | zero =>
    by_cases hh : D.head = none
    · have hs : step capacity s .walk = some { s with phase := .choosing } := by
        simp [step, hp, hD, hh]
      exact ⟨_, .cons h rfl hs .refl, rfl⟩
    · obtain ⟨r, D', -, -, -, hlt⟩ :=
        RemoteSys.walk_step (RemoteSys.good_reach h.reach).1.choose_spec hD hh
      omega
  | succ n ih =>
    by_cases hh : D.head = none
    · have hs : step capacity s .walk = some { s with phase := .choosing } := by
        simp [step, hp, hD, hh]
      exact ⟨_, .cons h rfl hs .refl, rfl⟩
    · obtain ⟨r, D', hr, hD', -, hlt⟩ :=
        RemoteSys.walk_step (RemoteSys.good_reach h.reach).1.choose_spec hD hh
      have hs : step capacity s .walk = some { s with remote := r } := by
        simp [step, hp, hD, hh, withRemote, hr]
      obtain ⟨t, hruns, ht⟩ := ih (sound_step h hs) hp hD' (by omega)
      exact ⟨t, .cons h rfl hs fun _ => hruns, ht⟩

/-- `scheduleAll` from the top of the loop detaches everything. -/
theorem schedules_all (capacity : Nat) (h : s.Sound) (hp : s.phase = .top) :
    ∃ t, Runs capacity s t ∧ t.phase = .choosing ∧ t.remote.head = none := by
  have hs : step capacity s .exchange = some { s with
      remote := s.remote.detach, phase := .walking s.remote.drains.length } := by
    simp [step, hp, withRemote, RemoteSys.step]
  have hst := sound_step h hs
  obtain ⟨t, hruns, ht⟩ := walks_out capacity _ hst (D := ⟨s.remote.head, false,
    s.remote.since.reverse, []⟩) rfl (by simp [RemoteSys.detach]) (Nat.le_refl _)
  exact ⟨t, .cons h rfl hs fun _ => hruns, ht, hruns.aside.head rfl⟩

/-- The remote system with the first task of the queue dispatched. -/
def tookFirst (s : WakeSys) (v : Submission) (q : List (Option Submission)) : RemoteSys :=
  { s.remote with
    scheduler := { s.remote.scheduler with readyExecutors := q }
    dispatched := s.remote.dispatched ++ [v] }

theorem takes (capacity : Nat) {v : Submission} {q : List (Option Submission)}
    (hp : s.phase = .choosing) (hq : s.remote.scheduler.readyExecutors = some v :: q) :
    step capacity s .take = some { s with remote := s.tookFirst v q, phase := .running } := by
  simp [step, hp, withRemote, RemoteSys.step, Scheduler.takeReady, hq, tookFirst]

/-- The queue is run empty. By induction on its length. -/
theorem runs_queue (capacity n : Nat) (h : s.Sound) (hp : s.phase = .choosing)
    (hh : s.remote.head = none) (hn : s.remote.scheduler.readyExecutors.length = n) :
    ∃ t, Runs capacity s t ∧ t.phase = .choosing ∧ t.remote.head = none ∧
      t.remote.scheduler.readyExecutors = [] := by
  induction n generalizing s with
  | zero => exact ⟨s, .refl h, hp, hh, List.length_eq_zero_iff.1 hn⟩
  | succ n ih =>
    have hnull := (RemoteSys.good_reach h.reach).2.noNull
    rcases hq : s.remote.scheduler.readyExecutors with _ | ⟨_ | v, q⟩
    · rw [hq] at hn
      cases hn
    · exact absurd (hq ▸ List.mem_cons_self) hnull
    · let r := s.tookFirst v q
      have htake : step capacity s .take = some { s with remote := r, phase := .running } :=
        takes capacity hp hq
      have hyield : step capacity { s with remote := r, phase := .running } .yield =
          some { s with remote := r, phase := .top } := by simp [step]
      have hexchange : step capacity { s with remote := r, phase := .top } .exchange =
          some { s with remote := r.detach, phase := .walking r.drains.length } := by
        simp [step, withRemote, RemoteSys.step]
      have hwalk : step capacity
          { s with remote := r.detach, phase := .walking r.drains.length } .walk =
          some { s with remote := r.detach, phase := .choosing } := by
        have hD : r.detach.drains[r.drains.length]? =
            some ⟨none, false, r.since.reverse, []⟩ := by
          simp [RemoteSys.detach, r, tookFirst, hh]
        simp [step, hD]
      have hst := sound_step (sound_step (sound_step (sound_step h htake) hyield) hexchange)
        hwalk
      obtain ⟨t, hruns, ht⟩ :=
        ih hst rfl rfl (by simpa [RemoteSys.detach, r, tookFirst, hq] using hn)
      exact ⟨t, .cons h rfl htake fun h => .cons h rfl hyield fun h => .cons h rfl hexchange
        fun h => .cons h rfl hwalk fun _ => hruns, ht⟩

/-- Reading the pipe empty, by steps of the scheduler thread. -/
theorem reads_out (capacity n : Nat) (h : s.Sound) (hp : s.phase = .draining) (hn : s.pipe ≤ n) :
    Runs capacity s { s with pipe := 0, phase := .handling false } := by
  induction n generalizing s with
  | zero =>
    have hz : s.pipe = 0 := Nat.le_zero.1 hn
    have hs : step capacity s .read = some { s with phase := .handling false } := by
      simp [step, hp, hz]
    refine .cons h rfl hs fun h => ?_
    rw [← hz]
    exact .refl h
  | succ n ih =>
    by_cases hz : s.pipe = 0
    · exact ih h hp (by omega)
    · have hs : step capacity s .read = some { s with pipe := s.pipe - 8 } := by
        simp [step, hp, hz]
      exact .cons h rfl hs fun h => ih h hp (by simp only; omega)

/-- Nothing can wake the thread but a byte in the pipe, and everything it was given is run. -/
structure Asleep (s : WakeSys) : Prop where
  phase : s.phase = .waiting
  pipe : s.pipe = 0
  queue : s.remote.scheduler.readyExecutors = []

/-- In `epoll_wait` the thread stays asleep, or the pipe brings it to the top of its loop. -/
theorem wakes (capacity : Nat) (h : s.Sound) (hp : s.phase = .waiting) :
    s.Asleep ∨ Runs capacity s { s with pipe := 0, phase := .top } := by
  by_cases hz : s.pipe = 0
  · exact .inl ⟨hp, hz, h.idle (.inr hp)⟩
  · have hwake : step capacity s (.wake true) = some { s with phase := .handling true } := by
      simp [step, hp, Nat.pos_of_ne_zero hz]
    have hdrain : step capacity { s with phase := .handling true } .drain =
        some { s with phase := .draining } := by simp [step]
    have hfinish : step capacity { s with pipe := 0, phase := .handling false } .finish =
        some { s with pipe := 0, phase := .top } := by simp [step]
    refine .inr (.cons h rfl hwake fun h => .cons h rfl hdrain fun h => ?_)
    have hread := reads_out capacity s.pipe h rfl (Nat.le_refl _)
    exact hread.trans (.cons hread.aside.sound rfl hfinish .refl)

/-- With nothing to run the thread goes to `epoll_wait`. -/
theorem blocks (capacity : Nat) (h : s.Sound) (hp : s.phase = .choosing)
    (hq : s.remote.scheduler.readyExecutors = [])
    (hst : s.remote.scheduler.stopping = false) :
    Runs capacity s { s with phase := .waiting } := by
  have hblock : step capacity s .block = some { s with phase := .entering } := by
    simp [step, hp, Scheduler.takeReady, hq, hst]
  have henter : step capacity { s with phase := .entering } .enter =
      some { s with phase := .waiting } := by simp [step]
  exact .cons h rfl hblock fun h => .cons h rfl henter .refl

/-- The scheduler thread comes round to the top of its loop, or sleeps. -/
def ComesRound (capacity : Nat) (s : WakeSys) : Prop :=
  ∃ t, Runs capacity s t ∧ (t.phase = .top ∨ t.Asleep)

theorem Runs.round (h : Runs capacity s t) (ht : ComesRound capacity t) :
    ComesRound capacity s := by
  obtain ⟨u, hruns, hu⟩ := ht
  exact ⟨u, h.trans hruns, hu⟩

theorem ComesRound.cons (h : s.Sound) (hb : byLoop op = true) (hs : step capacity s op = some t)
    (hr : t.Sound → ComesRound capacity t) : ComesRound capacity s :=
  Runs.round (.cons h hb hs .refl) (hr (sound_step h hs))

theorem round_top (capacity : Nat) (h : s.Sound) (hp : s.phase = .top) : ComesRound capacity s :=
  ⟨s, .refl h, .inl hp⟩

theorem round_waiting (capacity : Nat) (h : s.Sound) (hp : s.phase = .waiting) :
    ComesRound capacity s := by
  rcases wakes capacity h hp with hasleep | hruns
  · exact ⟨s, .refl h, .inr hasleep⟩
  · exact ⟨_, hruns, .inl rfl⟩

theorem round_running (capacity : Nat) (h : s.Sound) (hp : s.phase = .running) :
    ComesRound capacity s := by
  have hs : step capacity s .yield = some { s with phase := .top } := by simp [step, hp]
  exact .cons h rfl hs fun h => round_top capacity h rfl

theorem round_finish (capacity : Nat) (h : s.Sound) (hp : s.phase = .handling false) :
    ComesRound capacity s := by
  have hs : step capacity s .finish = some { s with phase := .top } := by simp [step, hp]
  exact .cons h rfl hs fun h => round_top capacity h rfl

theorem round_draining (capacity : Nat) (h : s.Sound) (hp : s.phase = .draining) :
    ComesRound capacity s := by
  have hruns := reads_out capacity s.pipe h hp (Nat.le_refl _)
  exact hruns.round (round_finish capacity hruns.aside.sound rfl)

theorem round_choosing (capacity : Nat) (h : s.Sound) (hp : s.phase = .choosing)
    (hst : s.remote.scheduler.stopping = false) : ComesRound capacity s := by
  rcases hq : s.remote.scheduler.readyExecutors with _ | ⟨_ | v, q⟩
  · have hruns := blocks capacity h hp hq hst
    exact hruns.round (round_waiting capacity hruns.aside.sound rfl)
  · exact absurd (hq ▸ List.mem_cons_self) (RemoteSys.good_reach h.reach).2.noNull
  · exact .cons h rfl (takes capacity hp hq) fun h => round_running capacity h rfl

/-- From wherever it is, as long as nobody stops the scheduler. -/
theorem comes_round (capacity : Nat) (h : s.Sound)
    (hst : s.remote.scheduler.stopping = false) : ComesRound capacity s := by
  cases hp : s.phase with
  | top => exact round_top capacity h hp
  | walking d =>
    obtain ⟨D, hD⟩ : ∃ D, s.remote.drains[d]? = some D :=
      ⟨_, List.getElem?_eq_getElem (h.current d hp)⟩
    obtain ⟨t, hruns, ht⟩ := walks_out capacity _ h hp hD (Nat.le_refl _)
    exact hruns.round
      (round_choosing capacity hruns.aside.sound ht (hruns.aside.stopping.trans hst))
  | choosing => exact round_choosing capacity h hp hst
  | running => exact round_running capacity h hp
  | entering =>
    have hs : step capacity s .enter = some { s with phase := .waiting } := by simp [step, hp]
    exact .cons h rfl hs fun h => round_waiting capacity h rfl
  | waiting => exact round_waiting capacity h hp
  | handling pipe =>
    cases pipe with
    | false => exact round_finish capacity h hp
    | true =>
      have hs : step capacity s .drain = some { s with phase := .draining } := by simp [step, hp]
      exact .cons h rfl hs fun h => round_draining capacity h rfl
  | draining => exact round_draining capacity h hp
  | left => cases hst.symm.trans (h.left hp)

/-- One round from the top: the list is detached, the queue run, and the thread waits. -/
theorem goes_round (capacity : Nat) (h : s.Sound) (hp : s.phase = .top)
    (hst : s.remote.scheduler.stopping = false) :
    ∃ t, Runs capacity s t ∧ t.phase = .waiting := by
  obtain ⟨t₁, h₁, hp₁, hh₁⟩ := schedules_all capacity h hp
  obtain ⟨t₂, h₂, hp₂, -, hq₂⟩ := runs_queue capacity _ h₁.aside.sound hp₁ hh₁ rfl
  have hall := h₁.trans h₂
  have h₃ := blocks capacity h₂.aside.sound hp₂ hq₂ (hall.aside.stopping.trans hst)
  exact ⟨_, hall.trans h₃, rfl⟩

theorem falls_asleep (capacity : Nat) (h : s.Sound)
    (hst : s.remote.scheduler.stopping = false) : ∃ t, Runs capacity s t ∧ t.Asleep := by
  obtain ⟨t₁, h₁, hp₁ | hasleep⟩ := comes_round capacity h hst
  · have hst₁ := h₁.aside.stopping.trans hst
    obtain ⟨t₂, h₂, hp₂⟩ := goes_round capacity h₁.aside.sound hp₁ hst₁
    have hst₂ := h₂.aside.stopping.trans hst₁
    rcases wakes capacity h₂.aside.sound hp₂ with hasleep | h₃
    · exact ⟨t₂, h₁.trans h₂, hasleep⟩
    · -- the pipe is empty now, and nobody writes to it
      obtain ⟨t₄, h₄, hp₄⟩ := goes_round capacity h₃.aside.sound rfl
        (h₃.aside.stopping.trans hst₂)
      have hsound := h₄.aside.sound
      exact ⟨t₄, ((h₁.trans h₂).trans h₃).trans h₄, hp₄, Nat.le_zero.1 h₄.aside.pipe,
        hsound.idle (.inr hp₄)⟩
  · exact ⟨t₁, h₁, hasleep⟩

/-! ## The producers -/

/-- The steps of `p` between its insertion and its write leave the rest alone. -/
structure Beside (p : Nat) (s t : WakeSys) : Prop where
  sound : t.Sound
  remote : RemoteSys.Beside p s.remote t.remote
  unwritten : ∀ q, q ≠ p → t.unwritten q = s.unwritten q
  pipe : t.pipe = s.pipe

theorem advance {p : Nat} (capacity : Nat) (h : s.Sound) (hp : s.remote.producers p ≠ .idle) :
    ∃ op t, onward op = true ∧ step capacity s op = some t ∧
      t.remote.remaining p + 1 = s.remote.remaining p ∧ Beside p s t := by
  obtain ⟨r, hr, hrem, hb⟩ :=
    RemoteSys.advance (RemoteSys.good_reach h.reach).1.choose_spec hp
  have hrest : ∀ {op : WakeOp} {t : WakeSys}, step capacity s op = some t → t.remote = r →
      (∀ q, q ≠ p → t.unwritten q = s.unwritten q) → t.pipe = s.pipe →
      t.remote.remaining p + 1 = s.remote.remaining p ∧ Beside p s t := by
    intro op t hs ht hu hpipe
    exact ⟨ht ▸ hrem, sound_step h hs, ht ▸ hb, hu, hpipe⟩
  cases hst : s.remote.producers p with
  | idle => exact absurd hst hp
  | load a =>
    simp only [RemoteSys.next, hst] at hr
    have hs : step capacity s (.load p) = some { s with remote := r } := by
      simp [step, withRemote, hr]
    exact ⟨_, _, rfl, hs, hrest hs rfl (fun _ _ => rfl) rfl⟩
  | link a old =>
    simp only [RemoteSys.next, hst] at hr
    have hs : step capacity s (.link p) = some { s with remote := r } := by
      simp [step, withRemote, hr]
    exact ⟨_, _, rfl, hs, hrest hs rfl (fun _ _ => rfl) rfl⟩
  | cas a old =>
    simp only [RemoteSys.next, hst] at hr
    by_cases hi : s.inserts p = true
    · have hs : step capacity s (.cas p) = some { s with
          remote := r, unwritten := Function.update s.unwritten p true } := by
        simp [step, withRemote, hr, hi]
      exact ⟨_, _, rfl, hs, hrest hs rfl (fun q hq => Function.update_of_ne hq ..) rfl⟩
    · have hs : step capacity s (.cas p) = some { s with remote := r } := by
        simp [step, withRemote, hr, hi]
      exact ⟨_, _, rfl, hs, hrest hs rfl (fun _ _ => rfl) rfl⟩

/-- An insertion comes to its end. By induction on what remains of it. -/
theorem inserts_out (capacity p n : Nat) (h : s.Sound) (hn : s.remote.remaining p = n) :
    ∃ t, Reach (only onward (step capacity)) s t ∧ t.remote.producers p = .idle ∧
      Beside p s t := by
  induction n generalizing s with
  | zero =>
    have hidle : s.remote.producers p = .idle := by
      by_contra hp
      exact Nat.ne_of_gt (RemoteSys.remaining_pos hp) hn
    exact ⟨s, .refl s, hidle, h, ⟨fun _ _ => rfl, rfl, rfl, rfl⟩, fun _ _ => rfl, rfl⟩
  | succ n ih =>
    have hp : s.remote.producers p ≠ .idle := by
      intro hp
      simp [RemoteSys.remaining, hp] at hn
    obtain ⟨op, u, ho, hu, hrem, hb⟩ := advance capacity h hp
    obtain ⟨t, hreach, hidle, hb'⟩ := ih hb.sound (by omega)
    refine ⟨t, .cons (only_of ho hu) hreach, hidle, hb'.sound, hb.remote.trans hb'.remote,
      fun q hq => (hb'.unwritten q hq).trans (hb.unwritten q hq), hb'.pipe.trans hb.pipe⟩

/-- With room in the pipe a producer comes to the end of `addRemoteTask`. -/
theorem hands_over (p : Nat) (h : s.Sound) (hroom : s.pipe < capacity) :
    ∃ t, Reach (only onward (step capacity)) s t ∧ t.Sound ∧
      t.remote.producers p = .idle ∧ t.unwritten p = false ∧
      RemoteSys.Beside p s.remote t.remote ∧ ∀ q, q ≠ p → t.unwritten q = s.unwritten q := by
  obtain ⟨t, hreach, hidle, hb⟩ := inserts_out capacity p _ h rfl
  cases hu : t.unwritten p with
  | false => exact ⟨t, hreach, hb.sound, hidle, hu, hb.remote, hb.unwritten⟩
  | true =>
    have hs : step capacity t (.write p) = some { t with
        pipe := t.pipe + 1, unwritten := Function.update t.unwritten p false } := by
      simp [step, hu, hb.pipe, hroom]
    refine ⟨_, hreach.trans (.cons (only_of rfl hs) (.refl _)), sound_step hb.sound hs, hidle,
      by simp, hb.remote, fun q hq => ?_⟩
    simp only [Function.update_of_ne hq]
    exact hb.unwritten q hq

theorem runs_onward (h : Runs capacity s t) : Reach (only onward (step capacity)) s t :=
  h.reach.mono fun s op t hs => by
    obtain ⟨hb, hs⟩ := only_inv hs
    refine only_of ?_ hs
    cases op with
    | newNode => cases hb
    | stop => cases hb
    | runLocal => cases hb
    | wake pipe =>
      cases pipe with
      | false => cases hb
      | true => rfl
    | _ => rfl

/-- Everybody comes to the end: the sleeping thread has left room in the pipe for the next producer.
By induction on how many producers there are. -/
theorem all_hand_over (hc : 0 < capacity) (n : Nat) (h : s.Sound)
    (hst : s.remote.scheduler.stopping = false)
    (hn : ∀ p, n ≤ p → s.remote.producers p = .idle ∧ s.unwritten p = false) :
    ∃ t, Reach (only onward (step capacity)) s t ∧ t.Sound ∧
      (∀ p, t.remote.producers p = .idle ∧ t.unwritten p = false) ∧
      t.remote.scheduler.stopping = false ∧ t.remote.nextTicket = s.remote.nextTicket := by
  induction n generalizing s with
  | zero => exact ⟨s, .refl s, h, fun p => hn p (Nat.zero_le p), hst, rfl⟩
  | succ n ih =>
    obtain ⟨u, hruns, hasleep⟩ := falls_asleep capacity h hst
    have ha := hruns.aside
    obtain ⟨v, hreach, hv, hidle, hwritten, hb, hother⟩ :=
      hands_over n ha.sound (by rw [hasleep.pipe]; exact hc)
    obtain ⟨t, hreach', ht, hall, hst', hk⟩ := ih hv
      (by rw [hb.scheduler, ha.stopping]; exact hst) (fun p hp => by
        by_cases hpn : p = n
        · subst hpn
          exact ⟨hidle, hwritten⟩
        · rw [hb.producers p hpn, hother p hpn, ha.producers, ha.unwritten]
          exact hn p (by omega))
    exact ⟨t, ((runs_onward hruns).trans hreach).trans hreach', ht, hall, hst',
      hk.trans (hb.nextTicket.trans ha.nextTicket)⟩

/-- All producers are done, the thread sleeps, and there is nothing for it to do. -/
structure Settled (s : WakeSys) : Prop extends s.Asleep where
  head : s.remote.head = none
  producers : ∀ p, s.remote.producers p = .idle ∧ s.unwritten p = false

/-- With everybody done a sleeping thread has been told of everything. -/
theorem Asleep.settled (h : s.Asleep) (hs : s.Sound)
    (hp : ∀ p, s.remote.producers p = .idle ∧ s.unwritten p = false) : s.Settled := by
  refine ⟨h, ?_, hp⟩
  by_contra hne
  rcases hs.announced.pending (by simp [Exchanged, h.phase]) hne with hpipe | ⟨p, hu⟩
  · exact Nat.ne_of_gt hpipe h.pipe
  · cases (hp p).2.symm.trans hu

theorem Sound.settles (hc : 0 < capacity) (h : s.Sound)
    (hst : s.remote.scheduler.stopping = false) :
    ∃ t, Reach (only onward (step capacity)) s t ∧ t.Settled ∧ t.Sound ∧
      t.remote.scheduler.stopping = false ∧ t.remote.nextTicket = s.remote.nextTicket := by
  obtain ⟨n, hn⟩ := RemoteSys.producers_idle h.reach
  obtain ⟨m, hm⟩ := h.written
  obtain ⟨u, hreach, hu, hall, hst', hk⟩ := all_hand_over hc (max n m) h hst fun p hp =>
    ⟨hn p (by omega), hm p (by omega)⟩
  obtain ⟨t, hruns, hasleep⟩ := falls_asleep capacity hu hst'
  have ha := hruns.aside
  refine ⟨t, hreach.trans (runs_onward hruns), hasleep.settled ha.sound fun p => ?_, ha.sound,
    ha.stopping.trans hst', ha.nextTicket.trans hk⟩
  rw [ha.producers, ha.unwritten]
  exact hall p

/-- Once everything has settled, every task has been dispatched. -/
theorem Settled.dispatched (h : s.Settled) (hs : s.Sound)
    (hst : s.remote.scheduler.stopping = false) {k : Nat} (hk : k < s.remote.nextTicket) :
    ∃ v ∈ s.remote.dispatched, v.ticket = k := by
  obtain ⟨⟨own, hshape⟩, hbook⟩ := RemoteSys.good_reach hs.reach
  rcases RemoteSys.ticketed_reach hs.reach k hk with ⟨v, hv, hvk⟩ | ⟨p, v, hp, -⟩
  · refine ⟨v, ?_, hvk⟩
    have hsince : s.remote.since = [] := by
      have hseg := hshape.shared
      rw [h.head] at hseg
      exact hseg.of_none
    have hcall : v ∈ s.remote.calls := by
      rcases RemoteSys.book_exactly_once hshape hbook hv with h1 | ⟨-, h0 | ⟨d, D, hD, -, hh⟩⟩
      · exact List.count_pos_iff.1 (by omega)
      · rw [hsince] at h0
        cases h0
      · rcases hs.walked d D hD with hn | hw
        · exact absurd hn hh
        · cases h.phase.symm.trans hw
    have hqueue := hbook.queue hst
    rw [h.queue, List.append_nil] at hqueue
    have hmem : some v ∈ s.remote.dispatched.map some := hqueue ▸ List.mem_map_of_mem hcall
    simpa using hmem
  · simp [RemoteSys.inFlight, (h.producers p).1, Producer.node] at hp

/-- **Remote tasks get through.** In whatever state an interleaving of the producers and the
scheduler thread has got to, with insertions half done, the pipe full or the thread asleep: while
nobody has stopped the scheduler, the steps the threads still have to take lead to a state in
which all of them are done, the thread sleeps with the list, the queue and the pipe empty, and
every task ever handed over has been dispatched. Nothing but a byte in the pipe ends an
`epoll_wait` on the way there. -/
theorem tasks_get_through (hc : 0 < capacity) (h : Reach (step capacity) {} s)
    (hst : s.remote.scheduler.stopping = false) :
    ∃ t, Reach (only onward (step capacity)) s t ∧ t.Settled ∧
      ∀ k, k < s.remote.nextTicket → ∃ v ∈ t.remote.dispatched, v.ticket = k := by
  obtain ⟨t, hreach, hset, ht, hst', hk⟩ := (sound_reach h).settles hc hst
  exact ⟨t, hreach, hset, fun k hlt => hset.dispatched ht hst' (by rw [hk]; exact hlt)⟩

/-- The pipe holds one byte. Thread 0 has inserted and written, thread 1 has inserted and cannot
write, thread 2 has lost its compare-exchange, and the scheduler thread is about to sleep. -/
theorem tasks_get_through_blocked : ∃ s, run (step 1) {} [.exchange, .walk, .block,
      .newNode 0 7 42, .load 0, .link 0, .newNode 2 9 44, .load 2, .link 2, .cas 0, .write 0,
      .newNode 1 8 43, .load 1, .link 1, .cas 1, .cas 2, .enter] = some s ∧
    (s.pipe = 1 ∧ s.unwritten 1 = true ∧ s.remote.remaining 2 = 2) ∧
    ∃ t, Reach (only onward (step 1)) s t ∧ ∃ v ∈ t.remote.dispatched, v.ticket = 1 := by
  refine run_and ⟨_, rfl, by decide⟩ fun s hr _ => ?_
  have hfacts : ∀ s ∈ run (step 1) {} [.exchange, .walk, .block, .newNode 0 7 42, .load 0,
      .link 0, .newNode 2 9 44, .load 2, .link 2, .cas 0, .write 0, .newNode 1 8 43, .load 1,
      .link 1, .cas 1, .cas 2, .enter], s.remote.scheduler.stopping = false ∧
      1 < s.remote.nextTicket := by decide
  obtain ⟨hst, hk⟩ := hfacts s hr
  obtain ⟨t, hreach, -, hall⟩ := tasks_get_through Nat.one_pos ⟨_, hr⟩ hst
  exact ⟨t, hreach, hall 1 hk⟩

end WakeSys

end NetBase
