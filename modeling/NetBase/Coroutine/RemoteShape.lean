import NetBase.Coroutine.RemoteTaskList

/-!
# The heap of the remote task list

`Shape` is the heap invariant of `RemoteSys`: every address has one owner (the shared
list, a producer, or a drain) and each owner's nodes form the chain it should have. A node
in flight belongs to its producer alone, so its `next` is still the `old_head` it wrote;
when the compare-exchange succeeds that is the present head, whichever node now lives at
that address. `Effect` lists what the steps of a well-shaped state do.
-/

namespace NetBase

open Lib RemoteTaskList

namespace RemoteSys

/-! ## The heap -/

/-- The drain `D` owns the nodes it has not deleted; after those passed on they hold the
rest of its batch. -/
def DrainOk (own : Addr → Option Owner) (heap : Addr → Option Node) (d : Nat) (D : Drain) : Prop :=
  ∃ vs, Seg own heap (.drain d) D.head vs ∧ (D.called = true → vs ≠ []) ∧
    D.passed ++ vs.drop (if D.called then 1 else 0) = D.batch.reverse

structure Shape (own : Addr → Option Owner) (s : RemoteSys) : Prop where
  free : ∀ a, s.heap a = none → own a = none
  shared : Seg own s.heap .shared s.head s.since
  producer : ∀ p a, (s.producers p).node = some a → own a = some (.producer p)
  linked : ∀ p a old, s.producers p = .cas a old → ∃ n, s.heap a = some n ∧ n.next = old
  drain : ∀ d D, s.drains[d]? = some D → DrainOk own s.heap d D
  safe : s.useAfterFree = false

variable {own own' : Addr → Option Owner} {s s' : RemoteSys} {p d : Nat} {a : Addr}

theorem DrainOk.frame {heap heap' : Addr → Option Node} {D : Drain} (h : DrainOk own heap d D)
    (hf : ∀ b, own b = some (.drain d) → own' b = some (.drain d) ∧ heap' b = heap b) :
    DrainOk own' heap' d D := by
  obtain ⟨vs, hs, hc, hp⟩ := h
  exact ⟨vs, hs.frame hf, hc, hp⟩

theorem Shape.heap_producer (h : Shape own s) (ha : (s.producers p).node = some a) :
    ∃ n, s.heap a = some n := by
  rcases hn : s.heap a with _ | n
  · have := h.free a hn
    rw [h.producer p a ha] at this
    cases this
  · exact ⟨n, rfl⟩

@[simp] theorem setProducer_self (st : Producer) : (s.setProducer p st).producers p = st :=
  Function.update_self ..

theorem setProducer_other {q : Nat} (st : Producer) (h : q ≠ p) :
    (s.setProducer p st).producers q = s.producers q := Function.update_of_ne h ..

/-- A producer that moves on with the node it has, or gives it up. -/
theorem Shape.setProducer (h : Shape own s) (st : Producer)
    (hn : ∀ b, st.node = some b → own b = some (.producer p))
    (hl : ∀ b old, st = .cas b old → ∃ n, s.heap b = some n ∧ n.next = old) :
    Shape own (s.setProducer p st) where
  free := h.free
  shared := h.shared
  producer q b hb := by
    by_cases hq : q = p
    · subst hq; exact hn b (by simpa using hb)
    · rw [setProducer_other st hq] at hb; exact h.producer q b hb
  linked q b old hb := by
    by_cases hq : q = p
    · subst hq; exact hl b old (by simpa using hb)
    · rw [setProducer_other st hq] at hb; exact h.linked q b old hb
  drain := h.drain
  safe := h.safe

/-- `own` with `a` handed to `o`. -/
abbrev give (own : Addr → Option Owner) (a : Addr) (o : Option Owner) : Addr → Option Owner :=
  Function.update own a o

theorem give_other {o : Option Owner} {b : Addr} (h : b ≠ a) : give own a o b = own b :=
  Function.update_of_ne h ..

/-- A write to a free node or to one of producer `p`, which has it from then on. -/
theorem Shape.setNode (h : Shape own s) {n : Node} (hp : ∀ old, s.producers p ≠ .cas a old)
    (ha : own a = none ∨ own a = some (.producer p)) :
    Shape (give own a (some (.producer p))) (s.setNode a (some n)) := by
  have hne : ∀ b o, own b = some o → o ≠ .producer p → b ≠ a := by
    rintro b o hb hop rfl
    rcases ha with ha | ha <;> rw [ha] at hb <;> cases hb
    exact hop rfl
  have hheap : ∀ b, b ≠ a → (s.setNode a (some n)).heap b = s.heap b :=
    fun b hb => Function.update_of_ne hb ..
  have hframe : ∀ o, o ≠ Owner.producer p → ∀ b, own b = some o →
      give own a (some (.producer p)) b = some o ∧ (s.setNode a (some n)).heap b = s.heap b :=
    fun o hop b hb => ⟨(give_other (hne b o hb hop)).trans hb, hheap b (hne b o hb hop)⟩
  constructor
  · intro b hb
    by_cases hba : b = a
    · subst hba; simp [RemoteSys.setNode] at hb
    · rw [give_other hba]
      exact h.free b ((hheap b hba).symm.trans hb)
  · exact h.shared.frame (hframe _ (by simp))
  · intro q b hb
    by_cases hba : b = a
    · subst hba
      have hqo := h.producer q b hb
      rcases ha with ha | ha <;> rw [ha] at hqo <;> cases hqo
      exact Function.update_self ..
    · rw [give_other hba]; exact h.producer q b hb
  · intro q b old hb
    have hqo := h.producer q b (by
      have : s.producers q = .cas b old := hb
      simp [this, Producer.node])
    have hba : b ≠ a := by
      rintro rfl
      rcases ha with ha | ha <;> rw [ha] at hqo <;> cases hqo
      exact hp old hb
    obtain ⟨m, hm, hmn⟩ := h.linked q b old hb
    exact ⟨m, (hheap b hba).trans hm, hmn⟩
  · intro d D hD
    exact (h.drain d D hD).frame (hframe _ (by simp))
  · exact h.safe

/-- A successful compare-exchange: the node becomes the first of the shared chain. -/
theorem Shape.push (h : Shape own s) {n : Node} (hp : s.producers p = .cas a s.head)
    (hn : s.heap a = some n) :
    Shape (give own a (some .shared)) (s.push p a n.value) := by
  have hown : own a = some (.producer p) := h.producer p a (by simp [hp, Producer.node])
  have hnext : n.next = s.head := by
    obtain ⟨m, hm, hmn⟩ := h.linked p a _ hp
    cases hn.symm.trans hm
    exact hmn
  have hframe : ∀ o, o ≠ Owner.producer p → ∀ b, own b = some o →
      give own a (some .shared) b = some o ∧ s.heap b = s.heap b := by
    intro o hop b hb
    refine ⟨(give_other ?_).trans hb, rfl⟩
    rintro rfl
    rw [hown] at hb; cases hb; exact hop rfl
  have hother : ∀ q b, q ≠ p → (s.producers q).node = some b → b ≠ a := by
    rintro q b hq hb rfl
    have := h.producer q b hb
    rw [hown] at this; cases this; exact hq rfl
  constructor
  · intro b (hb : s.heap b = none)
    have hba : b ≠ a := by rintro rfl; rw [hn] at hb; cases hb
    rw [give_other hba]; exact h.free b hb
  · apply Seg.cons hn (Function.update_self ..)
    rw [hnext]
    exact h.shared.frame (hframe _ (by simp))
  · intro q b (hb : ((s.setProducer p .idle).producers q).node = some b)
    by_cases hq : q = p
    · subst hq; simp [Producer.node] at hb
    · rw [setProducer_other _ hq] at hb
      rw [give_other (hother q b hq hb)]; exact h.producer q b hb
  · intro q b old (hb : (s.setProducer p .idle).producers q = .cas b old)
    by_cases hq : q = p
    · subst hq; simp at hb
    · rw [setProducer_other _ hq] at hb; exact h.linked q b old hb
  · intro d D hD
    exact (h.drain d D hD).frame (hframe _ (by simp))
  · exact h.safe

/-- `head.exchange(nullptr)`: the shared chain now belongs to the new drain. -/
theorem Shape.detach (h : Shape own s) :
    ∃ own', Shape own' s.detach := by
  let own' : Addr → Option Owner := fun b =>
    if own b = some .shared then some (.drain s.drains.length) else own b
  have hkeep : ∀ b o, own b = some o → o ≠ .shared → own' b = some o := by
    intro b o hb ho
    simp only [own', hb]
    rw [if_neg (by simpa using ho)]
  refine ⟨own', ?_, Seg.nil, fun q b hb => hkeep b _ (h.producer q b hb) (by simp), h.linked,
    fun d D hD => ?_, h.safe⟩
  · intro b hb
    simp [own', h.free b hb]
  · simp only [RemoteSys.detach, List.getElem?_append] at hD
    split at hD
    · exact (h.drain d D hD).frame fun b hb => ⟨hkeep b _ hb (by simp), rfl⟩
    · rename_i hd
      obtain ⟨hd0, rfl⟩ : d - s.drains.length = 0 ∧ D = ⟨s.head, false, s.since.reverse, []⟩ := by
        cases hk : d - s.drains.length with
        | zero => rw [hk] at hD; exact ⟨rfl, (Option.some.inj hD).symm⟩
        | succ k => rw [hk] at hD; simp at hD
      obtain rfl : d = s.drains.length := by omega
      exact ⟨s.since, h.shared.frame fun b hb => ⟨by simp [own', hb], rfl⟩, by simp, by simp⟩

/-- Passing on the value of the first node of a drain. -/
theorem Shape.passOn (h : Shape own s) {D : Drain} {n : Node} (hD : s.drains[d]? = some D)
    (hh : D.head = some a) (hc : D.called = false) (hn : s.heap a = some n) :
    Shape own (s.passOn d D n.value) := by
  refine ⟨h.free, h.shared, h.producer, h.linked, fun e E hE => ?_, h.safe⟩
  simp only [RemoteSys.passOn, List.getElem?_set] at hE
  split at hE
  · rename_i hde
    subst hde
    split at hE
    · cases hE
      obtain ⟨vs, hs, -, hp⟩ := h.drain d D hD
      refine ⟨vs, hs, fun _ => ?_, ?_⟩
      · rw [hh] at hs
        obtain ⟨m, ws, -, -, rfl, -⟩ := hs.uncons
        simp
      · rw [hh] at hs
        obtain ⟨m, ws, hm, -, rfl, -⟩ := hs.uncons
        cases hn.symm.trans hm
        simpa [hc] using hp
    · cases hE
  · exact h.drain e E hE

/-- Deleting the first node of a drain. -/
theorem Shape.delete (h : Shape own s) {D : Drain} {n : Node} (hD : s.drains[d]? = some D)
    (hh : D.head = some a) (hc : D.called = true) (hn : s.heap a = some n) :
    Shape (give own a none) (s.deleteNode d D a n.next) := by
  obtain ⟨vs, hs, -, hp⟩ := h.drain d D hD
  rw [hh] at hs
  obtain ⟨m, ws, hm, hown, rfl, as, ha, hchain, hos, hv⟩ := hs.uncons
  cases hn.symm.trans hm
  have hheap : ∀ b, b ≠ a → (s.setNode a none).heap b = s.heap b :=
    fun b hb => Function.update_of_ne hb ..
  have hne : ∀ b o, own b = some o → o ≠ .drain d → b ≠ a := by
    rintro b o hb ho rfl
    rw [hown] at hb; cases hb; exact ho rfl
  have hframe : ∀ o, o ≠ Owner.drain d → ∀ b, own b = some o →
      give own a none b = some o ∧ (s.setNode a none).heap b = s.heap b :=
    fun o ho b hb => ⟨(give_other (hne b o hb ho)).trans hb, hheap b (hne b o hb ho)⟩
  constructor
  · intro b hb
    by_cases hba : b = a
    · subst hba; exact Function.update_self ..
    · rw [give_other hba]; exact h.free b ((hheap b hba).symm.trans hb)
  · exact h.shared.frame (hframe _ (by simp))
  · intro q b hb
    exact (hframe _ (by simp) b (h.producer q b hb)).1
  · intro q b old hb
    have hqo := h.producer q b (by
      have : s.producers q = .cas b old := hb
      simp [this, Producer.node])
    obtain ⟨m, hm', hmn⟩ := h.linked q b old hb
    exact ⟨m, (hheap b (hne b _ hqo (by simp))).trans hm', hmn⟩
  · intro e E hE
    simp only [RemoteSys.deleteNode, List.getElem?_set] at hE
    split at hE
    · rename_i hde
      subst hde
      split at hE
      · cases hE
        have hba : ∀ b ∈ as, b ≠ a := by rintro b hb rfl; exact ha hb
        refine ⟨ws, ⟨as, hchain.congr fun b hb => hheap b (hba b hb), fun b hb => ?_, ?_⟩, by simp,
          by simpa [hc] using hp⟩
        · rw [give_other (hba b hb)]; exact hos b hb
        · exact (values_congr fun b hb => hheap b (hba b hb)).trans hv
      · cases hE
    · rename_i hde
      exact (h.drain e E hE).frame (hframe _ (by simpa using Ne.symm hde))
  · exact h.safe

theorem shape_init : Shape (fun _ => none) {} where
  free _ _ := rfl
  shared := Seg.nil
  producer p a h := by simp [Producer.node] at h
  linked p a old h := by simp at h
  drain d D h := by simp at h
  safe := rfl

/-! ## Steps -/

/-- What a step of a well-shaped state does, one constructor per outcome. -/
inductive Effect (s : RemoteSys) : RemoteOp → RemoteSys → Prop where
  | newNode {p : Nat} {a : Addr} {e : Nat} (hp : s.producers p = .idle) (ha : s.heap a = none) :
      Effect s (.newNode p a e) (s.newNode p a e)
  | load {p : Nat} {a : Addr} (hp : s.producers p = .load a) :
      Effect s (.load p) (s.setProducer p (.link a s.head))
  | link {p : Nat} {a : Addr} {old : Option Addr} {n : Node} (hp : s.producers p = .link a old)
      (hn : s.heap a = some n) :
      Effect s (.link p) ((s.setNode a (some { n with next := old })).setProducer p (.cas a old))
  | win {p : Nat} {a : Addr} {n : Node} (hp : s.producers p = .cas a s.head)
      (hn : s.heap a = some n) : Effect s (.cas p) (s.push p a n.value)
  | lose {p : Nat} {a : Addr} {old : Option Addr} (hp : s.producers p = .cas a old)
      (hh : s.head ≠ old) : Effect s (.cas p) (s.setProducer p (.link a s.head))
  | exchange : Effect s .exchange s.detach
  | addExecutor {d : Nat} {D : Drain} {a : Addr} {n : Node} (hD : s.drains[d]? = some D)
      (hh : D.head = some a) (hc : D.called = false) (hn : s.heap a = some n) :
      Effect s (.addExecutor d) (s.passOn d D n.value)
  | delete {d : Nat} {D : Drain} {a : Addr} {n : Node} (hD : s.drains[d]? = some D)
      (hh : D.head = some a) (hc : D.called = true) (hn : s.heap a = some n) :
      Effect s (.delete d) (s.deleteNode d D a n.next)
  | take {v : Submission} {rest : List (Option Submission)}
      (hr : s.scheduler.readyExecutors = some v :: rest) :
      Effect s .take { s with
        scheduler := { s.scheduler with readyExecutors := rest }
        dispatched := s.dispatched ++ [v] }
  | stop : Effect s .stop { s with scheduler := s.scheduler.stop }

theorem Shape.heap_drain (h : Shape own s) {D : Drain} (hD : s.drains[d]? = some D)
    (hh : D.head = some a) : ∃ n, s.heap a = some n := by
  obtain ⟨vs, hs, -⟩ := h.drain d D hD
  rw [hh] at hs
  obtain ⟨n, -, hn, -⟩ := hs.uncons
  exact ⟨n, hn⟩

theorem step_effect {op : RemoteOp} (h : Shape own s) (hstep : step s op = some s') :
    Effect s op s' := by
  cases op with
  | newNode p addr executor =>
    simp only [step] at hstep
    split at hstep
    · rename_i hp ha
      cases hstep
      exact .newNode hp ha
    · cases hstep
  | load p =>
    simp only [step] at hstep
    split at hstep
    · rename_i node hp
      cases hstep
      exact .load hp
    · cases hstep
  | link p =>
    simp only [step] at hstep
    split at hstep
    · rename_i node oldHead hp
      obtain ⟨n, hn⟩ := h.heap_producer (p := p) (a := node) (by simp [hp, Producer.node])
      rw [hn] at hstep
      cases hstep
      exact .link hp hn
    · cases hstep
  | cas p =>
    simp only [step] at hstep
    split at hstep
    · rename_i node oldHead hp
      obtain ⟨n, hn⟩ := h.heap_producer (p := p) (a := node) (by simp [hp, Producer.node])
      simp only [hn, Option.some.injEq] at hstep
      split at hstep
      · rename_i hh
        subst hh hstep
        exact .win hp hn
      · rename_i hh
        subst hstep
        exact .lose hp hh
    · cases hstep
  | exchange =>
    cases hstep
    exact .exchange
  | addExecutor d =>
    simp only [step] at hstep
    split at hstep
    · rename_i D hD
      split at hstep
      · rename_i a hh hc
        obtain ⟨n, hn⟩ := h.heap_drain hD hh
        rw [hn] at hstep
        cases hstep
        exact .addExecutor hD hh hc hn
      · cases hstep
    · cases hstep
  | delete d =>
    simp only [step] at hstep
    split at hstep
    · rename_i D hD
      split at hstep
      · rename_i a hh hc
        obtain ⟨n, hn⟩ := h.heap_drain hD hh
        rw [hn] at hstep
        cases hstep
        exact .delete hD hh hc hn
      · cases hstep
    · cases hstep
  | take =>
    simp only [step, Scheduler.takeReady] at hstep
    cases hr : s.scheduler.readyExecutors with
    | nil => simp [hr] at hstep
    | cons e rest =>
      cases e with
      | none => simp [hr] at hstep
      | some v =>
        simp only [hr, Option.some.injEq] at hstep
        subst hstep
        exact .take hr
  | stop =>
    cases hstep
    exact .stop

theorem shape_effect {op : RemoteOp} (h : Shape own s) (he : Effect s op s') :
    ∃ own', Shape own' s' := by
  cases he with
  | @newNode p a e hp ha =>
    have h1 := h.setNode (p := p) (n := ⟨⟨e, s.nextTicket⟩, none⟩) (by simp [hp])
      (.inl (h.free a ha))
    have h2 := h1.setProducer (p := p) (.load a)
      (fun b hb => by cases hb; exact Function.update_self ..) (by simp)
    exact ⟨_, h2.free, h2.shared, h2.producer, h2.linked, h2.drain, h2.safe⟩
  | load hp =>
    exact ⟨own, h.setProducer _ (fun b hb => by
      cases hb; exact h.producer _ _ (by simp [hp, Producer.node])) (by simp)⟩
  | @link p a old n hp hn =>
    have h1 := h.setNode (p := p) (n := { n with next := old }) (by simp [hp])
      (.inr (h.producer p a (by simp [hp, Producer.node])))
    refine ⟨_, h1.setProducer _ (fun b hb => by cases hb; exact Function.update_self ..) ?_⟩
    intro b old' hb
    cases hb
    exact ⟨{ n with next := old }, Function.update_self .., rfl⟩
  | win hp hn => exact ⟨_, h.push hp hn⟩
  | lose hp hh =>
    exact ⟨own, h.setProducer _ (fun b hb => by
      cases hb; exact h.producer _ _ (by simp [hp, Producer.node])) (by simp)⟩
  | exchange => exact h.detach
  | addExecutor hD hh hc hn => exact ⟨own, h.passOn hD hh hc hn⟩
  | delete hD hh hc hn => exact ⟨_, h.delete hD hh hc hn⟩
  | take hr => exact ⟨own, h.free, h.shared, h.producer, h.linked, h.drain, h.safe⟩
  | stop => exact ⟨own, h.free, h.shared, h.producer, h.linked, h.drain, h.safe⟩

end RemoteSys

end NetBase
