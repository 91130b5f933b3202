import NetBase.IO.CoIo
import NetBase.IO.Events

/-!
# The wake-up sources of a suspension

What can still enter a coroutine: the slots of the table, the callbacks of the pending timers
and the ready queue. `Sources` is that part of a world, and `Single` says that the sources of
each coroutine are those of its current suspension and that at most one of them is in the
queue. The only trouble is the wait of `ioInner`, which has two: its timer and its slot.
-/

namespace NetBase

namespace Callback

/-- The suspension the closure was made in. -/
def issued : Callback → Nat
  | .wake _ n => n
  | .timeout _ n _ _ => n

/-- A coroutine in this state is in a wait the closure ends. -/
def fits : Callback → CoState → Bool
  | .wake _ _, .waiting .sleep => true
  | .timeout _ _ fd d, .waiting (.io fd' d' _ false) => fd' == fd && d' == d
  | _, _ => false

end Callback

/-- The coroutine an entry enters or queues. -/
def Entry.target : Entry → Nat
  | .co c _ => c
  | .run k => k.coroutine

def ExecutorPtr.target : ExecutorPtr → Nat
  | .co c => c
  | .callback k => k.coroutine

def Entry.callback : Entry → Option Callback
  | .co _ _ => none
  | .run k => some k

def Wait.On (fd : Nat) (d : EventType) : Wait → Prop
  | .sleep => False
  | .connect fd' => fd' = fd ∧ d = .write
  | .io fd' d' _ _ => fd' = fd ∧ d' = d

theorem Wait.On.unique {wait : Wait} {fd g : Nat} {d d' : EventType} (h : wait.On fd d)
    (h' : wait.On g d') : g = fd ∧ d' = d := by
  cases wait with
  | sleep => cases h
  | connect fd' => exact ⟨h'.1.symm.trans h.1, h'.2.trans h.2.symm⟩
  | io fd' d'' timer timedOut => exact ⟨h'.1.symm.trans h.1, h'.2.symm.trans h.2⟩

namespace Coroutine

/-- The coroutine is suspended until its entry is taken from the slot. -/
def WaitsOn (x : Coroutine) (fd : Nat) (d : EventType) : Prop :=
  ∃ wait, x.state = .waiting wait ∧ wait.On fd d

/-- The suspension the closure was made in still goes on, its flag being unset. -/
def Awaits (x : Coroutine) (k : Callback) : Prop := x.suspension = k.issued ∧ k.fits x.state = true

instance (x : Coroutine) (k : Callback) : Decidable (x.Awaits k) :=
  inferInstanceAs (Decidable (_ ∧ _))

theorem awaits_wake {x : Coroutine} {c n : Nat} :
    x.Awaits (.wake c n) ↔ x = ⟨.waiting .sleep, n⟩ := by
  obtain ⟨state, m⟩ := x
  constructor
  · rintro ⟨hn, h⟩
    unfold Callback.fits at h
    split at h
    · rename_i hs
      simp only at hs hn
      rw [hs, hn]
      rfl
    · rename_i hk _
      cases hk
    · cases h
  · rintro ⟨rfl, rfl⟩
    exact ⟨rfl, rfl⟩

theorem awaits_timeout {x : Coroutine} {c n fd : Nat} {d : EventType} :
    x.Awaits (.timeout c n fd d) ↔ ∃ timer, x = ⟨.waiting (.io fd d timer false), n⟩ := by
  obtain ⟨state, m⟩ := x
  constructor
  · rintro ⟨hn, h⟩
    unfold Callback.fits at h
    split at h
    · rename_i hk _
      cases hk
    · rename_i timer hk hs
      cases hk
      simp only [Bool.and_eq_true, beq_iff_eq] at hs hn h
      obtain ⟨rfl, rfl⟩ := h
      exact ⟨timer, by rw [hs, hn]; rfl⟩
    · cases h
  · rintro ⟨timer, ⟨rfl, rfl⟩⟩
    exact ⟨rfl, by simp [Callback.fits]⟩

theorem Awaits.waiting {x : Coroutine} {k : Callback} (h : x.Awaits k) :
    ∃ wait, x.state = .waiting wait := by
  cases k with
  | wake c n => exact ⟨_, by rw [awaits_wake.1 h]⟩
  | timeout c n fd d =>
    obtain ⟨timer, rfl⟩ := awaits_timeout.1 h
    exact ⟨_, rfl⟩

/-- Two closures of one coroutine that are both awaited are the same. -/
theorem Awaits.unique {x : Coroutine} {k l : Callback} (h : x.Awaits k) (h' : x.Awaits l)
    (hc : k.coroutine = l.coroutine) : k = l := by
  cases k with
  | wake c n =>
    cases l with
    | wake c' n' =>
      cases (awaits_wake.1 h).symm.trans (awaits_wake.1 h')
      cases hc
      rfl
    | timeout c' n' fd d =>
      obtain ⟨timer, hx⟩ := awaits_timeout.1 h'
      cases (awaits_wake.1 h).symm.trans hx
  | timeout c n fd d =>
    obtain ⟨timer, hx⟩ := awaits_timeout.1 h
    cases l with
    | wake c' n' => cases (awaits_wake.1 h').symm.trans hx
    | timeout c' n' fd' d' =>
      obtain ⟨timer', hx'⟩ := awaits_timeout.1 h'
      cases hx.symm.trans hx'
      cases hc
      rfl

end Coroutine

/-! ## Queues -/

/-- The coroutines the entries of a queue enter or queue. -/
def targets (q : List (Option Entry)) : List Nat := q.filterMap fun x => x.map Entry.target

def callbacks (q : List (Option Entry)) : List Callback :=
  q.filterMap fun x => x.bind Entry.callback

/-- An entry of the queue enters `c`. -/
def Queued (q : List (Option Entry)) (c : Nat) : Prop := ∃ n, some (.co c n) ∈ q

section Queue

variable {q q' : List (Option Entry)} {c : Nat} {k : Callback}

theorem mem_targets : c ∈ targets q ↔ ∃ e, some e ∈ q ∧ e.target = c := by
  simp [targets, List.mem_filterMap]

theorem mem_callbacks : k ∈ callbacks q ↔ some (.run k) ∈ q := by
  simp only [callbacks, List.mem_filterMap]
  constructor
  · rintro ⟨x, hx, hk⟩
    obtain ⟨e, rfl, he⟩ := Option.bind_eq_some_iff.1 hk
    cases e with
    | co c n => cases he
    | run l => cases he; exact hx
  · exact fun h => ⟨_, h, rfl⟩

@[simp] theorem targets_append : targets (q ++ q') = targets q ++ targets q' :=
  List.filterMap_append

@[simp] theorem callbacks_append : callbacks (q ++ q') = callbacks q ++ callbacks q' :=
  List.filterMap_append

theorem callbacks_push {x : Option Entry} (h : x.bind Entry.callback = none) :
    callbacks (q ++ [x]) = callbacks q := by
  have hx : callbacks [x] = [] := List.filterMap_cons_none h
  rw [callbacks_append, hx, List.append_nil]

theorem targets_push {e : Entry} (h : (targets q).Nodup) (he : e.target ∉ targets q) :
    (targets (q ++ [some e])).Nodup := by
  rw [targets_append]
  exact h.append (List.nodup_singleton e.target) fun a ha hb => he (List.mem_singleton.1 hb ▸ ha)

theorem Queued.mem_targets (h : Queued q c) : c ∈ targets q := by
  obtain ⟨n, h⟩ := h
  exact NetBase.mem_targets.2 ⟨_, h, rfl⟩

theorem callback_mem_targets (h : k ∈ callbacks q) : k.coroutine ∈ targets q :=
  mem_targets.2 ⟨_, mem_callbacks.1 h, rfl⟩

theorem mem_targets_cases (h : c ∈ targets q) :
    Queued q c ∨ ∃ k ∈ callbacks q, k.coroutine = c := by
  obtain ⟨e, he, hc⟩ := mem_targets.1 h
  cases e with
  | co c' n => exact .inl ⟨n, by cases hc; exact he⟩
  | run k => exact .inr ⟨k, mem_callbacks.2 he, hc⟩

theorem Queued.sublist (h : Queued q c) (hs : q.Sublist q') : Queued q' c := by
  obtain ⟨n, h⟩ := h
  exact ⟨n, hs.subset h⟩

theorem Queued.of_push {x : Option Entry} (h : Queued (q ++ [x]) c) :
    Queued q c ∨ ∃ n, x = some (.co c n) := by
  obtain ⟨n, h⟩ := h
  rcases List.mem_append.1 h with h | h
  · exact .inl ⟨n, h⟩
  · exact .inr ⟨n, (List.mem_singleton.1 h).symm⟩

instance : Decidable (Queued q c) :=
  decidable_of_iff (∃ x ∈ q, ∃ e ∈ x, e.target = c ∧ e.callback = none) <| by
    constructor
    · rintro ⟨x, hx, e, rfl, hc, hk⟩
      cases e with
      | co c' n => exact ⟨n, by cases hc; exact hx⟩
      | run k => cases hk
    · rintro ⟨n, h⟩
      exact ⟨_, h, _, rfl, rfl, rfl⟩

end Queue

/-! ## Sources -/

@[ext] structure Sources where
  slot : Nat → EventType → Option Entry
  /-- The callbacks of the pending timers. -/
  timed : List Callback
  queue : List (Option Entry)

/-- The entry ends the suspension its coroutine is in, or starts it. -/
def Entry.Current (co : Nat → Coroutine) : Entry → Prop
  | .co c n => n = (co c).suspension ∧
    ((co c).state = .start ∨ ∃ wait, (co c).state = .waiting wait)
  | .run k => (co k.coroutine).Awaits k

theorem Entry.Current.congr {co co' : Nat → Coroutine} {e : Entry} (h : e.Current co)
    (hc : co' e.target = co e.target) : e.Current co' := by
  cases e with
  | co c n =>
    rw [Entry.Current, show co' c = co c from hc]
    exact h
  | run k =>
    rw [Entry.Current, show co' k.coroutine = co k.coroutine from hc]
    exact h

namespace Sources

structure Single (v : Sources) (co : Nat → Coroutine) : Prop where
  slots : ∀ fd d e, v.slot fd d = some e → e = .co e.target (co e.target).suspension ∧
    (co e.target).WaitsOn fd d ∧ ¬ Queued v.queue e.target
  queued : ∀ e, some e ∈ v.queue → Entry.Current co e
  targets : (targets v.queue).Nodup
  callbacks : (v.timed ++ callbacks v.queue).Nodup
  dated : ∀ k ∈ v.timed, k.issued ≤ (co k.coroutine).suspension
  sleepers : ∀ c n, .wake c n ∈ v.timed → (co c).Awaits (.wake c n) ∧ ¬ Queued v.queue c
  unborn : ∀ c, (co c).state = .unborn → (co c).suspension = 0

/-- No slot and no timer of `sleepInner` enters `c`. -/
structure Clear (v : Sources) (c : Nat) : Prop where
  slots : ∀ fd d e, v.slot fd d = some e → e.target ≠ c
  timed : ∀ n, .wake c n ∉ v.timed

def setSlot (v : Sources) (fd : Nat) (d : EventType) (x : Option Entry) : Sources :=
  { v with slot := fun g d' => if g = fd ∧ d' = d then x else v.slot g d' }

def push (v : Sources) (x : Option Entry) : Sources := { v with queue := v.queue ++ [x] }

/-- The slot is moved to the queue. -/
def hit (v : Sources) (fd : Nat) (d : EventType) : Sources :=
  (v.setSlot fd d none).push (v.slot fd d)

variable {v v' : Sources} {co : Nat → Coroutine} {c fd : Nat} {d : EventType} {k : Callback}

/-- Losing sources does no harm here. -/
theorem Single.shrink (h : v.Single co)
    (hs : ∀ fd d, v'.slot fd d = v.slot fd d ∨ v'.slot fd d = none)
    (ht : v'.timed.Sublist v.timed) (hq : v'.queue.Sublist v.queue) : v'.Single co where
  slots fd d e he := by
    have hv : v.slot fd d = some e := by
      rcases hs fd d with h' | h'
      · exact h'.symm.trans he
      · rw [h'] at he; cases he
    obtain ⟨h1, h2, h3⟩ := h.slots fd d e hv
    exact ⟨h1, h2, fun hw => h3 (hw.sublist hq)⟩
  queued e he := h.queued e (hq.subset he)
  targets := h.targets.sublist (hq.filterMap _)
  callbacks := h.callbacks.sublist (ht.append (hq.filterMap _))
  dated k hk := h.dated k (ht.subset hk)
  sleepers c n hk := by
    obtain ⟨h1, h2⟩ := h.sleepers c n (ht.subset hk)
    exact ⟨h1, fun hw => h2 (hw.sublist hq)⟩
  unborn := h.unborn

/-- Only a coroutine that is queued or waits has sources. -/
theorem Single.sourceless (h : v.Single co) (hs : (co c).state ≠ .start)
    (hw : ∀ wait, (co c).state ≠ .waiting wait) : v.Clear c ∧ c ∉ NetBase.targets v.queue := by
  refine ⟨⟨fun fd d e he hc => ?_, fun n hn => ?_⟩, fun ht => ?_⟩
  · obtain ⟨-, ⟨wait, hwait, -⟩, -⟩ := h.slots fd d e he
    exact hw wait (hc ▸ hwait)
  · obtain ⟨wait, hwait⟩ := (h.sleepers c n hn).1.waiting
    exact hw wait hwait
  · obtain ⟨e, he, hc⟩ := mem_targets.1 ht
    have hcur := h.queued e he
    cases e with
    | co c' n =>
      cases hc
      rcases hcur.2 with hs' | ⟨wait, hwait⟩
      · exact hs hs'
      · exact hw wait hwait
    | run k =>
      obtain ⟨wait, hwait⟩ := hcur.waiting
      exact hw wait ((show k.coroutine = c from hc) ▸ hwait)

/-- The coroutine at the head of the queue has no other source that enters it. -/
theorem Single.head_co {n : Nat} {q : List (Option Entry)} (h : v.Single co)
    (hq : v.queue = some (.co c n) :: q) :
    Entry.Current co (.co c n) ∧ v.Clear c ∧ c ∉ NetBase.targets q := by
  have hm : some (.co c n) ∈ v.queue := hq ▸ List.mem_cons_self
  have hn : Queued v.queue c := ⟨n, hm⟩
  refine ⟨h.queued _ hm, ⟨fun fd d e he hc => ?_, fun m hk => (h.sleepers c m hk).2 hn⟩, ?_⟩
  · exact (h.slots fd d e he).2.2 (hc ▸ hn)
  · have hnd := h.targets
    rw [hq] at hnd
    exact (List.nodup_cons.1 hnd).1

/-- So has the coroutine of the callback at the head of the queue. -/
theorem Single.head_run {q : List (Option Entry)} (h : v.Single co)
    (hq : v.queue = some (.run k) :: q) :
    (co k.coroutine).Awaits k ∧ k ∉ v.timed ∧ k.coroutine ∉ NetBase.targets q := by
  have hm : some (.run k) ∈ v.queue := hq ▸ List.mem_cons_self
  refine ⟨h.queued _ hm, fun hk => ?_, ?_⟩
  · exact (List.nodup_append.1 h.callbacks).2.2 k hk k (mem_callbacks.2 hm) rfl
  · have hnd := h.targets
    rw [hq] at hnd
    exact (List.nodup_cons.1 hnd).1

/-- A coroutine no source enters may change its state. -/
theorem Single.setCo {x : Coroutine} (h : v.Single co) (hc : v.Clear c)
    (ht : c ∉ NetBase.targets v.queue) (hx : (co c).suspension ≤ x.suspension)
    (hu : x.state = .unborn → x.suspension = 0) : v.Single (Function.update co c x) where
  slots fd d e he := by
    rw [Function.update_of_ne (hc.slots fd d e he)]
    exact h.slots fd d e he
  queued e he := by
    refine (h.queued e he).congr (Function.update_of_ne ?_ _ _)
    exact fun hec => ht (mem_targets.2 ⟨e, he, hec⟩)
  targets := h.targets
  callbacks := h.callbacks
  dated k hk := by
    by_cases hkc : k.coroutine = c
    · rw [hkc, Function.update_self]
      exact (hkc ▸ h.dated k hk).trans hx
    · rw [Function.update_of_ne hkc]
      exact h.dated k hk
  sleepers c' n hk := by
    have hcc : c' ≠ c := by rintro rfl; exact hc.timed n hk
    rw [Function.update_of_ne hcc]
    exact h.sleepers c' n hk
  unborn c' := by
    by_cases hcc : c' = c
    · subst hcc
      rw [Function.update_self]
      exact hu
    · rw [Function.update_of_ne hcc]
      exact h.unborn c'

/-- An entry that enters a coroutine without other sources may be queued. -/
theorem Single.push_co {n : Nat} (h : v.Single co) (hc : v.Clear c)
    (ht : c ∉ NetBase.targets v.queue) (hn : Entry.Current co (.co c n)) :
    (v.push (some (.co c n))).Single co where
  slots fd d e he := by
    obtain ⟨h1, h2, h3⟩ := h.slots fd d e he
    refine ⟨h1, h2, fun hw => ?_⟩
    rcases hw.of_push with hw | ⟨m, hm⟩
    · exact h3 hw
    · cases hm
      exact hc.slots fd d e he rfl
  queued e he := by
    rcases List.mem_append.1 he with he | he
    · exact h.queued e he
    · cases List.mem_singleton.1 he
      exact hn
  targets := targets_push h.targets ht
  callbacks := by
    show (v.timed ++ NetBase.callbacks (v.queue ++ _)).Nodup
    rw [callbacks_push rfl]
    exact h.callbacks
  dated := h.dated
  sleepers c' m hk := by
    obtain ⟨h1, h2⟩ := h.sleepers c' m hk
    refine ⟨h1, fun hw => ?_⟩
    rcases hw.of_push with hw | ⟨l, hl⟩
    · exact h2 hw
    · cases hl
      exact hc.timed m hk
  unborn := h.unborn

/-- A null pointer in the queue enters nobody. -/
theorem Single.push_none (h : v.Single co) : (v.push none).Single co := by
  have hq : ∀ {c : Nat}, Queued (v.push none).queue c → Queued v.queue c := fun hw => by
    rcases hw.of_push with hw | ⟨n, hn⟩
    · exact hw
    · cases hn
  refine ⟨fun fd d e he => ?_, fun e he => ?_, ?_, ?_, h.dated, fun c n hk => ?_, h.unborn⟩
  · obtain ⟨h1, h2, h3⟩ := h.slots fd d e he
    exact ⟨h1, h2, fun hw => h3 (hq hw)⟩
  · rcases List.mem_append.1 he with he | he
    · exact h.queued e he
    · cases List.mem_singleton.1 he
  · show (NetBase.targets (v.queue ++ [none])).Nodup
    rw [targets_append]
    simpa [NetBase.targets] using h.targets
  · show (v.timed ++ NetBase.callbacks (v.queue ++ [none])).Nodup
    rw [callbacks_push rfl]
    exact h.callbacks
  · obtain ⟨h1, h2⟩ := h.sleepers c n hk
    exact ⟨h1, fun hw => h2 (hq hw)⟩

/-- What is awaited, and not queued, is the target of no other entry. -/
theorem Single.not_target (h : v.Single co) (hk : k ∈ v.timed) (ha : (co k.coroutine).Awaits k)
    (hw : ¬ Queued v.queue k.coroutine) : k.coroutine ∉ NetBase.targets v.queue := by
  intro ht
  rcases mem_targets_cases ht with hq | ⟨l, hl, hc⟩
  · exact hw hq
  · have hla : (co l.coroutine).Awaits l := h.queued _ (mem_callbacks.1 hl)
    have hkl : k = l := ha.unique (hc ▸ hla) hc.symm
    exact (List.nodup_append.1 h.callbacks).2.2 k hk l hl hkl

/-- A timer may expire while its wait goes on and nothing else has ended it. -/
theorem Single.fire {l : List Callback} (h : v.Single co) (hv : v.timed = k :: l)
    (ha : (co k.coroutine).Awaits k) (hw : ¬ Queued v.queue k.coroutine) :
    ({ v with timed := l }.push (some (.run k))).Single co := by
  have hk : k ∈ v.timed := hv ▸ List.mem_cons_self
  have hsub : ∀ {x : Callback}, x ∈ l → x ∈ v.timed := fun hx => hv ▸ List.mem_cons_of_mem _ hx
  have hq : ∀ {c : Nat}, Queued (v.queue ++ [some (.run k)]) c → Queued v.queue c := fun hw => by
    rcases hw.of_push with hw | ⟨n, hn⟩
    · exact hw
    · cases hn
  refine ⟨fun fd d e he => ?_, fun e he => ?_, targets_push h.targets (h.not_target hk ha hw), ?_,
    fun x hx => h.dated x (hsub hx), fun c n hx => ?_, h.unborn⟩
  · obtain ⟨h1, h2, h3⟩ := h.slots fd d e he
    exact ⟨h1, h2, fun hw => h3 (hq hw)⟩
  · rcases List.mem_append.1 he with he | he
    · exact h.queued e he
    · cases List.mem_singleton.1 he
      exact ha
  · show (l ++ NetBase.callbacks (v.queue ++ [some (.run k)])).Nodup
    have hperm : (l ++ (NetBase.callbacks v.queue ++ [k])).Perm
        (v.timed ++ NetBase.callbacks v.queue) := by
      rw [hv, ← List.append_assoc]
      exact (List.perm_append_singleton k _)
    rw [callbacks_append]
    exact hperm.nodup_iff.2 h.callbacks
  · obtain ⟨h1, h2⟩ := h.sleepers c n (hsub hx)
    exact ⟨h1, fun hw => h2 (hq hw)⟩

theorem Single.fires {ks l : List Callback} (h : v.Single co) (hv : v.timed = ks ++ l)
    (ha : ∀ k ∈ ks, (co k.coroutine).Awaits k ∧ ¬ Queued v.queue k.coroutine) :
    Single { v with timed := l, queue := v.queue ++ ks.map fun k => some (.run k) } co := by
  induction ks generalizing v with
  | nil =>
    simp only [List.nil_append] at hv
    simpa [← hv] using h
  | cons k ks ih =>
    obtain ⟨hk, hw⟩ := ha k List.mem_cons_self
    have hfire := h.fire hv hk hw
    rw [List.map_cons, List.append_cons]
    apply ih hfire rfl
    intro x hx
    obtain ⟨hx, hxw⟩ := ha x (List.mem_cons_of_mem _ hx)
    refine ⟨hx, fun hq => ?_⟩
    rcases hq.of_push with hq | ⟨n, hn⟩
    · exact hxw hq
    · cases hn

/-- An event may wake a coroutine no timer callback is about to queue. -/
theorem Single.hit (h : v.Single co)
    (hk : ∀ e, v.slot fd d = some e → ∀ k ∈ NetBase.callbacks v.queue, k.coroutine ≠ e.target) :
    (v.hit fd d).Single co := by
  have hs : (v.setSlot fd d none).Single co := by
    refine h.shrink (fun g d' => ?_) (List.Sublist.refl _) (List.Sublist.refl _)
    simp only [setSlot]
    split
    · exact .inr rfl
    · exact .inl rfl
  unfold Sources.hit
  cases he : v.slot fd d with
  | none => exact hs.push_none
  | some e =>
    obtain ⟨h1, h2, h3⟩ := h.slots fd d e he
    obtain ⟨wait, hwait, hon⟩ := h2
    rw [h1]
    refine hs.push_co ⟨fun g d' e' he' => ?_, fun n hn => ?_⟩ (fun ht => ?_)
      ⟨rfl, .inr ⟨wait, hwait⟩⟩
    · -- the coroutine waits on this slot only
      intro hc
      simp only [setSlot] at he'
      split at he'
      · cases he'
      · rename_i hne
        obtain ⟨-, ⟨wait', hwait', hon'⟩, -⟩ := h.slots g d' e' he'
        rw [hc, hwait] at hwait'
        cases hwait'
        exact hne (hon.unique hon')
    · have hx := Coroutine.awaits_wake.1 (h.sleepers _ n hn).1
      rw [hx] at hwait
      cases hwait
      exact hon
    · rcases mem_targets_cases ht with hq | ⟨k, hkq, hc⟩
      · exact h3 hq
      · exact hk e he k hkq hc

theorem hit_callbacks (fd : Nat) (d : EventType) (h : v.Single co) :
    NetBase.callbacks (v.hit fd d).queue = NetBase.callbacks v.queue := by
  apply callbacks_push
  cases he : v.slot fd d with
  | none => rfl
  | some e =>
    rw [(h.slots fd d e he).1]
    rfl

/-- The slots an event hits are moved to the queue. -/
def event (v : Sources) (ev : EpollEvent) : Sources :=
  let v := if ev.Hits .read then v.hit ev.fd .read else v
  if ev.Hits .write then v.hit ev.fd .write else v

theorem event_slot (ev : EpollEvent) (g : Nat) (d : EventType) : (v.event ev).slot g d =
    if g = ev.fd ∧ ev.Hits d then none else v.slot g d := by
  by_cases hr : ev.Hits .read <;> by_cases hw : ev.Hits .write <;> by_cases hg : g = ev.fd <;>
    cases d <;> simp [event, Sources.hit, push, setSlot, hr, hw, hg]

theorem event_queue (ev : EpollEvent) : (v.event ev).queue = v.queue ++
    ((if ev.Hits .read then [v.slot ev.fd .read] else []) ++
      if ev.Hits .write then [v.slot ev.fd .write] else []) := by
  by_cases hr : ev.Hits .read <;> by_cases hw : ev.Hits .write <;>
    simp [event, Sources.hit, push, setSlot, hr, hw]

theorem event_timed (ev : EpollEvent) : (v.event ev).timed = v.timed := by
  unfold event
  split <;> split <;> rfl

theorem Single.event {ev : EpollEvent} (h : v.Single co)
    (hk : ∀ d, ev.Hits d → ∀ e, v.slot ev.fd d = some e →
      ∀ k ∈ NetBase.callbacks v.queue, k.coroutine ≠ e.target) :
    (v.event ev).Single co ∧ NetBase.callbacks (v.event ev).queue = NetBase.callbacks v.queue := by
  unfold Sources.event
  by_cases hr : ev.Hits .read
  · simp only [hr, if_true]
    have h1 := h.hit (hk .read hr)
    have hq := hit_callbacks ev.fd .read h
    split
    · rename_i hw
      have hs : (v.hit ev.fd .read).slot ev.fd .write = v.slot ev.fd .write := by
        simp [Sources.hit, push, setSlot]
      refine ⟨h1.hit fun e he => ?_, (hit_callbacks _ _ h1).trans hq⟩
      rw [hq]
      exact hk .write hw e (hs ▸ he)
    · exact ⟨h1, hq⟩
  · simp only [hr, if_false]
    split
    · rename_i hw
      exact ⟨h.hit (hk .write hw), hit_callbacks _ _ h⟩
    · exact ⟨h, rfl⟩

/-- A new timer. -/
theorem Single.timer (h : v.Single co) (ht : k ∉ v.timed) (hq : k ∉ NetBase.callbacks v.queue)
    (hd : k.issued ≤ (co k.coroutine).suspension)
    (hw : ∀ c n, k = .wake c n → (co c).Awaits k ∧ ¬ Queued v.queue c) :
    { v with timed := k :: v.timed }.Single co where
  slots := h.slots
  queued := h.queued
  targets := h.targets
  callbacks := by
    refine List.nodup_cons.2 ⟨fun hm => ?_, h.callbacks⟩
    rcases List.mem_append.1 hm with hm | hm
    · exact ht hm
    · exact hq hm
  dated x hx := by
    rcases List.mem_cons.1 hx with rfl | hx
    · exact hd
    · exact h.dated x hx
  sleepers c n hx := by
    rcases List.mem_cons.1 hx with rfl | hx
    · exact hw c n rfl
    · exact h.sleepers c n hx
  unborn := h.unborn

theorem Single.perm {l : List Callback} (h : v.Single co) (hp : v.timed.Perm l) :
    { v with timed := l }.Single co where
  slots := h.slots
  queued := h.queued
  targets := h.targets
  callbacks := (hp.append_right _).nodup_iff.1 h.callbacks
  dated k hk := h.dated k (hp.mem_iff.2 hk)
  sleepers c n hk := h.sleepers c n (hp.mem_iff.2 hk)
  unborn := h.unborn

/-- A registration for a coroutine that is going to wait there. -/
theorem Single.register (h : v.Single co) (hx : (co c).WaitsOn fd d) (hw : ¬ Queued v.queue c) :
    (v.setSlot fd d (some (.co c (co c).suspension))).Single co where
  slots g d' e he := by
    simp only [setSlot] at he
    split at he
    · rename_i hg
      cases he
      rw [hg.1, hg.2]
      exact ⟨rfl, hx, hw⟩
    · exact h.slots g d' e he
  queued := h.queued
  targets := h.targets
  callbacks := h.callbacks
  dated := h.dated
  sleepers := h.sleepers
  unborn := h.unborn

end Sources

end NetBase
