import NetBase.Lib.Runs
import NetBase.IO.Deadline
import NetBase.IO.Events
import NetBase.IO.NonBlock

/-!
# The descriptor tables as maps

`_FdManager` of `include/io/fd_manager.h` with its `int` arguments: `contexts_` is a vector
indexed by descriptors, its size is cast to `int` for the comparisons, and a descriptor past
the end makes it grow to `static_cast<size_t>(fd * 1.5)`. It is meant to be a map from
descriptors to contexts that any `int` can be looked up in.

It is one for the descriptors that fit after growth and as long as the size fits an `int`.
The numbers 0 and 1 do not fit, negative ones are looked up outside the vector, and past
`2 ^ 31` elements the size reads as negative. `fd_events_` of the manager grows the same way.
-/

namespace NetBase

open Lib

structure FdTable where
  contexts : List (Option FdContext) := []

namespace FdTable

/-- `static_cast<int>(contexts_.size())`. -/
def len (t : FdTable) : Int := castInt t.contexts.length

/-- `contexts_[fd]`; a negative `fd` is far past the end as a `size_t`. -/
def contextAt (t : FdTable) (fd : Int) : Except Fault (Option FdContext) :=
  if fd < 0 then .error .outOfRange else index t.contexts fd.toNat

def setContext (t : FdTable) (fd : Int) (context : FdContext) : Except Fault FdTable := do
  let t := if fd ≥ t.len then
      { contexts := resize none t.contexts (fd.toNat * 3 / 2) } else t
  let _ ← t.contextAt fd
  return { contexts := t.contexts.set fd.toNat (some context) }

def getContext (t : FdTable) (fd : Int) : Except Fault (Option FdContext) :=
  if fd < t.len then t.contextAt fd else return none

def hasFd (t : FdTable) (fd : Int) : Except Fault Bool :=
  if fd < t.len then (t.contextAt fd).map Option.isSome else return false

def delContext (t : FdTable) (fd : Int) : Except Fault FdTable :=
  if fd < t.len then do
    match ← t.contextAt fd with
    | some _ => return { contexts := t.contexts.set fd.toNat none }
    | none => return t
  else return t

end FdTable

/-- The table and, as a ghost, the map it should be. -/
structure TableSys where
  table : FdTable := {}
  map : Int → Option FdContext := fun _ => none
  fault : Option Fault := none

inductive TableOp where
  | setContext (fd : Int) (context : FdContext)
  | delContext (fd : Int)
  | getContext (fd : Int)
  | hasFd (fd : Int)

/-- A value of type `int`. -/
def IsInt (fd : Int) : Prop := -0x80000000 ≤ fd ∧ fd < 0x80000000

instance (fd : Int) : Decidable (IsInt fd) := inferInstanceAs (Decidable (_ ∧ _))

namespace TableSys

def fail (s : TableSys) (e : Fault) : TableSys := { s with fault := some e }

/-- One call. Contexts are set and deleted for descriptors, anything may be looked up. -/
def step (s : TableSys) (op : TableOp) : Option TableSys :=
  if s.fault.isSome then none
  else match op with
    | .setContext fd context =>
      if 0 ≤ fd ∧ IsInt fd then
        some <| match s.table.setContext fd context with
          | .ok table => { s with table, map := Function.update s.map fd (some context) }
          | .error e => s.fail e
      else none
    | .delContext fd =>
      if 0 ≤ fd ∧ IsInt fd then
        some <| match s.table.delContext fd with
          | .ok table => { s with table, map := Function.update s.map fd none }
          | .error e => s.fail e
      else none
    | .getContext fd =>
      if IsInt fd then
        some <| match s.table.getContext fd with
          | .ok _ => s
          | .error e => s.fail e
      else none
    | .hasFd fd =>
      if IsInt fd then
        some <| match s.table.hasFd fd with
          | .ok _ => s
          | .error e => s.fail e
      else none

/-- No access so far was out of range, and looking up any descriptor gives what the map has. -/
structure Total (s : TableSys) : Prop where
  inRange : s.fault = none
  getContext : ∀ fd, 0 ≤ fd → IsInt fd → s.table.getContext fd = .ok (s.map fd)
  hasFd : ∀ fd, 0 ≤ fd → IsInt fd → s.table.hasFd fd = .ok (s.map fd).isSome

/-- A new descriptor is at least 2, and the size it makes the vector grow to is an `int`; what
is looked up is not negative. -/
def Safe (s : TableSys) : TableOp → Prop
  | .setContext fd _ => fd < s.table.contexts.length ∨ 2 ≤ fd ∧ fd * 3 / 2 < 0x80000000
  | .delContext _ => True
  | .getContext fd => 0 ≤ fd
  | .hasFd fd => 0 ≤ fd

instance (s : TableSys) : ∀ op, Decidable (s.Safe op)
  | .setContext .. => inferInstanceAs (Decidable (_ ∨ _))
  | .delContext _ => .isTrue trivial
  | .getContext _ => inferInstanceAs (Decidable (_ ≤ _))
  | .hasFd _ => inferInstanceAs (Decidable (_ ≤ _))

end TableSys

/-! ## Tables whose size is an `int` -/

namespace FdTable

variable {t t' : FdTable} {fd : Int} {context : FdContext}

/-- The size is an `int`. -/
def Small (t : FdTable) : Prop := t.contexts.length < 0x80000000

theorem Small.len_eq (h : t.Small) : t.len = t.contexts.length := by
  unfold Small at h
  unfold len castInt
  simp only
  split <;> omega

theorem contextAt_nonneg (h : 0 ≤ fd) : t.contextAt fd = index t.contexts fd.toNat :=
  if_neg (by omega)

theorem Small.getContext_eq (h : t.Small) (hfd : 0 ≤ fd) :
    t.getContext fd = .ok (t.contexts[fd.toNat]?.getD none) := by
  unfold getContext
  rw [h.len_eq, contextAt_nonneg hfd, index]
  split
  · rename_i hlt
    rw [List.getElem?_eq_getElem (by omega)]
    rfl
  · rename_i hge
    rw [List.getElem?_eq_none (by omega)]
    rfl

theorem Small.hasFd_eq (h : t.Small) (hfd : 0 ≤ fd) :
    t.hasFd fd = .ok (t.contexts[fd.toNat]?.getD none).isSome := by
  have hg := h.getContext_eq hfd
  unfold getContext at hg
  unfold hasFd
  split at hg
  · rename_i hlt
    rw [if_pos hlt, hg]
    rfl
  · rename_i hge
    rw [if_neg hge, ← Except.ok.inj hg]
    rfl

/-- A size past the `int`s reads as negative, and every descriptor as unknown. -/
theorem getContext_of_large (h : 0x80000000 ≤ t.contexts.length)
    (h' : t.contexts.length < 0x100000000) (hfd : 0 ≤ fd) : t.getContext fd = .ok none := by
  have hlen : t.len < 0 := by
    unfold len castInt
    simp only
    split <;> omega
  unfold getContext
  rw [if_neg (by omega)]
  rfl

theorem Small.delContext_eq (h : t.Small) (hfd : 0 ≤ fd) :
    t.delContext fd = .ok { contexts := t.contexts.set fd.toNat none } := by
  unfold delContext
  rw [h.len_eq, contextAt_nonneg hfd, index]
  split
  · rename_i hlt
    have hlt' : fd.toNat < t.contexts.length := by omega
    rw [List.getElem?_eq_getElem hlt']
    cases hc : t.contexts[fd.toNat] with
    | some c => simp [bind, Except.bind, pure, Except.pure]
    | none =>
      have hsame : t.contexts.set fd.toNat none = t.contexts := by
        rw [← hc]
        exact List.set_getElem_self hlt'
      simp [bind, Except.bind, pure, Except.pure, hsame]
  · rename_i hge
    rw [List.set_eq_of_length_le (by omega)]
    rfl

/-- `setContext` grows the vector if it has to and then writes. -/
theorem Small.setContext_eq (h : t.Small) (hfd : 0 ≤ fd) :
    t.setContext fd context =
      if Fits t.contexts fd.toNat then
        .ok { contexts := (growFor none t.contexts fd.toNat).set fd.toNat (some context) }
      else .error .outOfRange := by
  have hgrow : (if fd ≥ t.len then
      ({ contexts := resize none t.contexts (fd.toNat * 3 / 2) } : FdTable) else t).contexts =
        growFor none t.contexts fd.toNat := by
    rw [h.len_eq, growFor]
    by_cases hge : fd ≥ t.contexts.length
    · rw [if_pos hge, if_pos (by omega)]
    · rw [if_neg hge, if_neg (by omega)]
  unfold setContext
  simp only [contextAt_nonneg hfd, hgrow]
  by_cases hfit : Fits t.contexts fd.toNat
  · rw [if_pos hfit, index_ok.2 (growFor_at hfit)]
    rfl
  · have hlen : (growFor none t.contexts fd.toNat).length ≤ fd.toNat :=
      Nat.le_of_not_lt fun hlt => hfit (length_growFor.2.1 hlt)
    rw [if_neg hfit, index, List.getElem?_eq_none hlen]
    rfl

/-- On such a table the calls are those of the manager's model, which takes descriptors as
natural numbers. -/
theorem Small.refines (h : t.Small) (n : Nat) :
    t.getContext n = .ok (FdManager.getContext ⟨t.contexts⟩ n) ∧
      t.hasFd n = .ok (FdManager.hasFd ⟨t.contexts⟩ n) ∧
      t.delContext n = .ok ⟨(FdManager.delContext ⟨t.contexts⟩ n).contexts⟩ ∧
      t.setContext n context =
        (FdManager.setContext ⟨t.contexts⟩ n context).map fun m => ⟨m.contexts⟩ := by
  have hn : (0 : Int) ≤ n := Int.natCast_nonneg n
  refine ⟨?_, ?_, h.delContext_eq hn, ?_⟩
  · rw [h.getContext_eq hn, FdManager.getContext_eq]
    rfl
  · rw [h.hasFd_eq hn, FdManager.hasFd, FdManager.getContext_eq]
    rfl
  · rw [h.setContext_eq hn, FdManager.setContext]
    simp only [Int.toNat_natCast, length_growFor.2]
    split <;> rfl

end FdTable

/-! ## Runs -/

namespace TableSys

variable {s s' : TableSys} {fd : Int} {context : FdContext}

theorem total_iff (h : s.table.Small) : s.Total ↔ s.fault = none ∧
    ∀ fd, 0 ≤ fd → IsInt fd → s.table.contexts[fd.toNat]?.getD none = s.map fd := by
  constructor
  · intro ht
    refine ⟨ht.inRange, fun fd hfd hi => ?_⟩
    have := ht.getContext fd hfd hi
    rw [h.getContext_eq hfd] at this
    exact Except.ok.inj this
  · rintro ⟨hf, hm⟩
    refine ⟨hf, fun fd hfd hi => ?_, fun fd hfd hi => ?_⟩
    · rw [h.getContext_eq hfd, hm fd hfd hi]
    · rw [h.hasFd_eq hfd, hm fd hfd hi]

theorem not_total_fail (s : TableSys) (e : Fault) : ¬ (s.fail e).Total :=
  fun h => by cases h.inRange

/-- Writing at an index of the vector updates the map there and nowhere else. -/
theorem Total.update {v : List (Option FdContext)} {x : Option FdContext} (hfd : 0 ≤ fd)
    (hv : ∀ g, 0 ≤ g → IsInt g → v[g.toNat]?.getD none = s.map g)
    (hx : fd.toNat < v.length ∨ x = none) {g : Int} (hg : 0 ≤ g) (hi : IsInt g) :
    (v.set fd.toNat x)[g.toNat]?.getD none = Function.update s.map fd x g := by
  by_cases h : g = fd
  · subst h
    rw [Function.update_self]
    rcases hx with hlt | rfl
    · simp [hlt]
    · rw [List.getElem?_set]
      split <;> [split <;> rfl; simp_all]
  · have hne : fd.toNat ≠ g.toNat := by omega
    rw [Function.update_of_ne h, List.getElem?_set_ne hne]
    exact hv g hg hi

theorem fits_iff (v : List (Option FdContext)) (hfd : 0 ≤ fd) :
    Fits v fd.toNat ↔ fd < v.length ∨ 2 ≤ fd := by
  unfold Fits
  omega

theorem length_growFor_eq (v : List (Option FdContext)) (n : Nat) :
    (growFor none v n).length = if v.length ≤ n then n * 3 / 2 else v.length := by
  unfold growFor resize
  split
  · simp only [List.length_append, List.length_take, List.length_replicate]
    omega
  · rfl

/-- Setting a context keeps the table a map exactly if the call is safe. -/
theorem setContext_exact (hj : s.table.Small) (hp : s.Total) (hfd : 0 ≤ fd) (hi : IsInt fd)
    (h : step s (.setContext fd context) = some s') :
    (s'.Total ↔ s.Safe (.setContext fd context)) ∧ (s'.Total → s'.table.Small) := by
  have hmap := ((total_iff hj).1 hp).2
  have hstart : s.fault.isSome = false := by simp [hp.inRange]
  simp only [step, hstart, Bool.false_eq_true, hfd, hi, and_self, if_true, if_false,
    hj.setContext_eq hfd] at h
  simp only [Safe]
  by_cases hfit : Fits s.table.contexts fd.toNat
  · simp only [if_pos hfit, Option.some.injEq] at h
    subst h
    have hfit' := (fits_iff _ hfd).1 hfit
    set v := growFor none s.table.contexts fd.toNat with hv
    have hlen : (v.set fd.toNat (some context)).length = v.length := List.length_set
    have hvlen := length_growFor_eq s.table.contexts fd.toNat
    rw [← hv] at hvlen
    have hlt : fd.toNat < v.length := length_growFor.2.2 hfit
    unfold FdTable.Small at hj ⊢
    by_cases hsmall : v.length < 0x80000000
    · have hsafe : fd < s.table.contexts.length ∨ 2 ≤ fd ∧ fd * 3 / 2 < 0x80000000 := by
        split at hvlen <;> omega
      refine ⟨iff_of_true ?_ hsafe, fun _ => by rw [hlen]; exact hsmall⟩
      refine (total_iff (by rw [FdTable.Small, hlen]; exact hsmall)).2 ⟨hp.inRange, ?_⟩
      intro g hg hgi
      refine Total.update hfd (fun g hg hgi => ?_) (.inl hlt) hg hgi
      rw [hv, getD_growFor]
      exact hmap g hg hgi
    · -- the size reads as negative and the new context is not found
      have hnot : ¬ (⟨⟨v.set fd.toNat (some context)⟩,
          Function.update s.map fd (some context), s.fault⟩ : TableSys).Total := by
        intro ht
        have hget := ht.getContext fd hfd hi
        rw [FdTable.getContext_of_large (by rw [hlen]; omega)
          (by rw [hlen]; unfold IsInt at hi; split at hvlen <;> omega) hfd] at hget
        simp at hget
      refine ⟨iff_of_false hnot ?_, fun ht => absurd ht hnot⟩
      split at hvlen <;> omega
  · rw [if_neg hfit] at h
    cases h
    rw [fits_iff _ hfd] at hfit
    exact ⟨iff_of_false (not_total_fail s _) (by omega),
      fun ht => absurd ht (not_total_fail s _)⟩

theorem delContext_total (hj : s.table.Small) (hp : s.Total) (hfd : 0 ≤ fd) (hi : IsInt fd)
    (h : step s (.delContext fd) = some s') : s'.Total ∧ s'.table.Small := by
  have hmap := ((total_iff hj).1 hp).2
  have hstart : s.fault.isSome = false := by simp [hp.inRange]
  simp only [step, hstart, Bool.false_eq_true, hfd, hi, and_self, if_true, if_false,
    hj.delContext_eq hfd] at h
  cases h
  have hsmall : (⟨s.table.contexts.set fd.toNat none⟩ : FdTable).Small := by
    simpa [FdTable.Small] using hj
  exact ⟨(total_iff hsmall).2 ⟨hp.inRange, fun g hg hgi =>
    Total.update hfd hmap (.inr rfl) hg hgi⟩, hsmall⟩

/-- A look-up reads outside the vector exactly when its argument is negative. -/
theorem contextAt_negative (t : FdTable) (hj : t.Small) (hfd : fd < 0) :
    t.getContext fd = .error .outOfRange ∧ t.hasFd fd = .error .outOfRange := by
  have hlt : fd < t.len := by rw [hj.len_eq]; omega
  constructor
  · rw [FdTable.getContext, if_pos hlt, FdTable.contextAt, if_pos hfd]
  · rw [FdTable.hasFd, if_pos hlt, FdTable.contextAt, if_pos hfd]
    rfl

theorem step_exact {op : TableOp} (hj : s.table.Small) (hp : s.Total)
    (h : step s op = some s') : (s'.Total ↔ s.Safe op) ∧ (s'.Total → s'.table.Small) := by
  have hstart : s.fault.isSome = false := by simp [hp.inRange]
  cases op with
  | setContext fd context =>
    by_cases hc : 0 ≤ fd ∧ IsInt fd
    · exact setContext_exact hj hp hc.1 hc.2 h
    · simp [step, hstart, hc] at h
  | delContext fd =>
    by_cases hc : 0 ≤ fd ∧ IsInt fd
    · obtain ⟨ht, hs⟩ := delContext_total hj hp hc.1 hc.2 h
      exact ⟨iff_of_true ht trivial, fun _ => hs⟩
    · simp [step, hstart, hc] at h
  | getContext fd =>
    by_cases hc : IsInt fd
    · by_cases hfd : 0 ≤ fd
      · simp only [step, hstart, hc, hp.getContext fd hfd hc, if_true] at h
        cases h
        exact ⟨iff_of_true hp hfd, fun _ => hj⟩
      · simp only [step, hstart, hc, (contextAt_negative _ hj (Int.lt_of_not_ge hfd)).1,
          if_true] at h
        cases h
        exact ⟨iff_of_false (not_total_fail s _) hfd, fun ht => absurd ht (not_total_fail s _)⟩
    · simp [step, hstart, hc] at h
  | hasFd fd =>
    by_cases hc : IsInt fd
    · by_cases hfd : 0 ≤ fd
      · simp only [step, hstart, hc, hp.hasFd fd hfd hc, if_true] at h
        cases h
        exact ⟨iff_of_true hp hfd, fun _ => hj⟩
      · simp only [step, hstart, hc, (contextAt_negative _ hj (Int.lt_of_not_ge hfd)).2,
          if_true] at h
        cases h
        exact ⟨iff_of_false (not_total_fail s _) hfd, fun ht => absurd ht (not_total_fail s _)⟩
    · simp [step, hstart, hc] at h

theorem small_init : ({} : TableSys).table.Small := Nat.two_pow_pos 31

theorem total_init : ({} : TableSys).Total := by
  refine (total_iff small_init).2 ⟨rfl, fun fd _ _ => ?_⟩
  simp

end TableSys

/-- `registerEvent` indexes past the table exactly when it registers a direction of a running
manager for a descriptor that does not fit. -/
theorem World.registerEvent_inRange_iff {α κ : Type} (w : World α κ) (fd : Nat)
    (type : BitVec 32) (x : Option α) (b : Bool) :
    w.registerEvent fd type x b ≠ .error .outOfRange ↔
      w.stopped = true ∨ EventType.ofMask type = none ∨ fd < w.fdEvents.length ∨ 2 ≤ fd := by
  have hfits : Fits w.fdEvents fd ↔ fd < w.fdEvents.length ∨ 2 ≤ fd := by unfold Fits; omega
  cases hst : w.stopped with
  | true => simp [registerEvent, hst]
  | false =>
    cases hd : EventType.ofMask type with
    | none => simp [registerEvent_ignored hst hd]
    | some d =>
      obtain rfl := EventType.ofMask_some hd
      by_cases hfit : Fits w.fdEvents fd
      · have hf : (growFor .fresh w.fdEvents fd)[fd]? = some (w.entry fd) := growFor_at hfit
        have hne : w.registerEvent fd d.mask x b ≠ .error .outOfRange := by
          unfold registerEvent
          rw [if_neg (by simp [hst])]
          simp only [hd, index_ok.2 hf, bind, Except.bind, Epoll.epollMod, Epoll.epollAdd]
          cases w.epoll.interest fd <;> split <;> simp [pure, Except.pure]
        simp [hne, hfits.1 hfit]
      · simp [registerEvent_outOfRange hst hfit, ← hfits, hfit]

/-- **The tables as total maps.** For every sequence of calls: no access is out of range and
every descriptor is looked up to the context it was last given and not deleted of, in every
state, exactly when every call is safe. And `registerEvent` stays inside `fd_events_` exactly
for the descriptors that are in the table already or at least 2. -/
theorem TableSys.total_iff_safe {α κ : Type} :
    (∀ ops s, run step {} ops = some s → (Along step Total {} ops ↔ Meets step Safe {} ops)) ∧
      ∀ (w : World α κ) (fd : Nat) (type : BitVec 32) (x : Option α) (b : Bool),
        w.registerEvent fd type x b ≠ .error .outOfRange ↔
          w.stopped = true ∨ EventType.ofMask type = none ∨ fd < w.fdEvents.length ∨ 2 ≤ fd := by
  refine ⟨fun ops s hr => ?_, World.registerEvent_inRange_iff⟩
  exact along_iff_meets (J := fun s => s.table.Small)
    (fun _ _ _ hj hp hs hp' => (step_exact hj hp hs).2 hp')
    (fun _ _ _ hj hp hs => (step_exact hj hp hs).1) small_init total_init hr

/-- Two sockets, one of them closed. -/
theorem TableSys.total_two : Along step Total {}
    [.setContext 5 { isSocket := true }, .setContext 9 { isSocket := true }, .hasFd 5,
      .delContext 5, .getContext 5, .getContext 700] :=
  run_of_isSome (by decide +kernel) fun s hr =>
    ((total_iff_safe (α := Nat) (κ := Nat)).1 _ s hr).2 (by decide +kernel)

/-- `close(-1)` looks `-1` up; the first context is for descriptor 0 or 1; the first event is
registered for descriptor 1. -/
theorem TableSys.not_total :
    (∃ s, run step {} [.hasFd (-1)] = some s ∧ s.fault = some .outOfRange ∧ ¬ s.Total) ∧
      (∀ fd ∈ [0, 1], ∃ s, run step {} [.setContext fd { isSocket := true }] = some s ∧
        s.fault = some .outOfRange ∧ ¬ s.Total) ∧
      (World.init 3 : World Nat Nat).registerEvent 1 epollIn (some 7) true =
        .error .outOfRange := by
  refine ⟨⟨_, rfl, rfl, not_total_fail _ _⟩, fun fd hfd => ?_, rfl⟩
  rcases List.mem_cons.1 hfd with rfl | hfd
  · exact ⟨_, rfl, rfl, not_total_fail _ _⟩
  · cases List.mem_singleton.1 hfd
    exact ⟨_, rfl, rfl, not_total_fail _ _⟩

end NetBase
