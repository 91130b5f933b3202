import Mathlib
import NetBase.Lib.Runs
import NetBase.Logging.Logger

/-!
# Registering flushers

`rigisterFlushMaker` of `_LogFlusherManager` and what `getLogFlusher` makes of it, over whole
histories of registrations. Keys are kept in upper case, but a new one is looked for as it was
given: a key that is not in upper case is never found, `emplace` then leaves the map as it is
where its upper-case form is there, and the caller is told that the maker was registered.
-/

namespace NetBase.Logging

open Lib (Along Meets run)

variable {Φ : Type}

/-- `std::unordered_map::emplace`: a key that is there keeps its value. -/
def emplace (l : List (String × (String → Φ))) (key : String) (func : String → Φ) :
    List (String × (String → Φ)) :=
  if (l.lookup key).isSome then l else (key, func) :: l

/-- The returned flag, and the manager behind the call. -/
def FlusherManager.rigisterFlushMaker (m : FlusherManager Φ) (key : String) (func : String → Φ) :
    Bool × FlusherManager Φ :=
  if (m.flushersMaker.lookup key).isSome then (false, m)
  else (true, ⟨emplace m.flushersMaker (toUpper key) func⟩)

/-! ## Histories -/

/-- A call and what it returned. -/
structure Registration (Φ : Type) where
  key : String
  func : String → Φ
  returned : Bool

/-- The manager, with the calls so far, the last one first. -/
structure Registry (Φ : Type) where
  manager : FlusherManager Φ := ⟨[]⟩
  calls : List (Registration Φ) := []

/-- `key` names a flusher `name` ignoring case. -/
def SameKey (key name : String) : Prop := toUpper key = toUpper name

namespace Registry

def step (s : Registry Φ) (call : String × (String → Φ)) : Option (Registry Φ) :=
  let r := s.manager.rigisterFlushMaker call.1 call.2
  some ⟨r.2, ⟨call.1, call.2, r.1⟩ :: s.calls⟩

/-- The flushers the constructor registers. -/
def builtIn : List String :=
  ["SimpleFileFlusher", "ProtectedFileFlusher", "AsyncFileLogFlusher", "SimpleStdoutFlusher",
    "ProtectedStdoutFlusher", "AsyncStdoutLogFlusher"]

/-- What the calls of the constructor come to, for makers of the built-in flushers. -/
def Constructed (make : String → String → Φ) (s : Registry Φ) : Prop :=
  run step {} (builtIn.map fun name => (name, make name)) = some s

/-- The maker of the last call that returned true for the key, ignoring case. -/
def lastMaker (calls : List (Registration Φ)) (key : String) : Option (String → Φ) :=
  (calls.find? fun r => r.returned && toUpper r.key == toUpper key).map (·.func)

/-- Every call returned true exactly when no key registered before it is the same. -/
def Truthful : List (Registration Φ) → Prop
  | [] => True
  | r :: before =>
    (r.returned = true ↔ ∀ e ∈ before, e.returned = true → ¬ SameKey e.key r.key) ∧ Truthful before

/-- The flags were right, and lookups go by them. -/
structure Honest (s : Registry Φ) : Prop where
  flags : Truthful s.calls
  lookup : ∀ key pattern,
    s.manager.getLogFlusher key pattern = (lastMaker s.calls key).map fun func => func pattern

/-- The key is in upper case, or new. -/
def UpperOrNew (s : Registry Φ) (call : String × (String → Φ)) : Prop :=
  toUpper call.1 = call.1 ∨ ∀ r ∈ s.calls, ¬ SameKey r.key call.1

/-! ## The map -/

theorem toUpper_toUpper (key : String) : toUpper (toUpper key) = toUpper key := by
  rw [toUpper, toUpper, String.toList_ofList, List.map_map]
  congr 2
  funext c
  exact Char.toUpper_toUpper_eq_toUpper c

theorem lookup_emplace (l : List (String × (String → Φ))) (key k : String) (func : String → Φ) :
    (emplace l key func).lookup k =
      if k = key ∧ l.lookup key = none then some func else l.lookup k := by
  unfold emplace
  cases hl : l.lookup key with
  | some f => simp
  | none =>
    rw [Option.isSome_none, if_neg Bool.false_ne_true, List.lookup_cons]
    by_cases hk : k = key
    · simp [hk]
    · rw [beq_false_of_ne hk]
      simp [hk]

/-- The keys of the map are the keys of the calls, in upper case. -/
structure Mapped (s : Registry Φ) : Prop where
  some_iff : ∀ k, (s.manager.flushersMaker.lookup k).isSome ↔ ∃ r ∈ s.calls, toUpper r.key = k

theorem Mapped.upper {s : Registry Φ} (h : Mapped s) {k : String}
    (hk : (s.manager.flushersMaker.lookup k).isSome) : toUpper k = k := by
  obtain ⟨r, -, rfl⟩ := (h.some_iff k).1 hk
  exact toUpper_toUpper r.key

/-- What a call does: it returns false where the key is in the map as it is, and the map gets the
upper-case key where that is not there. -/
theorem step_cases {s t : Registry Φ} {key : String} {func : String → Φ}
    (h : step s (key, func) = some t) :
    ((s.manager.flushersMaker.lookup key).isSome ∧ t.manager = s.manager ∧
        t.calls = ⟨key, func, false⟩ :: s.calls) ∨
      (s.manager.flushersMaker.lookup key = none ∧
        t.manager = ⟨emplace s.manager.flushersMaker (toUpper key) func⟩ ∧
        t.calls = ⟨key, func, true⟩ :: s.calls) := by
  cases h
  cases hl : s.manager.flushersMaker.lookup key with
  | some f =>
    left
    simp [FlusherManager.rigisterFlushMaker, hl]
  | none =>
    right
    simp [FlusherManager.rigisterFlushMaker, hl]

section

variable {s t : Registry Φ} {call : String × (String → Φ)}

theorem Mapped.step (h : Mapped s) (hs : step s call = some t) : Mapped t := by
  obtain ⟨key, func⟩ := call
  constructor
  intro k
  obtain ⟨hl, hm, hc⟩ | ⟨hl, hm, hc⟩ := step_cases hs
  · -- the key is there, so it is its own upper-case form
    have hup := h.upper hl
    rw [hm, hc, h.some_iff]
    constructor
    · rintro ⟨r, hr, rfl⟩
      exact ⟨r, .tail _ hr, rfl⟩
    · rintro ⟨r, hr, rfl⟩
      rcases List.mem_cons.1 hr with rfl | hr
      · obtain ⟨e, he, hek⟩ := (h.some_iff key).1 hl
        exact ⟨e, he, hek.trans hup.symm⟩
      · exact ⟨r, hr, rfl⟩
  · rw [hm, hc, lookup_emplace]
    constructor
    · intro hk
      split at hk
      · rename_i hnew
        exact ⟨_, .head _, hnew.1.symm⟩
      · obtain ⟨r, hr, rfl⟩ := (h.some_iff k).1 hk
        exact ⟨r, .tail _ hr, rfl⟩
    · rintro ⟨r, hr, rfl⟩
      rcases List.mem_cons.1 hr with rfl | hr
      · cases hup : s.manager.flushersMaker.lookup (toUpper key) with
        | none => simp
        | some f => simp
      · have hsome := (h.some_iff (toUpper r.key)).2 ⟨r, hr, rfl⟩
        split
        · rfl
        · exact hsome

/-- Where the flags are right the map has the keys that are registered. -/
theorem lookup_none_iff (hh : Honest s) (key : String) :
    s.manager.flushersMaker.lookup (toUpper key) = none ↔
      ∀ e ∈ s.calls, e.returned = true → ¬ SameKey e.key key := by
  have hl := hh.lookup key ""
  rw [FlusherManager.getLogFlusher, lastMaker] at hl
  have hnone : s.manager.flushersMaker.lookup (toUpper key) = none ↔
      s.calls.find? (fun r => r.returned && toUpper r.key == toUpper key) = none := by
    rw [← Option.map_eq_none_iff, hl, Option.map_eq_none_iff, Option.map_eq_none_iff]
  rw [hnone, List.find?_eq_none]
  simp [SameKey]

theorem lastMaker_cons_false (key k : String) (func : String → Φ) (calls : List (Registration Φ)) :
    lastMaker (⟨key, func, false⟩ :: calls) k = lastMaker calls k := by
  simp [lastMaker]

theorem lastMaker_cons_true (key k : String) (func : String → Φ) (calls : List (Registration Φ)) :
    lastMaker (⟨key, func, true⟩ :: calls) k =
      if toUpper k = toUpper key then some func else lastMaker calls k := by
  unfold lastMaker
  by_cases hk : toUpper k = toUpper key
  · rw [if_pos hk, List.find?_cons_of_pos (by simp [hk])]
    rfl
  · rw [if_neg hk, List.find?_cons_of_neg (by simpa using Ne.symm hk)]

/-- A key in upper case or a new one is looked for as it is kept. -/
theorem UpperOrNew.lookup_none {key : String} {func : String → Φ} (hm : Mapped s)
    (hc : UpperOrNew s (key, func)) (hl : s.manager.flushersMaker.lookup key = none) :
    s.manager.flushersMaker.lookup (toUpper key) = none := by
  rcases hc with hup | hnew
  · rw [show toUpper key = key from hup, hl]
  · by_contra hsome
    obtain ⟨r, hr, hrk⟩ := (hm.some_iff _).1 (Option.isSome_iff_ne_none.2 hsome)
    exact hnew r hr hrk

/-- The new flag is right and lookups go by it exactly when the key is in upper case or new. -/
theorem honest_step_iff (hm : Mapped s) (hh : Honest s) (hs : step s call = some t) :
    Honest t ↔ UpperOrNew s call := by
  obtain ⟨key, func⟩ := call
  have hnone := lookup_none_iff hh key
  constructor
  · intro ht
    by_contra hno
    obtain ⟨hup, hold⟩ := not_or.1 hno
    simp only [not_forall, not_not] at hold
    obtain ⟨r, hr, hsame⟩ := hold
    obtain ⟨hl, -, -⟩ | ⟨-, -, hcalls⟩ := step_cases hs
    · exact hup (hm.upper hl)
    · have hflags := ht.flags
      rw [hcalls] at hflags
      have hfree := hnone.2 (hflags.1.1 rfl)
      have hsome := (hm.some_iff (toUpper key)).2 ⟨r, hr, hsame⟩
      rw [hfree] at hsome
      cases hsome
  · intro hc
    obtain ⟨hl, hmgr, hcalls⟩ | ⟨hl, hmgr, hcalls⟩ := step_cases hs
    · have hup := hm.upper hl
      rw [hup] at hnone
      have htaken : ¬ ∀ e ∈ s.calls, e.returned = true → ¬ SameKey e.key key := by
        rw [← hnone]
        exact Option.isSome_iff_ne_none.1 hl
      constructor
      · rw [hcalls]
        exact ⟨iff_of_false Bool.false_ne_true htaken, hh.flags⟩
      · intro k pattern
        rw [hmgr, hcalls, lastMaker_cons_false]
        exact hh.lookup k pattern
    · have hfree := hc.lookup_none hm hl
      constructor
      · rw [hcalls]
        exact ⟨iff_of_true rfl (hnone.1 hfree), hh.flags⟩
      · intro k pattern
        rw [hmgr, hcalls, lastMaker_cons_true, FlusherManager.getLogFlusher, lookup_emplace]
        by_cases hk : toUpper k = toUpper key
        · rw [if_pos ⟨hk, hfree⟩, if_pos hk]
        · rw [if_neg (fun h => hk h.1), if_neg hk]
          exact hh.lookup k pattern

end

/-! ## The constructor -/

theorem mapped_empty : Mapped ({} : Registry Φ) := ⟨fun k => by simp⟩

theorem honest_empty : Honest ({} : Registry Φ) := ⟨trivial, fun _ _ => rfl⟩

/-- Keys that differ from each other and from those before are all new. -/
theorem meets_of_nodup {s : Registry Φ} {calls : List (String × (String → Φ))}
    (hnew : ∀ call ∈ calls, ∀ r ∈ s.calls, ¬ SameKey r.key call.1)
    (hnodup : (calls.map fun call => toUpper call.1).Nodup) : Meets step UpperOrNew s calls := by
  induction calls generalizing s with
  | nil => trivial
  | cons call calls ih =>
    rw [List.map_cons, List.nodup_cons] at hnodup
    refine ⟨.inr (hnew call (.head _)), fun t ht => ih (fun c hc r hr => ?_) hnodup.2⟩
    cases ht
    rcases List.mem_cons.1 hr with rfl | hr
    · exact fun hsame => hnodup.1 (List.mem_map.2 ⟨c, hc, hsame.symm⟩)
    · exact hnew c (.tail _ hc) r hr

theorem mapped_run {s t : Registry Φ} {calls : List (String × (String → Φ))} (hm : Mapped s)
    (h : run step s calls = some t) : Mapped t :=
  Lib.run_inv (fun _ _ _ hm hs => hm.step hs) hm h

theorem run_isSome (s : Registry Φ) (calls : List (String × (String → Φ))) :
    ∃ t, run step s calls = some t := by
  induction calls generalizing s with
  | nil => exact ⟨s, rfl⟩
  | cons call calls ih => exact ih _

/-- Histories from a registry whose flags are right. -/
theorem along_honest_iff {s : Registry Φ} (hm : Mapped s) (hh : Honest s)
    (calls : List (String × (String → Φ))) :
    Along step Honest s calls ↔ Meets step UpperOrNew s calls := by
  obtain ⟨t, ht⟩ := run_isSome s calls
  exact Lib.along_iff_meets (J := Mapped) (fun _ _ _ hm _ hs _ => hm.step hs)
    (fun _ _ _ hm hh hs => honest_step_iff hm hh hs) hm hh ht

theorem honest_constructed {make : String → String → Φ} {s : Registry Φ}
    (h : Constructed make s) : Mapped s ∧ Honest s := by
  have hnodup : (builtIn.map toUpper).Nodup := by decide +kernel
  have hmeets : Meets step UpperOrNew {} (builtIn.map fun name => (name, make name)) :=
    meets_of_nodup (by simp) (by rw [List.map_map]; exact hnodup)
  exact ⟨mapped_run mapped_empty h,
    ((along_honest_iff mapped_empty honest_empty _).2 hmeets).last h⟩

/-- **The registry.** A call that returns false changes nothing. From the built-in registrations
on, the flags are right and lookups go by them all along a history exactly when every key that is
registered is in upper case or new. -/
theorem registry_honest_iff {make : String → String → Φ} {s : Registry Φ}
    (h : Constructed make s) (calls : List (String × (String → Φ))) :
    (∀ (m : FlusherManager Φ) key func, (m.rigisterFlushMaker key func).1 = false →
        (m.rigisterFlushMaker key func).2 = m) ∧
      (Along step Honest s calls ↔ Meets step UpperOrNew s calls) := by
  constructor
  · intro m key func hfalse
    unfold FlusherManager.rigisterFlushMaker at hfalse ⊢
    split at hfalse
    · rw [if_pos (by assumption)]
    · cases hfalse
  · obtain ⟨hm, hh⟩ := honest_constructed h
    exact along_honest_iff hm hh calls

/-- The built-in flushers, known by their names. -/
def byName : Registry String where
  manager := ⟨builtIn.reverse.map fun name => (toUpper name, fun _ => name)⟩
  calls := builtIn.reverse.map fun name => ⟨name, fun _ => name, true⟩

theorem constructed_byName : Constructed (fun name _ => name) byName := by
  rfl

/-- A new key, the same in upper case, and a built-in one in upper case: the last two are
refused. -/
theorem registry_honest_upper :
    Along step Honest byName [("Remote", fun _ => "r"), ("REMOTE", fun _ => "s"),
      ("SIMPLEFILEFLUSHER", fun _ => "f")] := by
  refine (registry_honest_iff constructed_byName _).2.2 ⟨.inr ?_, fun s hs => ?_⟩
  · unfold SameKey
    decide +kernel
  · exact ⟨.inl (by decide +kernel), fun t ht => ⟨.inl (by decide +kernel), fun _ _ => trivial⟩⟩

/-- A built-in key in lower case: the call returns true, and lookups go on with the built-in
maker. -/
theorem registry_not_honest :
    (byName.manager.rigisterFlushMaker "simplefileflusher" fun _ => "mine").1 = true ∧
      (byName.manager.rigisterFlushMaker "simplefileflusher" fun _ => "mine").2.getLogFlusher
        "simplefileflusher" "" = some "SimpleFileFlusher" ∧
      ¬ Along step Honest byName [("simplefileflusher", fun _ => "mine")] := by
  have hget :
      (byName.manager.rigisterFlushMaker "simplefileflusher" fun _ => "mine").2.getLogFlusher
        "simplefileflusher" "" = some "SimpleFileFlusher" := by decide +kernel
  refine ⟨by decide +kernel, hget, fun h => ?_⟩
  have hlookup := ((h.2 _ rfl).head.lookup "simplefileflusher" "").symm.trans hget
  exact absurd hlookup (by decide +kernel)

end Registry

end NetBase.Logging
