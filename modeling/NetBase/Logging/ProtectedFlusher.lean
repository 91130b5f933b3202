import NetBase.Base.File
import NetBase.Lib.Mutex

/-!
# The flushers with a lock

`ProtectedFileFlusher` of `include/logging/logger_flusher.h`: `flush` locks `mutex_` and appends to
the file. `append` makes as many `::write` calls as the kernel wants, and the other threads of the
program run between any two of them. `AppendPc` is where an `append` stands and `next` its next
step; left alone, the steps do what `WritableFile.append` does (`append_steps`).

Under the lock the lines of different threads do not mix: what the kernel and the buffer have is
whole lines, in the order of the lock, and the beginning of the one being written.
-/

namespace NetBase.Logging

open Lib WritableFile

variable {α : Type}

/-- Where an `append` stands. -/
inductive AppendPc (α : Type)
  | start (str : List α)
  /-- In `write`, with `left` to be taken: of the buffer, `rest` to follow, or straight from the
  string when there is no `rest`. -/
  | writing (left : List α) (rest : Option (List α))
  | returned (ok : Bool)

/-- The kernel, and the file of the flusher. -/
abbrev FileData (α : Type) := Kernel α × WritableFile α

/-- `append` after its `flushBuffer` or its last `write` has taken everything. -/
def written (k : Kernel α) (f : WritableFile α) : Option (List α) → FileData α × AppendPc α
  | some rest =>
    if rest.length < G_FileBufferSize then
      ((k, { f with buf := memcpy f.buf 0 rest, pos := rest.length }), .returned true)
    else ((k, { f with pos := 0 }), .writing rest none)
  | none => ((k, f), .returned true)

def next (os : Posix) : FileData α → AppendPc α → Option (FileData α × AppendPc α)
  | (k, f), .start str =>
    let rest := str.drop (min str.length (sizeSub G_FileBufferSize f.pos))
    let f := f.fill str
    if rest.length = 0 then some ((k, f), .returned true)
    else some ((k, f), .writing f.pending (some rest))
  | (k, f), .writing left rest =>
    if left = [] then some (written k f rest)
    else
      match k.sysWrite os f.fd left with
      | (.eintr, k) => some ((k, f), .writing left rest)
      -- `flushBuffer` empties the buffer in any case
      | (.failed, k) => some ((k, if rest.isSome then { f with pos := 0 } else f), .returned false)
      | (.count n, k) => some ((k, f), .writing (left.drop n) rest)
  | _, .returned _ => none

/-- A `::write` of the rest of the program, to some other descriptor. -/
def otherWrite (os : Posix) (s : FileData α) (call : Int × List α) : Option (FileData α) :=
  if s.1.current call.1 = s.1.current s.2.fd then none
  else some ((s.1.sysWrite os call.1 call.2).2, s.2)

/-- `ProtectedFileFlusher`. -/
def protectedFileFlusher (os : Posix) :
    Object (FileData α) (List α) (AppendPc α) (Int × List α) where
  start := .start
  next := next os
  env := otherWrite os

/-! ## The steps of one call -/

/-- `n` steps of a call that nothing interrupts. -/
def steps (os : Posix) : Nat → FileData α × AppendPc α → Option (FileData α × AppendPc α)
  | 0, s => some s
  | n + 1, s => (next os s.1 s.2).bind (steps os n)

theorem steps_add (os : Posix) {n m : Nat} {s t : FileData α × AppendPc α}
    (h : steps os n s = some t) : steps os (n + m) s = steps os m t := by
  induction n generalizing s with
  | zero => cases h; rw [Nat.zero_add]
  | succ n ih =>
    obtain ⟨u, hu, h⟩ := Option.bind_eq_some_iff.1 h
    rw [Nat.succ_add]
    simp only [steps, hu, Option.bind_some]
    exact ih h

/-- `write` is its system calls. -/
theorem write_steps (os : Posix) (k : Kernel α) (f : WritableFile α) (left : List α)
    (rest : Option (List α)) :
    ∃ n, steps os n ((k, f), .writing left rest) = some (
      if (write os k f.fd left).1 then written (write os k f.fd left).2 f rest
      else (((write os k f.fd left).2, if rest.isSome then { f with pos := 0 } else f),
        .returned false)) := by
  generalize hfd : f.fd = fd
  fun_induction write os k fd left with
  | case1 k => exact ⟨1, by simp [steps, next]⟩
  | case2 k left hb k' h _ ih =>
    obtain ⟨n, ih⟩ := ih
    exact ⟨n + 1, by simp [steps, next, hb, hfd, h, ih]⟩
  | case3 k left hb k' h => exact ⟨1, by simp [steps, next, hb, hfd, h]⟩
  | case4 k left hb m k' h _ ih =>
    obtain ⟨n, ih⟩ := ih
    exact ⟨n + 1, by simp [steps, next, hb, hfd, h, ih]⟩

/-- **One call alone.** The steps of an `append` that nothing interrupts come to what
`WritableFile.append` does. -/
theorem append_steps (os : Posix) (k : Kernel α) (f : WritableFile α) (str : List α) :
    ∃ n, steps os n ((k, f), .start str) =
      some ((f.append os k str).2, .returned (f.append os k str).1) := by
  unfold append
  generalize hrest : str.drop (min str.length (sizeSub G_FileBufferSize f.pos)) = rest
  by_cases hfit : rest.length = 0
  · exact ⟨1, by simp [steps, next, hrest, hfit]⟩
  have hone : steps os 1 ((k, f), .start str) =
      some ((k, f.fill str), .writing (f.fill str).pending (some rest)) := by
    simp [steps, next, hrest, hfit]
  obtain ⟨n, hn⟩ := write_steps os k (f.fill str) (f.fill str).pending (some rest)
  rw [← steps_add os hone] at hn
  obtain ⟨ok, k', hw⟩ : ∃ ok k', write os k (f.fill str).fd (f.fill str).pending = (ok, k') :=
    ⟨_, _, rfl⟩
  have hflush : (f.fill str).flushBuffer os k = (ok, k', { f.fill str with pos := 0 }) := by
    unfold WritableFile.pending at hw
    simp only [flushBuffer, hw]
  simp only [hrest, hfit, if_false, hflush]
  rw [hw] at hn
  cases ok with
  | false => exact ⟨1 + n, by simpa using hn⟩
  | true =>
    simp only [if_true, written] at hn
    by_cases hsmall : rest.length < G_FileBufferSize
    · exact ⟨1 + n, by simpa [hsmall] using hn⟩
    · obtain ⟨m, hm⟩ := write_steps os k' { f.fill str with pos := 0 } rest none
      rw [if_neg hsmall] at hn
      refine ⟨1 + n + m, ?_⟩
      rw [steps_add os hn, hm]
      obtain ⟨ok', k'', hw'⟩ : ∃ ok' k'', write os k' (f.fill str).fd rest = (ok', k'') :=
        ⟨_, _, rfl⟩
      simp only [hsmall, if_false, hw', Bool.not_true, Bool.false_eq_true, written]
      cases ok' <;> rfl

/-- A call that keeps running returns. -/
theorem steps_return (os : Posix) (s : FileData α) (p : AppendPc α) :
    ∃ n s' ok, steps os n (s, p) = some (s', .returned ok) := by
  have hwrite : ∀ (s : FileData α) left rest,
      ∃ n s' p', steps os n (s, .writing left rest) = some (s', p') ∧
        ((∃ ok, p' = .returned ok) ∨ rest.isSome ∧ ∃ l, p' = .writing l none) := by
    intro s left rest
    obtain ⟨n, hn⟩ := write_steps os s.1 s.2 left rest
    cases hw : (write os s.1 s.2.fd left).1 with
    | false =>
      rw [hw] at hn
      exact ⟨n, _, _, hn, .inl ⟨false, rfl⟩⟩
    | true =>
      rw [hw] at hn
      cases rest with
      | none => exact ⟨n, _, _, hn, .inl ⟨true, rfl⟩⟩
      | some r =>
        by_cases hsmall : r.length < G_FileBufferSize
        · simp only [if_true, written, hsmall] at hn
          exact ⟨n, _, _, hn, .inl ⟨true, rfl⟩⟩
        · simp only [if_true, written, hsmall, if_false] at hn
          exact ⟨n, _, _, hn, .inr ⟨rfl, r, rfl⟩⟩
  cases p with
  | start str =>
    obtain ⟨n, hn⟩ := append_steps os s.1 s.2 str
    exact ⟨n, _, _, hn⟩
  | returned ok => exact ⟨0, s, ok, rfl⟩
  | writing left rest =>
    obtain ⟨n, s', p', hn, ⟨ok, rfl⟩ | ⟨-, l, rfl⟩⟩ := hwrite s left rest
    · exact ⟨n, s', ok, hn⟩
    · obtain ⟨m, s'', p'', hm, ⟨ok, rfl⟩ | ⟨h, -⟩⟩ := hwrite s' l none
      · exact ⟨n + m, s'', ok, by rw [steps_add os hn, hm]⟩
      · cases h

/-! ## Under the lock -/

/-- Between two calls: the kernel and the buffer have `lines`. -/
structure Between (d : Nat) (lines : List (List α)) (s : FileData α) : Prop where
  current : s.1.current s.2.fd = some d
  fits : s.2.Fits
  bytes : s.1.written d ++ s.2.pending = lines.flatten

/-- What is still to come of `lines` while the last of them is appended. -/
def Coming (f : WritableFile α) : AppendPc α → List α → Prop
  | .start str, l => l = f.pending ++ str
  | .writing left (some rest), l => l = left ++ rest
  | .writing left none, l => l = left ∧ f.pos = 0
  | .returned ok, l => ok = true ∧ l = f.pending

structure Within (d : Nat) (lines : List (List α)) (s : FileData α) (p : AppendPc α) : Prop where
  current : s.1.current s.2.fd = some d
  fits : s.2.Fits
  bytes : ∃ l, Coming s.2 p l ∧ s.1.written d ++ l = lines.flatten

variable {os : Posix} {d : Nat} {lines : List (List α)} {s s' : FileData α} {p p' : AppendPc α}

theorem Within.start {str : List α} (h : Between d lines s) :
    Within d (lines ++ [str]) s (.start str) where
  current := h.current
  fits := h.fits
  bytes := ⟨_, rfl, by rw [← List.append_assoc, h.bytes]; simp⟩

theorem written_within {rest : Option (List α)} (h : Within d lines s (.writing [] rest)) :
    Within d lines (written s.1 s.2 rest).1 (written s.1 s.2 rest).2 := by
  obtain ⟨hc, hf, l, hl, hb⟩ := h
  have hempty : ({ s.2 with pos := 0 } : WritableFile α).Fits := ⟨hf.length, Nat.zero_le _⟩
  cases rest with
  | none =>
    obtain ⟨rfl, hpos⟩ := hl
    simp only [written]
    exact ⟨hc, hf, [], ⟨rfl, by simp [WritableFile.pending, hpos]⟩, hb⟩
  | some rest =>
    obtain rfl : l = rest := hl
    by_cases hsmall : l.length < G_FileBufferSize
    · obtain ⟨hf', hp'⟩ := refill_spec hempty hsmall
      simp only [written, hsmall, if_true]
      exact ⟨hc, hf', l, ⟨rfl, hp'.symm⟩, hb⟩
    · simp only [written, hsmall, if_false]
      exact ⟨hc, hempty, l, ⟨rfl, rfl⟩, hb⟩

/-- What a `::write` takes comes off what is to be written. -/
theorem Coming.drop {left : List α} {rest : Option (List α)} {l : List α} {f : WritableFile α}
    (h : Coming f (.writing left rest) l) (n : Nat) :
    ∃ l', Coming f (.writing (left.drop n) rest) l' ∧ left.take n ++ l' = l := by
  cases rest with
  | none =>
    obtain ⟨rfl, hpos⟩ := h
    exact ⟨l.drop n, ⟨rfl, hpos⟩, List.take_append_drop n l⟩
  | some rest =>
    obtain rfl : l = left ++ rest := h
    exact ⟨left.drop n ++ rest, rfl, by rw [← List.append_assoc, List.take_append_drop]⟩

theorem next_within (hos : os.NeverFails) (h : Within d lines s p)
    (hs : next os s p = some (s', p')) : Within d lines s' p' := by
  obtain ⟨k, f⟩ := s
  cases p with
  | returned ok => cases hs
  | start str =>
    obtain ⟨hc, hf, l, rfl, hb⟩ := h
    have hsplit := pending_fill_append hf str
    simp only [next, rest_eq hf] at hs
    generalize str.drop (G_FileBufferSize - f.pos) = rest at hs hsplit
    split at hs <;> cases hs
    · rename_i hfit
      rw [List.length_eq_zero_iff.1 hfit, List.append_nil] at hsplit
      exact ⟨hc, hf.fill str, _, ⟨rfl, rfl⟩, by rw [hsplit]; exact hb⟩
    · exact ⟨hc, hf.fill str, _, rfl, by rw [hsplit]; exact hb⟩
  | writing left rest =>
    simp only [next] at hs
    split at hs
    · rename_i hl
      have hw := written_within (hl ▸ h)
      rwa [show written k f rest = (s', p') from Option.some.inj hs] at hw
    obtain ⟨hc, hf, l, hl, hb⟩ := h
    rcases Kernel.sysWrite_cases os left hc with ⟨-, hw⟩ | ⟨ha, -⟩ | ⟨n, -, hw⟩
    · rw [hw] at hs
      cases hs
      exact ⟨hc, hf, l, hl, by simpa [Kernel.took] using hb⟩
    · exact absurd ha (hos _ _)
    · rw [hw] at hs
      cases hs
      obtain ⟨l', hl', hsum⟩ := hl.drop n
      exact ⟨hc, hf, l', hl', by simpa [Kernel.took, hsum] using hb⟩

/-- What the rest of the program writes does not show. -/
theorem otherWrite_keeps {call : Int × List α} (hc : s.1.current s.2.fd = some d)
    (hs : otherWrite os s call = some s') :
    s'.2 = s.2 ∧ s'.1.current s'.2.fd = some d ∧ s'.1.written d = s.1.written d := by
  unfold otherWrite at hs
  split at hs
  · cases hs
  rename_i hne
  cases hs
  refine ⟨rfl, ?_⟩
  cases hcall : s.1.current call.1 with
  | none =>
    rw [Kernel.sysWrite_none hcall]
    exact ⟨hc, by simp [Kernel.took]⟩
  | some d' =>
    have hdd : d' ≠ d := by
      rintro rfl
      exact hne (hcall.trans hc.symm)
    rcases Kernel.sysWrite_cases os call.2 hcall with ⟨-, hw⟩ | ⟨-, hw⟩ | ⟨n, -, hw⟩ <;> rw [hw] <;>
      exact ⟨hc, by simp [Kernel.took, Ne.symm hdd]⟩

theorem serial_lines (hos : os.NeverFails) (d : Nat) :
    Locked.Serial (protectedFileFlusher (α := α) os) (Between d) (Within d) where
  start lines str s h := Within.start h
  next lines s p s' p' h hs := next_within hos h hs
  finish lines s p h hs := by
    obtain ⟨hc, hf, l, hl, hb⟩ := h
    cases p with
    | returned ok => exact ⟨hc, hf, by rw [← hl.2]; exact hb⟩
    | start str =>
      simp only [protectedFileFlusher, next] at hs
      split at hs <;> cases hs
    | writing left rest =>
      simp only [protectedFileFlusher, next] at hs
      split at hs
      · cases hs
      · split at hs <;> cases hs
  envFree lines s call s' h hs := by
    obtain ⟨hf, hc, hw⟩ := otherWrite_keeps h.current hs
    exact ⟨hc, hf ▸ h.fits, by rw [hw, hf]; exact h.bytes⟩
  envHeld lines s p call s' h hs := by
    obtain ⟨hf, hc, hw⟩ := otherWrite_keeps h.current hs
    exact ⟨hc, hf ▸ h.fits, by rw [hw, hf]; exact h.bytes⟩

/-- The threads that flush to a file that has just been opened as `fd`. -/
def openFlusher [Inhabited α] (k : Kernel α) (fd : Int) :
    Locked (FileData α) (List α) (AppendPc α) where
  data := (k.sysOpen fd, opened fd)

/-- What a file has that several threads flush to; `d` is its descriptor. -/
structure WholeLines (os : Posix) (d : Nat) (s : Locked (FileData α) (List α) (AppendPc α)) :
    Prop where
  /-- The kernel has a beginning of the lines, in the order of the lock. -/
  taken : s.data.1.written d <+: s.done.flatten
  /-- While the lock is free the lines are complete, and so are they in the file once it is
  closed. -/
  complete : s.holder = none → s.data.1.written d ++ s.data.2.pending = s.done.flatten ∧
    (s.data.2.closeFile os s.data.1).2.1.written d = s.done.flatten
  /-- The lines of a thread are in the order of its calls, one call waiting at most. -/
  inOrder : s.InOrder
  /-- Whoever has the lock can go on until it is released. -/
  released : ∀ t p, s.holder = some (t, p) → ∃ n s', s'.holder = none ∧ s'.done = s.done ∧
    run (Locked.step (protectedFileFlusher os)) s (List.replicate n .work ++ [.release]) = some s'

theorem work_steps {n t : Nat} {s : Locked (FileData α) (List α) (AppendPc α)} {p : AppendPc α}
    {r : FileData α × AppendPc α} (hh : s.holder = some (t, p))
    (hn : steps os n (s.data, p) = some r) :
    run (Locked.step (protectedFileFlusher os)) s (List.replicate n .work) =
      some { s with data := r.1, holder := some (t, r.2) } := by
  induction n generalizing s p with
  | zero =>
    cases hn
    simp [run, ← hh]
  | succ n ih =>
    obtain ⟨⟨d', p'⟩, hd, hn⟩ := Option.bind_eq_some_iff.1 hn
    rw [List.replicate_succ]
    refine run_cons (t := { s with data := d', holder := some (t, p') }) ?_ (ih rfl hn)
    simp only [Locked.step, hh]
    exact Option.map_eq_some_iff.2 ⟨_, hd, rfl⟩

/-- **Whole lines.** Whatever the threads of a program flush to a `ProtectedFileFlusher`, in
whatever interleaving, and however the kernel interrupts and shortens the writes. -/
theorem protected_lines [Inhabited α] (hos : os.NeverFails) (k : Kernel α) (fd : Int)
    {s : Locked (FileData α) (List α) (AppendPc α)}
    (hr : Reach (Locked.step (protectedFileFlusher os)) (openFlusher k fd) s) :
    WholeLines os k.opened s := by
  have hinit : Between k.opened [] ((k.sysOpen fd, opened fd) : FileData α) :=
    ⟨k.sysOpen_current fd, fits_opened fd, by simp [Kernel.sysOpen, WritableFile.pending, opened]⟩
  have hholds := Locked.inv (serial_lines hos k.opened) hinit hr
  unfold Locked.Holds at hholds
  refine ⟨?_, fun hfree => ?_, Locked.program_order hr, fun t p hh => ?_⟩
  · cases hh : s.holder with
    | none =>
      rw [hh] at hholds
      exact ⟨_, hholds.bytes⟩
    | some h =>
      rw [hh] at hholds
      obtain ⟨l, -, hb⟩ := hholds.bytes
      exact ⟨l, hb⟩
  · rw [hfree] at hholds
    refine ⟨hholds.bytes, ?_⟩
    obtain ⟨c, hclose⟩ := closeFile_spec hos hholds.current
    rw [hclose, ← hholds.bytes]
    simp [Kernel.shut, Kernel.took]
  · obtain ⟨n, s', ok, hn⟩ := steps_return os s.data p
    refine ⟨n, { s with data := s', holder := none }, rfl, rfl, ?_⟩
    rw [run_append, work_steps hh hn]
    rfl

/-- Two threads; the second one calls while the first one has the lock, and the rest of the
program writes elsewhere. -/
theorem protected_lines_two : shortWrites.NeverFails ∧
    ∃ s, run (Locked.step (protectedFileFlusher shortWrites))
      (openFlusher ({} : Kernel UInt8) 3)
      [.call 0 [104, 105], .acquire 0, .work, .call 1 [33, 10], .env (5, [7]), .release,
        .acquire 1, .work] = some s ∧
      s.done = [[104, 105], [33, 10]] ∧ WholeLines shortWrites 0 s :=
  ⟨shortWrites_neverFails, run_and ⟨_, rfl, rfl⟩ fun _ hs _ =>
    protected_lines shortWrites_neverFails _ _ ⟨_, hs⟩⟩

end NetBase.Logging
