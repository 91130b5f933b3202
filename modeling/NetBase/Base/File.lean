import NetBase.Base.StringPiece
import Mathlib.Logic.Function.Basic
import Mathlib.Tactic.Common

/-!
# Buffered files

`WritableFile` of `include/base/file.h` over a kernel that may interrupt, shorten
or refuse a `::write`. `α` is the type of bytes.

Descriptors are numbered in the order `::open` returns them; `table` says which of them a file
descriptor number last stood for, so that a number can be used again once it is closed. The
kernel keeps per descriptor the bytes it took and how often it was passed to `::close`.

`write` calls `::write` until everything is taken. It returns because each call takes something
or is one of finitely many interrupted ones; both are fields of `Posix`. What the class has to
keep is that the bytes taken and the bytes in the buffer make up what was appended: one
specification per function, `append_spec` for the three ways through `append`.
-/

namespace NetBase

open Function (update)

def G_FileBufferSize : Nat := 65535

/-! ## The kernel -/

/-- What `::write` answers. -/
inductive WriteResult
  | eintr
  | failed
  | count (n : Nat)
  deriving DecidableEq, Repr

/-- A behaviour of `::write` on an open descriptor: the answer to the `k`th call, which asks for
`n` bytes. -/
structure Posix where
  answer : Nat → Nat → WriteResult
  /-- Something is written, and no more than asked for. -/
  bounds : ∀ {k n m}, 0 < n → answer k n = .count m → 0 < m ∧ m ≤ n
  interrupts : Nat
  /-- No call is interrupted from some call on. -/
  quiet : ∀ {k n}, interrupts ≤ k → answer k n ≠ .eintr

def Posix.NeverFails (os : Posix) : Prop := ∀ k n, os.answer k n ≠ .failed

structure Kernel (α : Type) where
  /-- The calls of `::write` so far. -/
  calls : Nat := 0
  /-- The descriptors obtained from `::open` so far. -/
  opened : Nat := 0
  table : Int → Option Nat := fun _ => none
  written : Nat → List α := fun _ => []
  closes : Nat → Nat := fun _ => 0

namespace Kernel

variable {α : Type}

/-- The open descriptor behind a number. -/
def current (k : Kernel α) (fd : Int) : Option Nat := (k.table fd).filter fun d => k.closes d = 0

/-- `::open`, with the number the kernel picks. -/
def sysOpen (k : Kernel α) (fd : Int) : Kernel α :=
  { k with opened := k.opened + 1, table := update k.table fd (some k.opened),
           written := update k.written k.opened [], closes := update k.closes k.opened 0 }

/-- `::close`. -/
def sysClose (k : Kernel α) (fd : Int) : Bool × Kernel α :=
  match k.table fd with
  | none => (false, k)
  | some d => (k.closes d = 0, { k with closes := update k.closes d (k.closes d + 1) })

/-- `::write`. -/
def sysWrite (os : Posix) (k : Kernel α) (fd : Int) (buf : List α) :
    WriteResult × Kernel α :=
  match k.current fd with
  | none => (.failed, { k with calls := k.calls + 1 })
  | some d =>
    match os.answer k.calls buf.length with
    | .count n =>
      (.count n, { k with calls := k.calls + 1,
                          written := update k.written d (k.written d ++ buf.take n) })
    | r => (r, { k with calls := k.calls + 1 })

/-- The kernel after it took `bytes` for `d`, in as many calls as it pleased. -/
def took (k : Kernel α) (c d : Nat) (bytes : List α) : Kernel α :=
  { k with calls := c, written := update k.written d (k.written d ++ bytes) }

/-- The kernel after it closed `d`. -/
def shut (k : Kernel α) (d : Nat) : Kernel α := { k with closes := update k.closes d 1 }

@[simp] theorem took_current (k : Kernel α) (c d : Nat) (bytes : List α) :
    (k.took c d bytes).current = k.current := rfl

@[simp] theorem took_took (k : Kernel α) (c c' d : Nat) (b b' : List α) :
    (k.took c d b).took c' d b' = k.took c' d (b ++ b') := by
  simp [took]

@[simp] theorem took_nil (k : Kernel α) (d : Nat) : k.took k.calls d [] = k := by
  simp [took]

theorem sysOpen_current (k : Kernel α) (fd : Int) :
    (k.sysOpen fd).current fd = some k.opened := by
  simp [current, sysOpen]

theorem current_eq_some {k : Kernel α} {fd : Int} {d : Nat} :
    k.current fd = some d ↔ k.table fd = some d ∧ k.closes d = 0 := by
  simp [current, Option.filter_eq_some_iff]

/-- The three answers of `::write`. -/
theorem sysWrite_cases (os : Posix) {k : Kernel α} {fd : Int} {d : Nat} (buf : List α)
    (h : k.current fd = some d) :
    (os.answer k.calls buf.length = .eintr ∧
      k.sysWrite os fd buf = (.eintr, k.took (k.calls + 1) d [])) ∨
    (os.answer k.calls buf.length = .failed ∧
      k.sysWrite os fd buf = (.failed, k.took (k.calls + 1) d [])) ∨
    ∃ n, os.answer k.calls buf.length = .count n ∧
      k.sysWrite os fd buf = (.count n, k.took (k.calls + 1) d (buf.take n)) := by
  unfold sysWrite
  rw [h]
  cases ha : os.answer k.calls buf.length with
  | eintr => exact .inl ⟨rfl, by simp [took]⟩
  | failed => exact .inr (.inl ⟨rfl, by simp [took]⟩)
  | count n => exact .inr (.inr ⟨n, rfl, by simp [took]⟩)

theorem sysWrite_none {os : Posix} {k : Kernel α} {fd : Int} {buf : List α}
    (h : k.current fd = none) :
    k.sysWrite os fd buf = (.failed, k.took (k.calls + 1) 0 []) := by
  simp [sysWrite, took, h]

/-- Only an early call is interrupted. -/
theorem sysWrite_eintr {os : Posix} {k k' : Kernel α} {fd : Int} {buf : List α}
    (h : k.sysWrite os fd buf = (.eintr, k')) :
    k.calls < os.interrupts ∧ k'.calls = k.calls + 1 := by
  cases hc : k.current fd with
  | none => rw [sysWrite_none hc] at h; cases h
  | some d =>
    rcases sysWrite_cases os buf hc with ⟨ha, hw⟩ | ⟨-, hw⟩ | ⟨n, -, hw⟩ <;>
      rw [hw] at h <;> cases h
    refine ⟨?_, rfl⟩
    by_contra hlt
    exact os.quiet (by omega) ha

/-- What is taken is not nothing. -/
theorem sysWrite_count {os : Posix} {k k' : Kernel α} {fd : Int} {buf : List α} {n : Nat}
    (hb : buf ≠ []) (h : k.sysWrite os fd buf = (.count n, k')) :
    0 < n ∧ n ≤ buf.length ∧ k'.calls = k.calls + 1 := by
  cases hc : k.current fd with
  | none => rw [sysWrite_none hc] at h; cases h
  | some d =>
    rcases sysWrite_cases os buf hc with ⟨-, hw⟩ | ⟨-, hw⟩ | ⟨m, ha, hw⟩ <;>
      rw [hw] at h <;> cases h
    obtain ⟨h1, h2⟩ := os.bounds (List.length_pos_iff.2 hb) ha
    exact ⟨h1, h2, rfl⟩

end Kernel

/-! ## The class -/

structure WritableFile (α : Type) where
  buf : List α
  pos : Nat
  fd : Int

namespace WritableFile

variable {α : Type}

def memcpy (dst : List α) (at_ : Nat) (src : List α) : List α :=
  dst.take at_ ++ src ++ dst.drop (at_ + src.length)

/-- The constructor, once `::open` has returned `fd`; with `-1` the default constructor. -/
def opened [Inhabited α] (fd : Int) : WritableFile α :=
  ⟨List.replicate G_FileBufferSize default, 0, fd⟩

/-- `write(buf, size)`: the answer, and the kernel afterwards. -/
def write (os : Posix) (k : Kernel α) (fd : Int) (buf : List α) : Bool × Kernel α :=
  if hb : buf = [] then (true, k)
  else
    match h : k.sysWrite os fd buf with
    | (.eintr, k') =>
      have _ := Kernel.sysWrite_eintr h
      write os k' fd buf
    | (.failed, k') => (false, k')
    | (.count n, k') =>
      have _ := Kernel.sysWrite_count hb h
      write os k' fd (buf.drop n)
termination_by buf.length + (os.interrupts - k.calls)
decreasing_by
  · omega
  · rw [List.length_drop]
    omega

/-- `flushBuffer` -/
def flushBuffer (os : Posix) (k : Kernel α) (f : WritableFile α) :
    Bool × Kernel α × WritableFile α :=
  let (result, k) := write os k f.fd (f.buf.take f.pos)
  (result, k, { f with pos := 0 })

/-- The first part of `append`: as much of `str` as there is room for goes to the buffer. -/
def fill (f : WritableFile α) (str : List α) : WritableFile α :=
  let copySize := min str.length (sizeSub G_FileBufferSize f.pos)
  { f with buf := memcpy f.buf f.pos (str.take copySize), pos := f.pos + copySize }

def append (os : Posix) (k : Kernel α) (f : WritableFile α) (str : List α) :
    Bool × Kernel α × WritableFile α :=
  let copySize := min str.length (sizeSub G_FileBufferSize f.pos)
  let f := f.fill str
  let rest := str.drop copySize
  if rest.length = 0 then (true, k, f)
  else
    let (ok, k, f) := f.flushBuffer os k
    if !ok then (false, k, f)
    else if rest.length < G_FileBufferSize then
      (true, k, { f with buf := memcpy f.buf 0 rest, pos := rest.length })
    else
      let (ok, k) := write os k f.fd rest
      (ok, k, f)

def closeFile (os : Posix) (k : Kernel α) (f : WritableFile α) :
    Bool × Kernel α × WritableFile α :=
  let (result, k, f) := f.flushBuffer os k
  let (closed, k) := k.sysClose f.fd
  (if closed then result else false, k, f)

/-! ## What the functions do -/

/-- The bytes in the buffer. -/
def pending (f : WritableFile α) : List α := f.buf.take f.pos

structure Fits (f : WritableFile α) : Prop where
  length : f.buf.length = G_FileBufferSize
  pos : f.pos ≤ G_FileBufferSize

theorem fits_opened [Inhabited α] (fd : Int) : (opened fd : WritableFile α).Fits :=
  ⟨List.length_replicate, Nat.zero_le _⟩

theorem write_spec {os : Posix} (hos : os.NeverFails) {k : Kernel α} {fd : Int} {d : Nat}
    (hc : k.current fd = some d) (buf : List α) :
    ∃ c, write os k fd buf = (true, k.took c d buf) := by
  fun_induction write os k fd buf with
  | case1 k => exact ⟨k.calls, by simp⟩
  | case2 k buf hb k' h _ ih =>
    rcases Kernel.sysWrite_cases os buf hc with ⟨-, hw⟩ | ⟨-, hw⟩ | ⟨n, -, hw⟩ <;>
      rw [hw] at h <;> cases h
    obtain ⟨c, ih⟩ := ih hc
    exact ⟨c, by rw [ih]; simp⟩
  | case3 k buf hb k' h =>
    rcases Kernel.sysWrite_cases os buf hc with ⟨-, hw⟩ | ⟨ha, -⟩ | ⟨n, -, hw⟩
    · rw [hw] at h; cases h
    · exact absurd ha (hos _ _)
    · rw [hw] at h; cases h
  | case4 k buf hb n k' h _ ih =>
    rcases Kernel.sysWrite_cases os buf hc with ⟨-, hw⟩ | ⟨-, hw⟩ | ⟨n, -, hw⟩ <;>
      rw [hw] at h <;> cases h
    obtain ⟨c, ih⟩ := ih hc
    exact ⟨c, by rw [ih]; simp [List.take_append_drop]⟩

/-- A descriptor number nothing is open under takes nothing. -/
theorem write_none (os : Posix) {k : Kernel α} {fd : Int} (hc : k.current fd = none)
    (buf : List α) : ∃ ok c, write os k fd buf = (ok, k.took c 0 []) := by
  unfold write
  by_cases hb : buf = []
  · exact ⟨true, k.calls, by simp [hb]⟩
  · refine ⟨false, k.calls + 1, ?_⟩
    rw [dif_neg hb]
    split
    all_goals
      rename_i h
      rw [Kernel.sysWrite_none hc] at h
      cases h
    rfl

theorem flushBuffer_spec {os : Posix} (hos : os.NeverFails) {k : Kernel α}
    {f : WritableFile α} {d : Nat} (hc : k.current f.fd = some d) :
    ∃ c, f.flushBuffer os k = (true, k.took c d f.pending, { f with pos := 0 }) := by
  obtain ⟨c, h⟩ := write_spec hos hc f.pending
  refine ⟨c, ?_⟩
  unfold pending at h
  simp only [flushBuffer, h, pending]

theorem sizeSub_pos {f : WritableFile α} (hf : f.Fits) :
    sizeSub G_FileBufferSize f.pos = G_FileBufferSize - f.pos :=
  sizeSub_of_le hf.pos (by decide)

theorem length_memcpy {dst src : List α} {n : Nat} (h : n + src.length ≤ dst.length) :
    (memcpy dst n src).length = dst.length := by
  simp only [memcpy, List.length_append, List.length_take, List.length_drop]
  omega

theorem take_memcpy {dst : List α} {n : Nat} (src : List α) (h : n ≤ dst.length) :
    (memcpy dst n src).take (n + src.length) = dst.take n ++ src := by
  unfold memcpy
  rw [List.take_append_of_le_length, List.take_of_length_le]
  all_goals
    simp only [List.length_append, List.length_take]
    omega

theorem Fits.fill {f : WritableFile α} (hf : f.Fits) (str : List α) : (f.fill str).Fits := by
  obtain ⟨hl, hp⟩ := hf
  unfold WritableFile.fill
  rw [sizeSub_pos ⟨hl, hp⟩]
  refine ⟨(length_memcpy ?_).trans hl, ?_⟩
  · rw [List.length_take, hl]
    omega
  · simp only
    omega

theorem pending_fill {f : WritableFile α} (hf : f.Fits) (str : List α) :
    (f.fill str).pending = f.pending ++ str.take (G_FileBufferSize - f.pos) := by
  have htake : ∀ n, str.take (min str.length n) = str.take n := by
    intro n
    rw [List.take_eq_take_iff]
    omega
  have hlen : min str.length (G_FileBufferSize - f.pos) =
      (str.take (G_FileBufferSize - f.pos)).length := by
    rw [List.length_take]
    omega
  unfold WritableFile.fill pending
  rw [sizeSub_pos hf]
  simp only
  rw [htake, hlen, take_memcpy _ (by rw [hf.length]; exact hf.pos)]

/-- The part of a string that is left once the buffer is full. -/
theorem rest_eq {f : WritableFile α} (hf : f.Fits) (str : List α) :
    str.drop (min str.length (sizeSub G_FileBufferSize f.pos)) =
      str.drop (G_FileBufferSize - f.pos) := by
  rw [sizeSub_pos hf, List.drop_eq_drop_iff]
  omega

theorem pending_fill_append {f : WritableFile α} (hf : f.Fits) (str : List α) :
    (f.fill str).pending ++ str.drop (G_FileBufferSize - f.pos) = f.pending ++ str := by
  rw [pending_fill hf str, List.append_assoc, List.take_append_drop]

/-- What fits goes to the front of the buffer. -/
theorem refill_spec {f : WritableFile α} (hf : f.Fits) {rest : List α}
    (hr : rest.length < G_FileBufferSize) :
    ({ f with buf := memcpy f.buf 0 rest, pos := rest.length } : WritableFile α).Fits ∧
      ({ f with buf := memcpy f.buf 0 rest, pos := rest.length } : WritableFile α).pending =
        rest := by
  refine ⟨⟨(length_memcpy ?_).trans hf.length, Nat.le_of_lt hr⟩, ?_⟩
  · rw [hf.length]
    omega
  · have h := take_memcpy rest (Nat.zero_le f.buf.length)
    rw [Nat.zero_add, List.take_zero, List.nil_append] at h
    exact h

/-- **`append`.** Whichever way a string takes, to the buffer, to the buffer after a flush or
straight to the kernel, the bytes taken and the bytes buffered grow by that string. -/
theorem append_spec {os : Posix} (hos : os.NeverFails) {k : Kernel α} {f : WritableFile α}
    {d : Nat} (hf : f.Fits) (hc : k.current f.fd = some d) (str : List α) :
    ∃ c bytes f', f.append os k str = (true, k.took c d bytes, f') ∧ f'.Fits ∧ f'.fd = f.fd ∧
      bytes ++ f'.pending = f.pending ++ str := by
  have hfill := hf.fill str
  have hsplit := pending_fill_append hf str
  obtain ⟨c, hflush⟩ := flushBuffer_spec hos (f := f.fill str) hc
  unfold append
  simp only [rest_eq hf, hflush]
  generalize str.drop (G_FileBufferSize - f.pos) = rest at hsplit ⊢
  rw [← hsplit]
  by_cases hfit : rest.length = 0
  · -- everything fits
    rw [if_pos hfit, List.length_eq_zero_iff.1 hfit]
    exact ⟨k.calls, [], f.fill str, by simp, hfill, rfl, by simp⟩
  rw [if_neg hfit]
  simp only [Bool.not_true, Bool.false_eq_true, if_false]
  by_cases hsmall : rest.length < G_FileBufferSize
  · -- the rest is smaller than the buffer, which is empty now
    obtain ⟨hf', hp'⟩ := refill_spec (f := { f.fill str with pos := 0 })
      ⟨hfill.length, Nat.zero_le _⟩ hsmall
    rw [if_pos hsmall]
    exact ⟨c, (f.fill str).pending, _, rfl, hf', rfl, by rw [hp']⟩
  · rw [if_neg hsmall]
    obtain ⟨c', hw⟩ := write_spec hos (k := k.took c d (f.fill str).pending) hc rest
    refine ⟨c', (f.fill str).pending ++ rest, { f.fill str with pos := 0 }, ?_,
      ⟨hfill.length, Nat.zero_le _⟩, rfl, by simp [pending]⟩
    rw [Kernel.took_took] at hw
    have hfd : (f.fill str).fd = f.fd := rfl
    rw [hfd, hw]
    rfl

/-- With nothing open under its number a file loses bytes and invents none. -/
theorem append_none (os : Posix) {k : Kernel α} {f : WritableFile α} (hf : f.Fits)
    (hc : k.current f.fd = none) (str : List α) :
    ∃ ok c f', f.append os k str = (ok, k.took c 0 [], f') ∧ f'.Fits ∧ f'.fd = f.fd ∧
      ∀ b ∈ f'.pending, b ∈ f.pending ++ str := by
  have hfill := hf.fill str
  have hsplit := pending_fill_append hf str
  have hempty : ({ f.fill str with pos := 0 } : WritableFile α).Fits :=
    ⟨hfill.length, Nat.zero_le _⟩
  obtain ⟨ok, c, hw⟩ := write_none os hc (f.fill str).pending
  have hflush : (f.fill str).flushBuffer os k =
      (ok, k.took c 0 [], { f.fill str with pos := 0 }) := by
    unfold pending at hw
    simp only [flushBuffer, show (f.fill str).fd = f.fd from rfl, hw]
  unfold append
  simp only [rest_eq hf, hflush]
  generalize str.drop (G_FileBufferSize - f.pos) = rest at hsplit ⊢
  rw [← hsplit]
  by_cases hfit : rest.length = 0
  · rw [if_pos hfit]
    exact ⟨true, k.calls, f.fill str, by simp, hfill, rfl, fun b hb => List.mem_append_left _ hb⟩
  rw [if_neg hfit]
  split
  · exact ⟨false, c, _, rfl, hempty, rfl, by simp [pending]⟩
  split
  · obtain ⟨hf', hp'⟩ := refill_spec hempty ‹_›
    refine ⟨true, c, _, rfl, hf', rfl, fun b hb => ?_⟩
    rw [hp'] at hb
    exact List.mem_append_right _ hb
  · obtain ⟨ok', c', hw'⟩ := write_none os (k := k.took c 0 []) hc rest
    refine ⟨ok', c', { f.fill str with pos := 0 }, ?_, hempty, rfl, by simp [pending]⟩
    have hfd : (f.fill str).fd = f.fd := rfl
    rw [hfd, hw', Kernel.took_took]
    rfl

theorem closeFile_spec {os : Posix} (hos : os.NeverFails) {k : Kernel α} {f : WritableFile α}
    {d : Nat} (hc : k.current f.fd = some d) :
    ∃ c, f.closeFile os k = (true, (k.took c d f.pending).shut d, { f with pos := 0 }) := by
  obtain ⟨c, hflush⟩ := flushBuffer_spec hos hc
  obtain ⟨ht, h0⟩ := Kernel.current_eq_some.1 hc
  have hclose : (k.took c d f.pending).sysClose f.fd =
      (true, (k.took c d f.pending).shut d) := by
    simp only [Kernel.sysClose, Kernel.shut, Kernel.took, ht, h0]
    rfl
  refine ⟨c, ?_⟩
  simp only [closeFile, hflush, hclose]
  rfl

theorem closeFile_none (os : Posix) {k : Kernel α} {f : WritableFile α}
    (hc : k.table f.fd = none) :
    ∃ c, f.closeFile os k = (false, k.took c 0 [], { f with pos := 0 }) := by
  have hcur : k.current f.fd = none := by simp [Kernel.current, hc]
  obtain ⟨ok, c, hw⟩ := write_none os hcur (f.buf.take f.pos)
  refine ⟨c, ?_⟩
  have hclose : (k.took c 0 []).sysClose f.fd = (false, k.took c 0 []) := by
    simp [Kernel.sysClose, Kernel.took, hc]
  simp [closeFile, flushBuffer, hw, hclose]

/-! ## A file from `::open` to `::close` -/

/-- `append` of each string: the answers, the kernel and the file afterwards. -/
def appendAll (os : Posix) (k : Kernel α) (f : WritableFile α) :
    List (List α) → List Bool × Kernel α × WritableFile α
  | [] => ([], k, f)
  | str :: strs =>
    let (ok, k, f) := f.append os k str
    let (oks, k, f) := appendAll os k f strs
    (ok :: oks, k, f)

theorem appendAll_spec {os : Posix} (hos : os.NeverFails) (strs : List (List α))
    {k : Kernel α} {f : WritableFile α} {d : Nat} (hf : f.Fits) (hc : k.current f.fd = some d) :
    ∃ c bytes f', f.appendAll os k strs = (strs.map fun _ => true, k.took c d bytes, f') ∧
      f'.Fits ∧ f'.fd = f.fd ∧ bytes ++ f'.pending = f.pending ++ strs.flatten := by
  induction strs generalizing k f with
  | nil => exact ⟨k.calls, [], f, by simp [appendAll], hf, rfl, by simp⟩
  | cons str strs ih =>
    obtain ⟨c₁, b₁, f₁, h₁, hf₁, hfd₁, hb₁⟩ := append_spec hos hf hc str
    obtain ⟨c₂, b₂, f₂, h₂, hf₂, hfd₂, hb₂⟩ := ih (k := k.took c₁ d b₁) hf₁ (by rw [hfd₁]; exact hc)
    refine ⟨c₂, b₁ ++ b₂, f₂, ?_, hf₂, hfd₂.trans hfd₁, ?_⟩
    · simp [appendAll, h₁, h₂]
    · rw [List.append_assoc, hb₂, ← List.append_assoc, hb₁, List.flatten_cons, List.append_assoc]

/-- The file and the kernel after `::open` returned `fd` and `strs` were appended. -/
def session [Inhabited α] (os : Posix) (k : Kernel α) (fd : Int) (strs : List (List α)) :
    List Bool × Kernel α × WritableFile α :=
  (opened fd).appendAll os (k.sysOpen fd) strs

/-- The session, then `closeFile`. -/
def closed [Inhabited α] (os : Posix) (k : Kernel α) (fd : Int) (strs : List (List α)) :
    Bool × Kernel α × WritableFile α :=
  let (_, k, f) := session os k fd strs
  f.closeFile os k

/-- What a file writes is what was appended to it. -/
structure WritesAppended [Inhabited α] (os : Posix) (k : Kernel α) (fd : Int)
    (strs : List (List α)) : Prop where
  appends : ∀ ok ∈ (session os k fd strs).1, ok = true
  closes : (closed os k fd strs).1 = true
  /-- Before every `append`, and inside it once the buffer is filled. -/
  pos : ∀ pre str post, strs = pre ++ str :: post →
    (session os k fd pre).2.2.pos ≤ G_FileBufferSize ∧
      ((session os k fd pre).2.2.fill str).pos ≤ G_FileBufferSize
  pos_last : (session os k fd strs).2.2.pos ≤ G_FileBufferSize ∧
    (closed os k fd strs).2.2.pos ≤ G_FileBufferSize
  bytes : (closed os k fd strs).2.1.written k.opened = strs.flatten

theorem session_spec [Inhabited α] {os : Posix} (hos : os.NeverFails) (k : Kernel α) (fd : Int)
    (strs : List (List α)) :
    ∃ c bytes f, session os k fd strs =
        (strs.map fun _ => true, (k.sysOpen fd).took c k.opened bytes, f) ∧
      f.Fits ∧ f.fd = fd ∧ bytes ++ f.pending = strs.flatten :=
  appendAll_spec hos strs (fits_opened fd) (k.sysOpen_current fd)

/-- **A file writes what was appended.** Whatever strings are appended to a newly opened file and
however the kernel interrupts and shortens the writes, every call succeeds, the buffer is never
overrun, and at the close the kernel has the strings, in order. -/
theorem writes_appended [Inhabited α] {os : Posix} (hos : os.NeverFails) (k : Kernel α) (fd : Int)
    (strs : List (List α)) : WritesAppended os k fd strs := by
  obtain ⟨c, bytes, f, hs, hf, hfd, hb⟩ := session_spec hos k fd strs
  have hcur : ((k.sysOpen fd).took c k.opened bytes).current f.fd = some k.opened := by
    rw [hfd]
    exact k.sysOpen_current fd
  obtain ⟨c', hclose⟩ := closeFile_spec hos hcur
  have hclosed : closed os k fd strs = closeFile os ((k.sysOpen fd).took c k.opened bytes) f := by
    unfold closed
    rw [hs]
  rw [hclose] at hclosed
  refine ⟨?_, ?_, ?_, ⟨?_, ?_⟩, ?_⟩
  · intro ok hok
    rw [hs] at hok
    obtain ⟨_, -, rfl⟩ := List.mem_map.1 hok
    rfl
  · rw [hclosed]
  · intro pre str post _
    obtain ⟨_, _, f, hs, hf, -⟩ := session_spec hos k fd pre
    rw [hs]
    exact ⟨hf.pos, (hf.fill str).pos⟩
  · rw [hs]
    exact hf.pos
  · rw [hclosed]
    exact Nat.zero_le _
  · rw [hclosed, ← hb]
    simp [Kernel.shut, Kernel.took, Kernel.sysOpen]

/-- The first call is interrupted, the others take two bytes at most. -/
def shortWrites : Posix where
  answer k n := if k = 0 then .eintr else .count (min n 2)
  bounds := by
    intro k n m hn h
    split at h
    · cases h
    · cases h
      omega
  interrupts := 1
  quiet := by
    intro k n hk
    rw [if_neg (by omega)]
    exact WriteResult.noConfusion

theorem shortWrites_neverFails : shortWrites.NeverFails := by
  intro k n
  simp only [shortWrites]
  split <;> exact WriteResult.noConfusion

/-- A short string, an empty one, one that fills the buffer and one that is longer than it. -/
theorem writes_appended_short : shortWrites.NeverFails ∧
    WritesAppended shortWrites ({} : Kernel UInt8) 3
      [[104, 105], [], List.replicate 65533 46, List.replicate 70000 33] :=
  ⟨shortWrites_neverFails, writes_appended shortWrites_neverFails _ _ _⟩

end WritableFile

end NetBase
