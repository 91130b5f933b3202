import NetBase.Base.File
import NetBase.Lib.Runs

/-!
# Who owns a descriptor

Programs over `WritableFile` objects: construction, `append`, `closeFile`, the two move operations
and the destructor of `include/base/file.h`. `β` is the type of bytes; an object is a name.

Each byte carries, as ghost, the descriptor its object owned when it was appended, so that what
reached a descriptor can be told from what should have: an object whose `closeFile` has run keeps
`fd_`, and the kernel may have given that number to another file.

Three things are missing from the class: `closeFile` does not reset `fd_`, and move assignment
neither closes what it overwrites nor looks whether it is applied to itself. `descriptors_owned`
says that nothing else is.
-/

namespace NetBase

open Lib
open Function (update)

/-- A byte, and the descriptor it was appended for. -/
abbrev Tagged (β : Type) := Option Nat × β

/-- What was appended for `d`. -/
def ownBytes {β : Type} (d : Nat) (bytes : List (Tagged β)) : List β :=
  (bytes.filter fun b => b.1 = some d).map Prod.snd

/-- An object, with the descriptor it owns as ghost. -/
structure Handle (β : Type) where
  file : WritableFile (Tagged β)
  own : Option Nat := none

/-- What a move leaves behind. -/
def Handle.moved {β : Type} (x : Handle β) : Handle β := ⟨{ x.file with fd := -1 }, none⟩

structure FileSys (β : Type) where
  kernel : Kernel (Tagged β) := {}
  objects : Nat → Option (Handle β) := fun _ => none
  /-- Ghost: what was appended to the owner of each descriptor. -/
  appended : Nat → List β := fun _ => []

inductive FileInput (β : Type)
  /-- The default constructor. -/
  | construct (o : Nat)
  /-- The constructor that opens a file, and what `::open` returns. -/
  | openFile (o : Nat) (fd : Int)
  | append (o : Nat) (str : List β)
  | closeFile (o : Nat)
  /-- `WritableFile o(std::move(p))` -/
  | moveConstruct (o p : Nat)
  /-- `o = std::move(p)` -/
  | moveAssign (o p : Nat)
  | destroy (o : Nat)

namespace FileSys

variable {β : Type}

/-- What both move operations do to `o`, then to `p`. -/
def move (s : FileSys β) (o p : Nat) (buf : List (Tagged β)) (y : Handle β) : FileSys β :=
  let x : Handle β :=
    ⟨⟨WritableFile.memcpy buf 0 (y.file.buf.take G_FileBufferSize), y.file.pos, y.file.fd⟩, y.own⟩
  let objects := update s.objects o (some x)
  { s with objects := update objects p ((objects p).map Handle.moved) }

def step [Inhabited β] (os : Posix) (s : FileSys β) : FileInput β → Option (FileSys β)
  | .construct o =>
    match s.objects o with
    | none => some { s with objects := update s.objects o (some ⟨WritableFile.opened (-1), none⟩) }
    | some _ => none
  | .openFile o fd =>
    match s.objects o, s.kernel.current fd with
    | none, none =>
      -- the constructor throws
      if fd < 0 then some s
      else
        some { kernel := s.kernel.sysOpen fd
               objects := update s.objects o (some ⟨WritableFile.opened fd, some s.kernel.opened⟩)
               appended := update s.appended s.kernel.opened [] }
    | _, _ => none
  | .append o str =>
    match s.objects o with
    | none => none
    | some x =>
      let (_, kernel, file) := x.file.append os s.kernel (str.map fun b => (x.own, b))
      some { kernel := kernel
             objects := update s.objects o (some { x with file := file })
             appended :=
               match x.own with
               | none => s.appended
               | some d => update s.appended d (s.appended d ++ str) }
  | .closeFile o =>
    match s.objects o with
    | none => none
    | some x =>
      let (_, kernel, file) := x.file.closeFile os s.kernel
      some { s with kernel := kernel, objects := update s.objects o (some ⟨file, none⟩) }
  | .moveConstruct o p =>
    match s.objects o, s.objects p with
    | none, some y => some (s.move o p (WritableFile.opened (-1)).buf y)
    | _, _ => none
  | .moveAssign o p =>
    match s.objects o, s.objects p with
    | some x, some y => some (s.move o p x.file.buf y)
    | _, _ => none
  | .destroy o =>
    match s.objects o with
    | none => none
    | some x =>
      if 0 ≤ x.file.fd then
        let (_, kernel, _) := x.file.closeFile os s.kernel
        some { s with kernel := kernel, objects := update s.objects o none }
      else some { s with objects := update s.objects o none }

/-- No descriptor is closed twice, a closed one has got what was appended for it, once and in
order, and when no object is left every descriptor is closed. -/
structure Sound (s : FileSys β) : Prop where
  once : ∀ d < s.kernel.opened, s.kernel.closes d ≤ 1
  received : ∀ d < s.kernel.opened, s.kernel.closes d = 1 →
    ownBytes d (s.kernel.written d) = s.appended d
  destroyed : (∀ o, s.objects o = none) → ∀ d < s.kernel.opened, s.kernel.closes d = 1

def owner (s : FileSys β) (o : Nat) : Option Nat := (s.objects o).bind Handle.own

/-- The object has not closed the descriptor it still names. -/
def Current (s : FileSys β) (o : Nat) : Prop :=
  ∀ x ∈ s.objects o, x.own = none → x.file.fd < 0

/-- `closeFile` and the destructor meet no descriptor the object has closed before, and nothing
is assigned to an object that owns a descriptor. -/
def Careful (s : FileSys β) : FileInput β → Prop
  | .closeFile o => s.Current o
  | .destroy o => s.Current o
  | .moveAssign o _ => s.owner o = none
  | _ => True

instance (s : FileSys β) (o : Nat) : Decidable (s.Current o) :=
  inferInstanceAs (Decidable (∀ x ∈ s.objects o, x.own = none → x.file.fd < 0))

instance (s : FileSys β) : ∀ i, Decidable (s.Careful i)
  | .closeFile o => inferInstanceAs (Decidable (s.Current o))
  | .destroy o => inferInstanceAs (Decidable (s.Current o))
  | .moveAssign o _ => inferInstanceAs (Decidable (s.owner o = none))
  | .construct _ | .openFile .. | .append .. | .moveConstruct .. => .isTrue trivial

/-! ## Bytes and their owners -/

theorem ownBytes_append (d : Nat) (l l' : List (Tagged β)) :
    ownBytes d (l ++ l') = ownBytes d l ++ ownBytes d l' := by
  simp [ownBytes]

theorem ownBytes_eq_nil {d : Nat} {l : List (Tagged β)} (h : ∀ b ∈ l, b.1 ≠ some d) :
    ownBytes d l = [] := by
  simp only [ownBytes, List.map_eq_nil_iff, List.filter_eq_nil_iff, decide_eq_true_eq]
  exact h

theorem ownBytes_tagged (d : Nat) (str : List β) :
    ownBytes d (str.map fun b => (some d, b)) = str := by
  induction str with
  | nil => rfl
  | cons b str ih => simpa [ownBytes] using ih

/-- What one object and the kernel know about each other. -/
structure Held (k : Kernel (Tagged β)) (appended : Nat → List β) (x : Handle β) : Prop where
  fits : x.file.Fits
  /-- The descriptor it owns is open under its number, and it and the buffer have everything. -/
  owned : ∀ d, x.own = some d → 0 ≤ x.file.fd ∧ k.current x.file.fd = some d ∧ d < k.opened ∧
    ownBytes d (k.written d ++ x.file.pending) = appended d
  /-- What it might write to a descriptor it does not own was appended for none. -/
  stale : x.own = none → 0 ≤ x.file.fd → ∀ b ∈ x.file.pending, b.1 = none

variable {k : Kernel (Tagged β)} {appended : Nat → List β} {x : Handle β}

/-- Without a descriptor nothing depends on the kernel. -/
theorem Held.of_stale {k' : Kernel (Tagged β)} {appended' : Nat → List β} (h : Held k appended x)
    (hx : x.own = none) : Held k' appended' x := by
  refine ⟨h.fits, ?_, h.stale⟩
  intro d hd
  rw [hx] at hd
  cases hd

/-- Other people's bytes do not disturb. -/
theorem Held.took (h : Held k appended x) (c d : Nat) (bytes : List (Tagged β))
    (hb : x.own = some d → ∀ b ∈ bytes, b.1 ≠ some d) : Held (k.took c d bytes) appended x := by
  refine ⟨h.fits, ?_, h.stale⟩
  intro e he
  obtain ⟨h1, h2, h3, h4⟩ := h.owned e he
  refine ⟨h1, h2, h3, ?_⟩
  by_cases hed : e = d
  · subst hed
    rw [ownBytes_append] at h4
    simp only [Kernel.took, Function.update_self, ownBytes_append, ownBytes_eq_nil (hb he),
      List.append_nil]
    exact h4
  · simpa [Kernel.took, hed] using h4

theorem Held.shut (h : Held k appended x) {d : Nat} (hd : x.own ≠ some d) :
    Held (k.shut d) appended x := by
  refine ⟨h.fits, ?_, h.stale⟩
  intro e he
  obtain ⟨h1, h2, h3, h4⟩ := h.owned e he
  have hed : e ≠ d := fun hed => hd (hed ▸ he)
  refine ⟨h1, ?_, h3, h4⟩
  rw [Kernel.current_eq_some] at h2 ⊢
  simpa [Kernel.shut, hed] using h2

/-- A number that is given out again is nobody's. -/
theorem Held.sysOpen (h : Held k appended x) {fd : Int} (hfd : k.current fd = none) :
    Held (k.sysOpen fd) (update appended k.opened []) x := by
  refine ⟨h.fits, ?_, h.stale⟩
  intro e he
  obtain ⟨h1, h2, h3, h4⟩ := h.owned e he
  have hne : x.file.fd ≠ fd := by
    intro hx
    rw [hx, hfd] at h2
    cases h2
  have heo : e ≠ k.opened := by omega
  refine ⟨h1, ?_, by simp only [Kernel.sysOpen]; omega, ?_⟩
  · rw [Kernel.current_eq_some] at h2 ⊢
    simpa [Kernel.sysOpen, hne, heo] using h2
  · simpa [Kernel.sysOpen, heo] using h4

/-! ## The invariant -/

structure Inv (s : FileSys β) : Prop where
  held : ∀ o x, s.objects o = some x → Held s.kernel s.appended x
  unique : ∀ o p d, s.owner o = some d → s.owner p = some d → o = p
  /-- A descriptor has an owner or has been closed, once and with everything. -/
  kept : ∀ d < s.kernel.opened, (s.kernel.closes d = 0 ∧ ∃ o, s.owner o = some d) ∨
    (s.kernel.closes d = 1 ∧ ownBytes d (s.kernel.written d) = s.appended d)
  minus : ∀ fd < 0, s.kernel.table fd = none

theorem Inv.sound {s : FileSys β} (h : s.Inv) : s.Sound := by
  refine ⟨?_, ?_, ?_⟩
  · intro d hd
    rcases h.kept d hd with ⟨h0, -⟩ | ⟨h1, -⟩ <;> omega
  · intro d hd hc
    rcases h.kept d hd with ⟨h0, -⟩ | ⟨-, h1⟩
    · omega
    · exact h1
  · intro hnone d hd
    rcases h.kept d hd with ⟨-, o, ho⟩ | ⟨h1, -⟩
    · simp [owner, hnone] at ho
    · exact h1

theorem owner_eq {s : FileSys β} {o : Nat} {x : Handle β} (h : s.objects o = some x) :
    s.owner o = x.own := by
  simp [owner, h]

/-- The owners after one object changed. -/
theorem owner_update (s : FileSys β) (k : Kernel (Tagged β)) (appended : Nat → List β) (o : Nat)
    (x : Option (Handle β)) :
    owner ⟨k, update s.objects o x, appended⟩ = update s.owner o (x.bind Handle.own) := by
  funext p
  by_cases hp : p = o
  · subst hp
    simp [owner]
  · simp [owner, hp]

/-- One owner changes, to a descriptor nobody owns. -/
theorem unique_update {owner : Nat → Option Nat} {o : Nat} {v : Option Nat}
    (hu : ∀ p q d, owner p = some d → owner q = some d → p = q)
    (hv : ∀ d, v = some d → ∀ p, owner p ≠ some d) (p q d : Nat)
    (hp : update owner o v p = some d) (hq : update owner o v q = some d) : p = q := by
  by_cases hpo : p = o <;> by_cases hqo : q = o
  · rw [hpo, hqo]
  · subst hpo
    rw [Function.update_self] at hp
    rw [Function.update_of_ne hqo] at hq
    exact absurd hq (hv d hp q)
  · subst hqo
    rw [Function.update_self] at hq
    rw [Function.update_of_ne hpo] at hp
    exact absurd hp (hv d hq p)
  · rw [Function.update_of_ne hpo] at hp
    rw [Function.update_of_ne hqo] at hq
    exact hu p q d hp hq

theorem update_cases {s : FileSys β} {o p : Nat} {x : Option (Handle β)} {y : Handle β}
    (h : update s.objects o x p = some y) :
    (p = o ∧ x = some y) ∨ (p ≠ o ∧ s.objects p = some y) := by
  by_cases hp : p = o
  · subst hp
    exact .inl ⟨rfl, by simpa using h⟩
  · exact .inr ⟨hp, by simpa [hp] using h⟩

/-- An object that owns nothing changes into one that owns nothing, and writes what was appended
for no descriptor. -/
theorem Inv.idle {s : FileSys β} (h : s.Inv) {o : Nat} (ho : s.owner o = none)
    {x : Option (Handle β)} (hx : ∀ y, x = some y → y.own = none ∧ Held s.kernel s.appended y)
    (c d : Nat) {bytes : List (Tagged β)} (hb : ∀ b ∈ bytes, b.1 = none) :
    Inv ⟨s.kernel.took c d bytes, update s.objects o x, s.appended⟩ := by
  have hb' : ∀ e, ∀ b ∈ bytes, b.1 ≠ some e := by
    intro e b hm he
    rw [hb b hm] at he
    cases he
  have howner : owner ⟨s.kernel.took c d bytes, update s.objects o x, s.appended⟩ = s.owner := by
    rw [owner_update, ← Function.update_eq_self o s.owner, ho]
    cases x with
    | none => simp
    | some y => simp [(hx y rfl).1]
  refine ⟨?_, ?_, ?_, h.minus⟩
  · intro p y hp
    rcases update_cases hp with ⟨-, hp⟩ | ⟨-, hp⟩
    · exact (hx y hp).2.took c d _ fun _ => hb' d
    · exact (h.held p y hp).took c d _ fun _ => hb' d
  · rw [howner]
    exact h.unique
  · intro e he
    rw [howner]
    rcases h.kept e he with h0 | ⟨h1, h2⟩
    · exact .inl h0
    · refine .inr ⟨h1, ?_⟩
      by_cases hed : e = d
      · subst hed
        simpa [Kernel.took, ownBytes_append, ownBytes_eq_nil (hb' e)] using h2
      · simpa [Kernel.took, hed] using h2

theorem Inv.put_idle {s : FileSys β} (h : s.Inv) {o : Nat} (ho : s.owner o = none)
    {x : Option (Handle β)} (hx : ∀ y, x = some y → y.own = none ∧ Held s.kernel s.appended y) :
    Inv { s with objects := update s.objects o x } := by
  have := h.idle ho hx s.kernel.calls 0 fun _ hb => absurd hb List.not_mem_nil
  rwa [Kernel.took_nil] at this

/-- An owner hands its descriptor back: the buffer first, then `::close`. -/
theorem Inv.close {s : FileSys β} (h : s.Inv) {o d : Nat} {x : Handle β}
    (hx : s.objects o = some x) (hd : x.own = some d) {y : Option (Handle β)}
    (hy : ∀ z, y = some z → z.own = none ∧ Held s.kernel s.appended z) (c : Nat) :
    Inv ⟨(s.kernel.took c d x.file.pending).shut d, update s.objects o y, s.appended⟩ := by
  have ho : s.owner o = some d := (owner_eq hx).trans hd
  have howner : owner ⟨(s.kernel.took c d x.file.pending).shut d, update s.objects o y,
      s.appended⟩ = update s.owner o none := by
    rw [owner_update]
    cases y with
    | none => rfl
    | some z => simp [(hy z rfl).1]
  refine ⟨?_, ?_, ?_, h.minus⟩
  · intro p z hp
    rcases update_cases hp with ⟨-, hp⟩ | ⟨hpo, hp⟩
    · exact (hy z hp).2.of_stale (hy z hp).1
    · have hne : z.own ≠ some d := fun hz => hpo (h.unique p o d ((owner_eq hp).trans hz) ho)
      exact ((h.held p z hp).took c d _ fun hz => absurd hz hne).shut hne
  · rw [howner]
    exact unique_update h.unique fun _ he => by cases he
  · intro e he
    rw [howner]
    by_cases hed : e = d
    · subst hed
      refine .inr ⟨by simp [Kernel.shut], ?_⟩
      have := ((h.held o x hx).owned e hd).2.2.2
      simpa [Kernel.shut, Kernel.took] using this
    · rcases h.kept e he with ⟨h0, p, hp⟩ | ⟨h1, h2⟩
      · have hpo : p ≠ o := by
          rintro rfl
          rw [ho] at hp
          cases hp
          exact hed rfl
        exact .inl ⟨by simpa [Kernel.shut, Kernel.took, hed] using h0,
          p, by rw [Function.update_of_ne hpo]; exact hp⟩
      · exact .inr ⟨by simpa [Kernel.shut, Kernel.took, hed] using h1,
          by simpa [Kernel.shut, Kernel.took, hed] using h2⟩

theorem Inv.openFile [Inhabited β] {s : FileSys β} (h : s.Inv) {o : Nat} {fd : Int}
    (ho : s.objects o = none) (hcur : s.kernel.current fd = none) (hfd : 0 ≤ fd) :
    Inv ⟨s.kernel.sysOpen fd,
      update s.objects o (some ⟨WritableFile.opened fd, some s.kernel.opened⟩),
      update s.appended s.kernel.opened []⟩ := by
  have hlt : ∀ {p d}, s.owner p = some d → d < s.kernel.opened := by
    intro p d hp
    obtain ⟨x, hx, hd⟩ := Option.bind_eq_some_iff.1 hp
    exact ((h.held p x hx).owned d hd).2.2.1
  have hnone : s.owner o = none := by simp [owner, ho]
  refine ⟨?_, ?_, ?_, ?_⟩
  · intro p y hp
    rcases update_cases hp with ⟨-, hp⟩ | ⟨-, hp⟩
    · cases hp
      refine ⟨WritableFile.fits_opened fd, ?_, fun hn => by cases hn⟩
      rintro d hd
      cases hd
      refine ⟨hfd, s.kernel.sysOpen_current fd, Nat.lt_succ_self _, ?_⟩
      simp [Kernel.sysOpen, WritableFile.opened, WritableFile.pending, ownBytes]
    · exact (h.held p y hp).sysOpen hcur
  · rw [owner_update]
    apply unique_update h.unique
    intro d hd p hp
    cases hd
    exact Nat.lt_irrefl _ (hlt hp)
  · intro e he
    rw [owner_update]
    by_cases heo : e = s.kernel.opened
    · subst heo
      exact .inl ⟨by simp [Kernel.sysOpen], o, by simp⟩
    · have he' : e < s.kernel.opened := by
        simp only [Kernel.sysOpen] at he
        omega
      rcases h.kept e he' with ⟨h0, p, hp⟩ | ⟨h1, h2⟩
      · have hpo : p ≠ o := by
          rintro rfl
          rw [hnone] at hp
          cases hp
        exact .inl ⟨by simpa [Kernel.sysOpen, heo] using h0, p, by
          rw [Function.update_of_ne hpo]; exact hp⟩
      · exact .inr ⟨by simpa [Kernel.sysOpen, heo] using h1,
          by simpa [Kernel.sysOpen, heo] using h2⟩
  · intro n hn
    have : n ≠ fd := by omega
    simpa [Kernel.sysOpen, this] using h.minus n hn

/-- An owner appends: the kernel and the buffer grow by the string, wherever it went. -/
theorem Inv.append {s : FileSys β} (h : s.Inv) {o d : Nat} {x : Handle β}
    (hx : s.objects o = some x) (hd : x.own = some d) {c : Nat} {bytes : List (Tagged β)}
    {f : WritableFile (Tagged β)} {str : List β} (hf : f.Fits) (hfd : f.fd = x.file.fd)
    (hb : bytes ++ f.pending = x.file.pending ++ str.map fun b => (some d, b)) :
    Inv ⟨s.kernel.took c d bytes, update s.objects o (some { x with file := f }),
      update s.appended d (s.appended d ++ str)⟩ := by
  have ho : s.owner o = some d := (owner_eq hx).trans hd
  obtain ⟨h1, h2, h3, h4⟩ := (h.held o x hx).owned d hd
  have howner : owner ⟨s.kernel.took c d bytes, update s.objects o (some { x with file := f }),
      update s.appended d (s.appended d ++ str)⟩ = s.owner := by
    rw [owner_update]
    simp only [Option.bind_some, hd, ← ho, Function.update_eq_self]
  refine ⟨?_, ?_, ?_, h.minus⟩
  · intro p y hp
    rcases update_cases hp with ⟨-, hp⟩ | ⟨hpo, hp⟩
    · cases hp
      refine ⟨hf, ?_, fun hn => by rw [hd] at hn; cases hn⟩
      intro e he
      cases hd.symm.trans he
      refine ⟨hfd ▸ h1, by rw [Kernel.took_current]; exact hfd ▸ h2, h3, ?_⟩
      simp only [Kernel.took, Function.update_self]
      rw [List.append_assoc, hb, ← List.append_assoc, ownBytes_append, h4, ownBytes_tagged]
    · have hne : y.own ≠ some d := fun hy => hpo (h.unique p o d ((owner_eq hp).trans hy) ho)
      have hy := (h.held p y hp).took c d bytes fun hz => absurd hz hne
      refine ⟨hy.fits, ?_, hy.stale⟩
      intro e he
      have hed : e ≠ d := fun hed => hne (hed ▸ he)
      simpa [hed] using hy.owned e he
  · rw [howner]
    exact h.unique
  · intro e he
    rw [howner]
    by_cases hed : e = d
    · subst hed
      exact .inl ⟨(Kernel.current_eq_some.1 h2).2, o, ho⟩
    · simpa [Kernel.took, hed] using h.kept e he

/-- An object without a descriptor takes over a file; the other keeps the buffer only. -/
theorem move_eq {s : FileSys β} {o p : Nat} {buf : List (Tagged β)} {y : Handle β}
    (hp : s.objects p = some y) (hy : y.file.Fits) (hbuf : buf.length = G_FileBufferSize) :
    s.move o p buf y =
      ⟨s.kernel, update (update s.objects o (some y)) p (some y.moved), s.appended⟩ := by
  have hcpy : WritableFile.memcpy buf 0 (y.file.buf.take G_FileBufferSize) = y.file.buf := by
    rw [List.take_of_length_le (Nat.le_of_eq hy.length)]
    simp [WritableFile.memcpy, hy.length, ← hbuf]
  unfold move
  rw [hcpy]
  by_cases hop : p = o
  · subst hop
    simp
  · simp [hop, hp]

theorem held_opened [Inhabited β] : Held k appended ⟨WritableFile.opened (-1), none⟩ := by
  refine ⟨WritableFile.fits_opened _, fun _ hd => (by cases hd), fun _ _ b hb => ?_⟩
  simp [WritableFile.pending, WritableFile.opened] at hb

theorem held_moved {y : Handle β} (hy : y.file.Fits) : Held k appended y.moved := by
  refine ⟨⟨hy.length, hy.pos⟩, fun _ hd => (by cases hd), fun _ h0 => ?_⟩
  have : (0 : Int) ≤ -1 := h0
  omega

theorem Inv.move {s : FileSys β} (h : s.Inv) {o p : Nat} {buf : List (Tagged β)} {y : Handle β}
    (hp : s.objects p = some y) (ho : s.owner o = none) (hbuf : buf.length = G_FileBufferSize) :
    (s.move o p buf y).Inv := by
  have hy := (h.held p y hp).fits
  rw [move_eq hp hy hbuf]
  by_cases hop : p = o
  · -- onto itself: nothing was owned
    subst hop
    rw [Function.update_idem]
    exact h.put_idle ho fun z hz => by cases hz; exact ⟨rfl, held_moved hy⟩
  have howner : ∀ q,
      owner ⟨s.kernel, update (update s.objects o (some y)) p (some y.moved), s.appended⟩ q =
        if q = p then none else if q = o then s.owner p else s.owner q := by
    intro q
    by_cases hqp : q = p
    · simp [owner, hqp, Handle.moved]
    · by_cases hqo : q = o
      · subst hqo
        simp [owner, hqp, hp]
      · simp [owner, hqp, hqo]
  refine ⟨?_, ?_, ?_, h.minus⟩
  · intro q z hq
    by_cases hqp : q = p
    · subst hqp
      simp only [Function.update_self, Option.some.injEq] at hq
      subst hq
      exact held_moved hy
    · simp only [ne_eq, hqp, not_false_eq_true, Function.update_of_ne] at hq
      rcases update_cases hq with ⟨-, hq⟩ | ⟨-, hq⟩
      · cases hq
        exact h.held p y hp
      · exact h.held q z hq
  · intro q r e hq hr
    rw [howner] at hq hr
    split at hq
    · cases hq
    split at hr
    · cases hr
    rename_i hqp hrp
    split at hq <;> split at hr
    · rw [‹q = o›, ‹r = o›]
    · exact absurd (h.unique r p e hr hq) hrp
    · exact absurd (h.unique q p e hq hr) hqp
    · exact h.unique q r e hq hr
  · intro e he
    rcases h.kept e he with ⟨h0, q, hq⟩ | h1
    · by_cases hqp : q = p
      · subst hqp
        exact .inl ⟨h0, o, by rw [howner, if_neg (Ne.symm hop), if_pos rfl]; exact hq⟩
      · have hqo : q ≠ o := by
          rintro rfl
          rw [ho] at hq
          cases hq
        exact .inl ⟨h0, q, by rw [howner, if_neg hqp, if_neg hqo]; exact hq⟩
    · exact .inr h1

/-- An object that owns nothing appends for no descriptor, and may write that to another
file. -/
theorem Inv.append_stale {os : Posix} (hos : os.NeverFails) {s : FileSys β} (h : s.Inv) {o : Nat}
    {x : Handle β} (hx : s.objects o = some x) (hn : x.own = none) (str : List β) :
    Inv ⟨(x.file.append os s.kernel (str.map fun b => (none, b))).2.1,
      update s.objects o
        (some { x with file := (x.file.append os s.kernel (str.map fun b => (none, b))).2.2 }),
      s.appended⟩ := by
  have hheld := h.held o x hx
  have ho : s.owner o = none := (owner_eq hx).trans hn
  have htags : 0 ≤ x.file.fd → ∀ b ∈ x.file.pending ++ str.map fun b => (none, b), b.1 = none := by
    intro h0 b hb
    rcases List.mem_append.1 hb with hb | hb
    · exact hheld.stale hn h0 b hb
    · obtain ⟨_, -, rfl⟩ := List.mem_map.1 hb
      rfl
  cases hcur : s.kernel.current x.file.fd with
  | none =>
    obtain ⟨ok, c, f, ha, hf, hfd, hm⟩ :=
      WritableFile.append_none os hheld.fits hcur (str.map fun b => (none, b))
    rw [ha]
    refine h.idle ho ?_ c 0 fun _ hb => absurd hb List.not_mem_nil
    rintro y ⟨⟩
    refine ⟨hn, hf, fun d hd => ?_, fun _ h0 b hb => htags (hfd ▸ h0) b (hm b hb)⟩
    rw [hn] at hd
    cases hd
  | some d =>
    have h0 : 0 ≤ x.file.fd := by
      by_contra hneg
      have := (Kernel.current_eq_some.1 hcur).1
      rw [h.minus _ (by omega)] at this
      cases this
    obtain ⟨c, bytes, f, ha, hf, hfd, hb⟩ :=
      WritableFile.append_spec hos hheld.fits hcur (str.map fun b => (none, b))
    have htags := htags h0
    rw [← hb] at htags
    rw [ha]
    refine h.idle ho ?_ c d fun b hb => htags b (List.mem_append_left _ hb)
    rintro y ⟨⟩
    refine ⟨hn, hf, fun e he => ?_, fun _ _ b hb => htags b (List.mem_append_right _ hb)⟩
    rw [hn] at he
    cases he

/-- `closeFile`, by itself or from the destructor. -/
theorem Inv.closeFile {os : Posix} (hos : os.NeverFails) {s : FileSys β} (h : s.Inv) {o : Nat}
    {x : Handle β} (hx : s.objects o = some x) (hc : s.Current o) {y : Option (Handle β)}
    (hy : ∀ z, y = some z → z = ⟨(x.file.closeFile os s.kernel).2.2, none⟩) :
    Inv ⟨(x.file.closeFile os s.kernel).2.1, update s.objects o y, s.appended⟩ := by
  have hheld := h.held o x hx
  -- the buffer is empty afterwards
  have hempty : ∀ z, z = (⟨{ x.file with pos := 0 }, none⟩ : Handle β) →
      z.own = none ∧ Held s.kernel s.appended z := by
    rintro z rfl
    refine ⟨rfl, ⟨hheld.fits.length, Nat.zero_le _⟩, fun _ hd => (by cases hd), ?_⟩
    intro _ _ b hb
    simp [WritableFile.pending] at hb
  cases hd : x.own with
  | some d =>
    obtain ⟨c, hclose⟩ := WritableFile.closeFile_spec hos (hheld.owned d hd).2.1
    rw [hclose] at hy ⊢
    exact h.close hx hd (fun z hz => hempty z (hy z hz)) c
  | none =>
    obtain ⟨c, hclose⟩ := WritableFile.closeFile_none os (h.minus _ (hc x hx hd))
    rw [hclose] at hy ⊢
    exact h.idle ((owner_eq hx).trans hd) (fun z hz => hempty z (hy z hz)) c 0
      fun _ hb => absurd hb List.not_mem_nil

theorem inv_step [Inhabited β] {os : Posix} (hos : os.NeverFails) {s t : FileSys β}
    {i : FileInput β} (h : s.Inv) (hc : s.Careful i) (hs : step os s i = some t) : t.Inv := by
  cases i with
  | construct o =>
    simp only [step] at hs
    split at hs
    · cases hs
      exact h.put_idle (by simp [owner, *]) fun z hz => by cases hz; exact ⟨rfl, held_opened⟩
    · cases hs
  | openFile o fd =>
    simp only [step] at hs
    split at hs
    · split at hs
      · cases hs
        exact h
      · cases hs
        exact h.openFile ‹_› ‹_› (by omega)
    · cases hs
  | append o str =>
    simp only [step] at hs
    split at hs
    · cases hs
    · rename_i x hx
      cases hs
      cases hd : x.own with
      | some d =>
        have hheld := h.held o x hx
        obtain ⟨c, bytes, f, ha, hf, hfd, hb⟩ := WritableFile.append_spec hos hheld.fits
          (hheld.owned d hd).2.1 (str.map fun b => (some d, b))
        simp only [ha]
        have := h.append hx hd (c := c) hf hfd hb
        rwa [hd] at this
      | none =>
        have := h.append_stale hos hx hd str
        rwa [hd] at this
  | closeFile o =>
    simp only [step] at hs
    split at hs
    · cases hs
    · rename_i x hx
      cases hs
      exact h.closeFile hos hx hc fun z hz => by cases hz; rfl
  | moveConstruct o p =>
    simp only [step] at hs
    split at hs
    · cases hs
      exact h.move ‹_› (by simp [owner, *]) (WritableFile.fits_opened _).length
    · cases hs
  | moveAssign o p =>
    simp only [step] at hs
    split at hs
    · cases hs
      exact h.move ‹_› hc (h.held o _ ‹_›).fits.length
    · cases hs
  | destroy o =>
    simp only [step] at hs
    split at hs
    · cases hs
    · rename_i x hx
      split at hs
      · cases hs
        exact h.closeFile hos hx hc fun z hz => by cases hz
      · rename_i hneg
        cases hs
        have hn : x.own = none := by
          cases hd : x.own with
          | none => rfl
          | some d => exact absurd ((h.held o x hx).owned d hd).1 hneg
        exact h.put_idle ((owner_eq hx).trans hn) fun z hz => by cases hz

theorem inv_init : ({} : FileSys β).Inv :=
  ⟨fun _ _ hx => (by cases hx), fun _ _ _ hx => (by cases hx),
    fun d hd => absurd hd (Nat.not_lt_zero d), fun _ _ => rfl⟩

/-- **Descriptors have owners.** In every program that meets `Careful` at each step every
descriptor `::open` returned is closed once, and before that gets every byte appended for it. -/
theorem descriptors_owned [Inhabited β] {os : Posix} (hos : os.NeverFails)
    {is : List (FileInput β)} (hm : Meets (step os) Careful {} is) :
    Along (step os) Sound ({} : FileSys β) is :=
  (hm.along (fun _ _ _ h hc hs => inv_step hos h hc hs) inv_init).imp fun _ h => h.sound

/-- A file is moved on with bytes in its buffer and closed; its object then takes over another
file, which the kernel has given the same number. -/
theorem descriptors_owned_moves : ∃ s, run (step WritableFile.shortWrites) ({} : FileSys UInt8)
    [.openFile 0 3, .append 0 [104, 105], .construct 1, .moveAssign 1 0, .append 1 [33],
      .closeFile 1, .openFile 2 3, .append 2 [63], .moveAssign 1 2, .destroy 0, .destroy 1,
      .destroy 2] = some s ∧
    (s.kernel.opened = 2 ∧ ownBytes 0 (s.kernel.written 0) = [104, 105, 33] ∧
      ownBytes 1 (s.kernel.written 1) = [63] ∧ s.kernel.closes 0 = 1 ∧ s.kernel.closes 1 = 1) ∧
    s.Sound := by
  refine run_and ⟨_, Option.eq_some_of_isSome (by decide +kernel), by decide +kernel⟩
    fun s hs _ => ?_
  exact (descriptors_owned WritableFile.shortWrites_neverFails (by decide +kernel)).last hs

/-- `closeFile`, then the destructor: the descriptor is closed twice. An assignment onto an open
file: its descriptor is not closed, and what it had buffered is lost. -/
theorem descriptors_not_owned :
    (∃ s, run (step WritableFile.shortWrites) ({} : FileSys UInt8)
        [.openFile 0 3, .closeFile 0, .destroy 0] = some s ∧
      (s.kernel.opened = 1 ∧ s.kernel.closes 0 = 2) ∧ ¬ s.Sound) ∧
    ∃ s, run (step WritableFile.shortWrites) ({} : FileSys UInt8)
        [.openFile 0 3, .append 0 [104, 105], .openFile 1 4, .moveAssign 0 1, .destroy 0,
          .destroy 1] = some s ∧
      ((s.kernel.opened = 2 ∧ s.kernel.closes 0 = 0 ∧ s.kernel.written 0 = [] ∧
        s.appended 0 = [104, 105]) ∧ ∀ o, s.objects o = none) ∧ ¬ s.Sound := by
  constructor
  · refine run_and ⟨_, Option.eq_some_of_isSome (by decide +kernel), by decide +kernel⟩
      fun s _ hs h => ?_
    have := h.once 0 (by omega)
    omega
  · refine run_and ⟨_, Option.eq_some_of_isSome (by decide +kernel), by decide +kernel, ?_⟩
      fun s _ hs h => ?_
    · intro o
      match o with
      | 0 => with_unfolding_all rfl
      | 1 => with_unfolding_all rfl
      | _ + 2 => with_unfolding_all rfl
    · have := h.destroyed hs.2 0 (by omega)
      omega

end FileSys

end NetBase
