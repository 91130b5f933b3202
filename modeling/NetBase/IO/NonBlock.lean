import NetBase.IO.IOManager
import NetBase.Lib.Runs

/-!
# The two views of `O_NONBLOCK`

`co_socket`, `co_accept`, `co_fcntl` and `co_ioctl` of `src/io/co_io_function.cpp`. The
library keeps its sockets non-blocking in the kernel and remembers in `is_user_non_block`
what the user asked for. `flags` are the kernel's status flags of the open descriptors;
`fcntl_sys` and `ioctl_sys` set and return exactly those.

`co_fcntl` tests `is_socket` the wrong way round and `co_ioctl` hands the user's choice on
to the kernel. `virtualised_iff` says which calls the two views survive.
-/

namespace NetBase

open Lib

def oNonblock : BitVec 32 := 0x800

/-- The bit is set in `flags`. -/
def NonBlock (flags : BitVec 32) : Prop := flags &&& oNonblock ≠ 0

instance (flags : BitVec 32) : Decidable (NonBlock flags) := inferInstanceAs (Decidable (_ ≠ _))

/-- `flags` with the bit replaced by `on`. -/
def withNonBlock (flags : BitVec 32) (on : Bool) : BitVec 32 :=
  if on then flags ||| oNonblock else flags &&& ~~~oNonblock

structure FlagSys where
  fds : FdManager := {}
  /-- The kernel's flags of the open descriptors. -/
  flags : Nat → Option (BitVec 32) := fun _ => none
  /-- For the descriptors `co_socket` and `co_accept` returned: whether the last
  `F_SETFL` or `FIONBIO` asked for non-blocking mode. -/
  choice : Nat → Option Bool := fun _ => none
  /-- What the last call returned, if it was an `F_GETFL` that did not fail. -/
  reply : Option (Nat × BitVec 32) := none

inductive FlagOp where
  | coSocket (fd : Nat) (flags : BitVec 32)
  | coAccept (fd : Nat) (flags : BitVec 32)
  | coFcntlSetfl (fd : Nat) (arg : BitVec 32)
  | coFcntlGetfl (fd : Nat)
  | coIoctlFionbio (fd : Nat) (v : Int)

namespace FlagSys

/-- `fcntl_sys(fd, F_SETFL, arg)`. -/
def fcntlSys (s : FlagSys) (fd : Nat) (arg : BitVec 32) : FlagSys :=
  { s with flags := Function.update s.flags fd ((s.flags fd).map fun _ => arg) }

/-- `ioctl_sys(fd, FIONBIO, &v)`. -/
def ioctlSys (s : FlagSys) (fd : Nat) (v : Int) : FlagSys :=
  { s with
    flags := Function.update s.flags fd ((s.flags fd).map fun f => withNonBlock f (v != 0)) }

def setUserNonBlock (s : FlagSys) (fd : Nat) (context : FdContext) (on : Bool) : FlagSys :=
  { s with fds :=
    { contexts := s.fds.contexts.set fd (some { context with isUserNonBlock := on }) } }

/-- What `co_socket` and `co_accept` do with a new descriptor, which has `flags`. -/
def wrap (s : FlagSys) (fd : Nat) (flags : BitVec 32) : Except Fault FlagSys := do
  let opened := { s with flags := Function.update s.flags fd (some flags) }
  let fds ← s.fds.setContext fd { isSocket := true }
  return { (if NonBlock flags then opened else opened.fcntlSys fd (flags ||| oNonblock)) with fds }

def coFcntlSetfl (s : FlagSys) (fd : Nat) (arg : BitVec 32) : FlagSys :=
  match s.fds.getContext fd with
  | none => s.fcntlSys fd arg
  | some context =>
    if context.isSocket then s.fcntlSys fd arg
    else (s.setUserNonBlock fd context (decide (NonBlock arg))).fcntlSys fd (arg ||| oNonblock)

/-- The result of `F_GETFL`; `none` when the system call fails. -/
def coFcntlGetfl (s : FlagSys) (fd : Nat) : Option (BitVec 32) :=
  (s.flags fd).map fun raw =>
    match s.fds.getContext fd with
    | none => raw
    | some context => if context.isSocket then raw else withNonBlock raw context.isUserNonBlock

def coIoctlFionbio (s : FlagSys) (fd : Nat) (v : Int) : FlagSys :=
  match s.fds.getContext fd with
  | none => s.ioctlSys fd v
  | some context =>
    if !context.isSocket then s.ioctlSys fd v
    else (s.setUserNonBlock fd context (v != 0)).ioctlSys fd v

/-- The user asks for a mode of `fd`. -/
def choose (s : FlagSys) (fd : Nat) (on : Bool) : FlagSys :=
  { s with choice := Function.update s.choice fd ((s.choice fd).map fun _ => on), reply := none }

/-- A new descriptor is one that is not open. -/
def open? (s : FlagSys) (fd : Nat) (flags : BitVec 32) : Option FlagSys :=
  match s.flags fd, s.wrap fd flags with
  | none, .ok s' =>
    some { s' with choice := Function.update s.choice fd (some false), reply := none }
  | _, _ => none

def step (s : FlagSys) : FlagOp → Option FlagSys
  | .coSocket fd flags => s.open? fd flags
  | .coAccept fd flags => s.open? fd flags
  | .coFcntlSetfl fd arg => some ((s.coFcntlSetfl fd arg).choose fd (decide (NonBlock arg)))
  | .coFcntlGetfl fd => some { s with reply := (s.coFcntlGetfl fd).map fun r => (fd, r) }
  | .coIoctlFionbio fd v => some ((s.coIoctlFionbio fd v).choose fd (v != 0))

/-- What should hold of a descriptor whose user last asked for `on`: the kernel's flag is set,
the context remembers the choice, and an `F_GETFL` just made returned the flags with the
bit the context says. -/
def View (s : FlagSys) (fd : Nat) (on : Bool) : Prop :=
  ∃ flags context, s.flags fd = some flags ∧ s.fds.getContext fd = some context ∧
    NonBlock flags ∧ context.isUserNonBlock = on ∧
    ∀ r, s.reply = some (fd, r) → r = withNonBlock flags context.isUserNonBlock

/-- The kernel never blocks on a socket of the library, and the user sees what they chose. -/
def Virtualised (s : FlagSys) : Prop := ∀ fd on, s.choice fd = some on → s.View fd on

/-- The call is harmless: on a socket of the library, `FIONBIO` asks for non-blocking mode;
`F_SETFL` and `F_GETFL` come after such a call, and `F_SETFL` asks for it again. -/
def Harmless (s : FlagSys) : FlagOp → Prop
  | .coSocket _ _ | .coAccept _ _ => True
  | .coFcntlSetfl fd arg => s.choice fd ≠ some false ∧ (s.choice fd = some true → NonBlock arg)
  | .coFcntlGetfl fd => s.choice fd ≠ some false
  | .coIoctlFionbio fd v => (s.choice fd).isSome → v ≠ 0

instance (s : FlagSys) : ∀ op, Decidable (s.Harmless op)
  | .coSocket _ _ | .coAccept _ _ => inferInstanceAs (Decidable True)
  | .coFcntlSetfl _ _ => inferInstanceAs (Decidable (_ ∧ _))
  | .coFcntlGetfl _ => inferInstanceAs (Decidable (_ ≠ _))
  | .coIoctlFionbio _ _ => inferInstanceAs (Decidable (_ → _))

end FlagSys

/-! ## The bit -/

theorem nonBlock_iff {flags : BitVec 32} : NonBlock flags ↔ flags.getLsbD 11 = true := by
  have h : oNonblock = BitVec.twoPow 32 11 := by decide
  rw [NonBlock, h, BitVec.and_twoPow]
  cases flags.getLsbD 11 <;> decide

@[simp] theorem nonBlock_with {flags : BitVec 32} {on : Bool} :
    NonBlock (withNonBlock flags on) ↔ on = true := by
  have h : oNonblock = BitVec.twoPow 32 11 := by decide
  rw [nonBlock_iff, withNonBlock, h]
  cases on <;> simp

theorem with_eq_self_iff {flags : BitVec 32} (hf : NonBlock flags) {on : Bool} :
    flags = withNonBlock flags on ↔ on = true := by
  constructor
  · intro h
    rw [h] at hf
    exact nonBlock_with.1 hf
  · rintro rfl
    have h : oNonblock = BitVec.twoPow 32 11 := by decide
    rw [nonBlock_iff] at hf
    rw [withNonBlock, if_pos rfl, h]
    apply BitVec.eq_of_getLsbD_eq
    intro i hi
    rw [BitVec.getLsbD_or, BitVec.getLsbD_twoPow]
    by_cases hi11 : 11 = i
    · subst hi11
      simp [hf]
    · simp [hi11]

/-! ## Contexts -/

namespace FdManager

variable {m m' : FdManager} {fd fd' : Nat} {context c : FdContext}

theorem getContext_eq (m : FdManager) (fd : Nat) : m.getContext fd = m.contexts[fd]?.getD none := by
  unfold getContext
  cases m.contexts[fd]? <;> rfl

theorem getContext_set (h : m.getContext fd = some c) :
    ({ contexts := m.contexts.set fd (some context) } : FdManager).getContext fd' =
      if fd' = fd then some context else m.getContext fd' := by
  rw [getContext_eq] at h ⊢
  have hlt : fd < m.contexts.length := by
    by_contra hge
    rw [List.getElem?_eq_none (by omega)] at h
    cases h
  rw [getContext_eq, List.getElem?_set]
  by_cases hf : fd = fd'
  · subst hf
    simp [hlt]
  · simp [hf, Ne.symm hf]

theorem getContext_setContext (h : m.setContext fd context = .ok m') (fd' : Nat) :
    m'.getContext fd' = if fd' = fd then some context else m.getContext fd' := by
  unfold setContext at h
  simp only at h
  split at h
  · rename_i hlt
    cases h
    rw [getContext_eq, getContext_eq, ← getD_growFor none m.contexts fd fd', List.getElem?_set]
    by_cases hf : fd = fd'
    · subst hf
      simp [hlt]
    · simp [hf, Ne.symm hf]
  · cases h

end FdManager

/-! ## Steps -/

namespace FlagSys

variable {s t : FlagSys} {fd : Nat}

/-- The sockets of the library are open and known to be sockets. -/
def Known (s : FlagSys) : Prop := ∀ fd on, s.choice fd = some on →
  ∃ flags context, s.flags fd = some flags ∧ s.fds.getContext fd = some context ∧
    context.isSocket = true

/-- `t` differs from `s` at `fd` only. -/
structure Frame (fd : Nat) (s t : FlagSys) : Prop where
  choice : ∀ fd', fd' ≠ fd → t.choice fd' = s.choice fd'
  flags : ∀ fd', fd' ≠ fd → t.flags fd' = s.flags fd'
  context : ∀ fd', fd' ≠ fd → t.fds.getContext fd' = s.fds.getContext fd'
  reply : ∀ fd' r, t.reply = some (fd', r) → fd' = fd

theorem Frame.of_virtualised (h : Frame fd s t) (hP : s.Virtualised) :
    t.Virtualised ↔ ∀ on, t.choice fd = some on → t.View fd on := by
  refine ⟨fun ht on => ht fd on, fun ht fd' on hc => ?_⟩
  by_cases hf : fd' = fd
  · subst hf
    exact ht on hc
  · rw [h.choice fd' hf] at hc
    obtain ⟨flags, context, hfl, hcx, hn, hu, -⟩ := hP fd' on hc
    exact ⟨flags, context, by rw [h.flags fd' hf, hfl], by rw [h.context fd' hf, hcx], hn, hu,
      fun r hr => absurd (h.reply fd' r hr) hf⟩

theorem Frame.known (h : Frame fd s t) (hK : s.Known)
    (hfd : ∀ on, t.choice fd = some on → ∃ flags context, t.flags fd = some flags ∧
      t.fds.getContext fd = some context ∧ context.isSocket = true) : t.Known := by
  intro fd' on hc
  by_cases hf : fd' = fd
  · subst hf
    exact hfd on hc
  · rw [h.choice fd' hf] at hc
    rw [h.flags fd' hf, h.context fd' hf]
    exact hK fd' on hc

theorem open?_spec {flags : BitVec 32} (h : s.open? fd flags = some t) :
    Frame fd s t ∧ t.choice fd = some false ∧ t.reply = none ∧
      t.fds.getContext fd = some { isSocket := true } ∧
      ∃ flags', t.flags fd = some flags' ∧ NonBlock flags' := by
  unfold open? wrap at h
  split at h
  · rename_i s' _ hs'
    cases h
    obtain ⟨fds, hfds, hs'⟩ := ok_of_bind hs'
    cases hs'
    have hctx := FdManager.getContext_setContext hfds
    refine ⟨⟨fun fd' hf => ?_, fun fd' hf => ?_, fun fd' hf => ?_, fun fd' r hr => ?_⟩, ?_, rfl, ?_,
      ?_⟩
    · exact Function.update_of_ne hf _ _
    · split <;> simp [fcntlSys, hf]
    · simpa [hf] using hctx fd'
    · cases hr
    · exact Function.update_self _ _ _
    · simpa using hctx fd
    · split
      · rename_i hn
        exact ⟨flags, Function.update_self _ _ _, hn⟩
      · exact ⟨flags ||| oNonblock, by simp [fcntlSys],
          show NonBlock (withNonBlock flags true) from nonBlock_with.2 rfl⟩
  · cases h

theorem setUserNonBlock_context {context : FdContext} (hc : s.fds.getContext fd = some context)
    (on : Bool) (fd' : Nat) : (s.setUserNonBlock fd context on).fds.getContext fd' =
      if fd' = fd then some { context with isUserNonBlock := on } else s.fds.getContext fd' :=
  FdManager.getContext_set hc

theorem frame_choose {on : Bool} (hc : t.choice = s.choice)
    (hf : ∀ fd', fd' ≠ fd → t.flags fd' = s.flags fd')
    (hx : ∀ fd', fd' ≠ fd → t.fds.getContext fd' = s.fds.getContext fd') :
    Frame fd s (t.choose fd on) where
  choice fd' h := by simp [choose, h, hc]
  flags := hf
  context := hx
  reply _ _ h := by cases h

theorem frame_setfl {arg : BitVec 32} {on : Bool} :
    Frame fd s ((s.coFcntlSetfl fd arg).choose fd on) := by
  unfold coFcntlSetfl
  split
  · exact frame_choose rfl (fun _ h => Function.update_of_ne h _ _) fun _ _ => rfl
  · rename_i context hc
    split
    · exact frame_choose rfl (fun _ h => Function.update_of_ne h _ _) fun _ _ => rfl
    · refine frame_choose rfl (fun _ h => Function.update_of_ne h _ _) fun fd' h => ?_
      exact (setUserNonBlock_context hc _ fd').trans (if_neg h)

theorem frame_fionbio {v : Int} {on : Bool} :
    Frame fd s ((s.coIoctlFionbio fd v).choose fd on) := by
  unfold coIoctlFionbio
  split
  · exact frame_choose rfl (fun _ h => Function.update_of_ne h _ _) fun _ _ => rfl
  · rename_i context hc
    split
    · exact frame_choose rfl (fun _ h => Function.update_of_ne h _ _) fun _ _ => rfl
    · refine frame_choose rfl (fun _ h => Function.update_of_ne h _ _) fun fd' h => ?_
      exact (setUserNonBlock_context hc _ fd').trans (if_neg h)

/-- `F_SETFL` on a socket goes straight to the kernel: the test of `is_socket` is inverted. -/
theorem setfl_socket {context : FdContext} (hc : s.fds.getContext fd = some context)
    (hs : context.isSocket = true) (arg : BitVec 32) :
    s.coFcntlSetfl fd arg = s.fcntlSys fd arg := by
  simp [coFcntlSetfl, hc, hs]

theorem getfl_socket {context : FdContext} (hc : s.fds.getContext fd = some context)
    (hs : context.isSocket = true) : s.coFcntlGetfl fd = s.flags fd := by
  simp [coFcntlGetfl, hc, hs]

theorem fionbio_socket {context : FdContext} (hc : s.fds.getContext fd = some context)
    (hs : context.isSocket = true) (v : Int) :
    s.coIoctlFionbio fd v = (s.setUserNonBlock fd context (v != 0)).ioctlSys fd v := by
  simp [coIoctlFionbio, hc, hs]

theorem setfl_choice {arg : BitVec 32} : (s.coFcntlSetfl fd arg).choice = s.choice := by
  unfold coFcntlSetfl
  split
  · rfl
  · split <;> rfl

theorem fionbio_choice {v : Int} : (s.coIoctlFionbio fd v).choice = s.choice := by
  unfold coIoctlFionbio
  split
  · rfl
  · split <;> rfl

theorem choose_some {on on' : Bool} (h : (t.choose fd on).choice fd = some on') :
    on' = on ∧ ∃ c, t.choice fd = some c := by
  simp only [choose, Function.update_self, Option.map_eq_some_iff] at h
  obtain ⟨c, hc, rfl⟩ := h
  exact ⟨rfl, c, hc⟩

theorem choose_of_some {on c : Bool} (h : t.choice fd = some c) :
    (t.choose fd on).choice fd = some on := by
  simp [choose, h]

/-- The library knows its sockets. -/
theorem known_step {op : FlagOp} (hK : s.Known) (h : step s op = some t) : t.Known := by
  have hopen : ∀ {fd flags}, s.open? fd flags = some t → t.Known := by
    intro fd flags h
    obtain ⟨hf, -, -, hx, flags', hfl, -⟩ := open?_spec h
    exact hf.known hK fun on _ => ⟨flags', _, hfl, hx, rfl⟩
  cases op with
  | coSocket fd flags => exact hopen h
  | coAccept fd flags => exact hopen h
  | coFcntlSetfl fd arg =>
    cases h
    apply frame_setfl.known hK
    intro on hc
    obtain ⟨-, c, hc⟩ := choose_some hc
    rw [setfl_choice] at hc
    obtain ⟨flags, context, hfl, hcx, hs⟩ := hK fd c hc
    rw [setfl_socket hcx hs]
    exact ⟨arg, context, by simp [choose, fcntlSys, hfl], hcx, hs⟩
  | coFcntlGetfl fd =>
    cases h
    exact hK
  | coIoctlFionbio fd v =>
    cases h
    apply frame_fionbio.known hK
    intro on hc
    obtain ⟨-, c, hc⟩ := choose_some hc
    rw [fionbio_choice] at hc
    obtain ⟨flags, context, hfl, hcx, hs⟩ := hK fd c hc
    rw [fionbio_socket hcx hs]
    refine ⟨withNonBlock flags (v != 0), { context with isUserNonBlock := v != 0 }, ?_, ?_, hs⟩
    · simp [choose, ioctlSys, setUserNonBlock, hfl]
    · exact (setUserNonBlock_context hcx _ fd).trans (if_pos rfl)

theorem open?_virtualised {flags : BitVec 32} (hP : s.Virtualised)
    (h : s.open? fd flags = some t) : t.Virtualised := by
  obtain ⟨hf, hch, hr, hx, flags', hfl, hn⟩ := open?_spec h
  apply (hf.of_virtualised hP).2
  intro on hon
  cases hch.symm.trans hon
  exact ⟨flags', _, hfl, hx, hn, rfl, fun r h => by simp [hr] at h⟩

theorem setfl_virtualised_iff {arg : BitVec 32} (hK : s.Known) (hP : s.Virtualised) :
    ((s.coFcntlSetfl fd arg).choose fd (decide (NonBlock arg))).Virtualised ↔
      s.choice fd ≠ some false ∧ (s.choice fd = some true → NonBlock arg) := by
  rw [frame_setfl.of_virtualised hP]
  cases hc : s.choice fd with
  | none =>
    refine iff_of_true (fun on hon => ?_) (by simp)
    obtain ⟨-, c, hc'⟩ := choose_some hon
    rw [setfl_choice, hc] at hc'
    cases hc'
  | some c =>
    obtain ⟨flags, context, hfl, hcx, hs⟩ := hK fd c hc
    obtain ⟨-, context', -, hcx', -, hu, -⟩ := hP fd c hc
    cases hcx.symm.trans hcx'
    rw [setfl_socket hcx hs]
    have hfl' : (s.fcntlSys fd arg).flags fd = some arg := by simp [fcntlSys, hfl]
    constructor
    · -- the context still has the old choice
      intro hv
      obtain ⟨f, context', hf, hcx', hn, hu', -⟩ := hv _ (choose_of_some hc)
      cases hfl'.symm.trans hf
      cases hcx.symm.trans hcx'
      have hct : c = true := by rw [← hu, hu']; exact decide_eq_true hn
      subst hct
      exact ⟨by simp, fun _ => hn⟩
    · rintro ⟨hne, hn⟩ on hon
      obtain ⟨rfl, -⟩ := choose_some hon
      have hct : c = true := by simpa using hne
      subst hct
      have hn := hn rfl
      exact ⟨arg, context, hfl', hcx, hn, by rw [hu, decide_eq_true hn], fun r hr => by cases hr⟩

theorem getfl_virtualised_iff (hK : s.Known) (hP : s.Virtualised) :
    Virtualised { s with reply := (s.coFcntlGetfl fd).map fun r => (fd, r) } ↔
      s.choice fd ≠ some false := by
  have hframe : Frame fd s { s with reply := (s.coFcntlGetfl fd).map fun r => (fd, r) } :=
    ⟨fun _ _ => rfl, fun _ _ => rfl, fun _ _ => rfl, fun fd' r hr => by
      obtain ⟨_, -, he⟩ := Option.map_eq_some_iff.1 hr
      exact (Prod.mk.inj he).1.symm⟩
  have hget : ∀ {flags context on}, s.choice fd = some on → s.flags fd = some flags →
      s.fds.getContext fd = some context → s.coFcntlGetfl fd = some flags := by
    intro flags context on hc hfl hcx
    obtain ⟨_, context', -, hcx', hs⟩ := hK fd on hc
    cases hcx.symm.trans hcx'
    rw [getfl_socket hcx hs, hfl]
  rw [hframe.of_virtualised hP]
  constructor
  · intro hv hc
    obtain ⟨flags, context, hfl, hcx, hn, hu, hr⟩ := hv false hc
    have := hr flags (congrArg (Option.map fun r => (fd, r)) (hget hc hfl hcx))
    rw [hu, with_eq_self_iff hn] at this
    cases this
  · intro hne on hon
    obtain ⟨flags, context, hfl, hcx, hn, hu, -⟩ := hP fd on hon
    refine ⟨flags, context, hfl, hcx, hn, hu, fun r hr => ?_⟩
    rw [hget hon hfl hcx] at hr
    obtain rfl : flags = r := by simpa using hr
    rw [with_eq_self_iff hn, hu]
    cases on with
    | false => exact absurd hon hne
    | true => rfl

theorem fionbio_virtualised_iff {v : Int} (hK : s.Known) (hP : s.Virtualised) :
    ((s.coIoctlFionbio fd v).choose fd (v != 0)).Virtualised ↔
      ((s.choice fd).isSome → v ≠ 0) := by
  rw [frame_fionbio.of_virtualised hP]
  cases hc : s.choice fd with
  | none =>
    refine iff_of_true (fun on hon => ?_) (by simp)
    obtain ⟨-, c, hc'⟩ := choose_some hon
    rw [fionbio_choice, hc] at hc'
    cases hc'
  | some c =>
    obtain ⟨flags, context, hfl, hcx, hs⟩ := hK fd c hc
    rw [fionbio_socket hcx hs]
    have hfl' : ((s.setUserNonBlock fd context (v != 0)).ioctlSys fd v).flags fd =
        some (withNonBlock flags (v != 0)) := by simp [ioctlSys, setUserNonBlock, hfl]
    have hcx' := (setUserNonBlock_context hcx (v != 0) fd).trans (if_pos rfl)
    constructor
    · intro hv _
      obtain ⟨f, -, hf, -, hn, -⟩ := hv _ (choose_of_some hc)
      cases hfl'.symm.trans hf
      simpa using nonBlock_with.1 hn
    · intro hv on hon
      obtain ⟨rfl, -⟩ := choose_some hon
      have hv := hv rfl
      exact ⟨_, _, hfl', hcx', nonBlock_with.2 (by simpa using hv), rfl, fun r hr => by cases hr⟩

/-- A call keeps the two views exactly when it is harmless. -/
theorem virtualised_step_iff {op : FlagOp} (hK : s.Known) (hP : s.Virtualised)
    (h : step s op = some t) : t.Virtualised ↔ s.Harmless op := by
  cases op with
  | coSocket fd flags => exact iff_of_true (open?_virtualised hP h) trivial
  | coAccept fd flags => exact iff_of_true (open?_virtualised hP h) trivial
  | coFcntlSetfl fd arg =>
    cases h
    exact setfl_virtualised_iff hK hP
  | coFcntlGetfl fd =>
    cases h
    exact getfl_virtualised_iff hK hP
  | coIoctlFionbio fd v =>
    cases h
    exact fionbio_virtualised_iff hK hP

/-- **The two views.** Over every run of the four calls, on any sockets in any order, the views
hold in every state exactly when every call made is harmless. -/
theorem virtualised_iff {ops : List FlagOp} {s : FlagSys} (h : run step {} ops = some s) :
    Along step Virtualised {} ops ↔ Meets step Harmless {} ops :=
  along_iff_meets (J := Known) (fun _ _ _ hK _ h _ => known_step hK h)
    (fun _ _ _ hK hP h => virtualised_step_iff hK hP h) (fun _ _ h => by cases h)
    (fun _ _ h => by cases h) h

/-- A user who makes the socket non-blocking with `FIONBIO` first. -/
theorem virtualised_fionbio_first :
    Along step Virtualised {}
      [.coSocket 5 0x2, .coIoctlFionbio 5 1, .coFcntlSetfl 5 0x802, .coFcntlGetfl 5] := by
  refine run_of_isSome (o := run step {} [.coSocket 5 0x2, .coIoctlFionbio 5 1,
    .coFcntlSetfl 5 0x802, .coFcntlGetfl 5]) (by decide +kernel) fun s hs => ?_
  exact (virtualised_iff hs).2 (by decide +kernel)

/-- Each of the three calls on a new socket: `F_SETFL` without the flag and `FIONBIO` with 0
make the kernel block, and `F_GETFL` shows a flag the user has not set. -/
theorem virtualised_fails :
    (∃ s, run step {} [.coSocket 5 0x2, .coFcntlSetfl 5 0x2] = some s ∧ ¬ s.Virtualised) ∧
    (∃ s, run step {} [.coSocket 5 0x2, .coIoctlFionbio 5 0] = some s ∧ ¬ s.Virtualised) ∧
    ∃ s, run step {} [.coSocket 5 0x2, .coFcntlGetfl 5] = some s ∧ ¬ s.Virtualised := by
  refine ⟨⟨_, rfl, fun h => ?_⟩, ⟨_, rfl, fun h => ?_⟩, ⟨_, rfl, fun h => ?_⟩⟩
  · obtain ⟨flags, _, hf, -, hn, -⟩ := h 5 false (by decide)
    cases hf
    exact absurd hn (by decide)
  · obtain ⟨flags, _, hf, -, hn, -⟩ := h 5 false (by decide)
    cases hf
    exact absurd hn (by decide)
  · obtain ⟨flags, context, hf, hc, -, -, hr⟩ := h 5 false (by decide)
    cases hf
    cases hc
    exact absurd (hr 0x802 (by decide)) (by decide)

end FlagSys

end NetBase
