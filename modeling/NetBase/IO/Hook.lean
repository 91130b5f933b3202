import NetBase.IO.Sleep
import NetBase.IO.Timeout

/-!
# Hooked functions

The functions `src/io/hook.cpp` puts in place of the C library's, and the `co_` functions of
`src/io/co_io_function.cpp` behind them, up to the first `yield()` of a coroutine. A hooked
function makes system calls (the `_sys` functions), looks contexts up and may suspend the
coroutine that runs. The kernel is a list of results, one for each system call to come.

With hooking off a hooked function should be the system call and nothing else. Four of them do
not ask whether hooking is off, and the two variadic ones hand on their `va_list` where the
argument should be.
-/

namespace NetBase

open Lib

/-! ## Calls -/

/-- The commands of `fcntl`. -/
inductive FcntlCmd where
  | dupfd | getfd | setfd | getfl | setfl | getlk | setlk | setlkw | setown | getown | setsig
  | getsig | setownEx | getownEx | getownerUids | ofdGetlk | ofdSetlk | ofdSetlkw | setlease
  | getlease | notify | dupfdCloexec | setpipeSz | getpipeSz | addSeals | getSeals | getRwHint
  | setRwHint | getFileRwHint | setFileRwHint
  /-- Any other number; the kernel knows no such command. -/
  | unknown (cmd : Int)
  deriving DecidableEq, Repr

/-- The kernel reads a third argument. -/
def FcntlCmd.takesArg : FcntlCmd → Bool
  | .getfd | .getfl | .getown | .getsig | .getlease | .getpipeSz | .getSeals | .unknown _ => false
  | _ => true

/-- The `FIONBIO` request. -/
def fionbio : Nat := 0x5421

/-- The third argument of a variadic function. -/
inductive Arg where
  | value (n : Int)
  /-- A `va_list`, as it is or with `O_NONBLOCK` or'ed into its low bits. -/
  | vaList (nonBlock : Bool)
  | absent
  deriving DecidableEq, Repr

/-- A call of one of the hooked functions, or of its `_sys` counterpart. Pointers are numbers,
`α` is the type of the third argument of the variadic ones. -/
inductive Call (α : Type) where
  | sleep (seconds : BitVec 32)
  | usleep (usec : BitVec 32)
  | nanosleep (req : Timespec) (rem : Nat)
  | socket (domain type protocol : Int)
  | connect (sockfd : Int) (addr addrlen : Nat)
  | accept (s : Int) (addr addrlen : Nat)
  | read (fd : Int) (buf count : Nat)
  | readv (fd : Int) (iov : Nat) (iovcnt : Int)
  | recv (sockfd : Int) (buf len : Nat) (flags : Int)
  | recvfrom (sockfd : Int) (buf len : Nat) (flags : Int) (srcAddr addrlen : Nat)
  | recvmsg (sockfd : Int) (msg : Nat) (flags : Int)
  | write (fd : Int) (buf count : Nat)
  | writev (fd : Int) (iov : Nat) (iovcnt : Int)
  | send (s : Int) (msg len : Nat) (flags : Int)
  | sendto (s : Int) (msg len : Nat) (flags : Int) (dest tolen : Nat)
  | sendmsg (s : Int) (msg : Nat) (flags : Int)
  | close (fd : Int)
  | fcntl (fd : Int) (cmd : FcntlCmd) (arg : α)
  | ioctl (d : Int) (request : Nat) (arg : α)
  | getsockopt (sockfd level optname : Int) (optval optlen : Nat)
  | setsockopt (sockfd level optname : Int) (optval optlen : Nat)

/-- The same call, its third argument turned into `f arg`. -/
def Call.map {α β : Type} (f : α → β) : Call α → Call β
  | .sleep seconds => .sleep seconds
  | .usleep usec => .usleep usec
  | .nanosleep req rem => .nanosleep req rem
  | .socket domain type protocol => .socket domain type protocol
  | .connect sockfd addr addrlen => .connect sockfd addr addrlen
  | .accept s addr addrlen => .accept s addr addrlen
  | .read fd buf count => .read fd buf count
  | .readv fd iov iovcnt => .readv fd iov iovcnt
  | .recv sockfd buf len flags => .recv sockfd buf len flags
  | .recvfrom sockfd buf len flags srcAddr addrlen => .recvfrom sockfd buf len flags srcAddr addrlen
  | .recvmsg sockfd msg flags => .recvmsg sockfd msg flags
  | .write fd buf count => .write fd buf count
  | .writev fd iov iovcnt => .writev fd iov iovcnt
  | .send s msg len flags => .send s msg len flags
  | .sendto s msg len flags dest tolen => .sendto s msg len flags dest tolen
  | .sendmsg s msg flags => .sendmsg s msg flags
  | .close fd => .close fd
  | .fcntl fd cmd arg => .fcntl fd cmd (f arg)
  | .ioctl d request arg => .ioctl d request (f arg)
  | .getsockopt sockfd level optname optval optlen => .getsockopt sockfd level optname optval optlen
  | .setsockopt sockfd level optname optval optlen => .setsockopt sockfd level optname optval optlen

inductive Errno where
  | eintr | eagain | einprogress | ebadf
  | other (n : Int)
  deriving DecidableEq, Repr

/-- What a call returned, with `errno` as it left it. -/
structure SysResult where
  ret : Int
  errno : Errno := .other 0
  deriving DecidableEq, Repr

/-- The call failed with this error. -/
def SysResult.fails (r : SysResult) (e : Errno) : Bool := r.ret == -1 && r.errno == e

/-! ## Programs that make system calls -/

structure HookState where
  sys : CoSys
  /-- The system calls made, and the results of those to come. -/
  calls : List (Call Arg) := []
  results : List SysResult := []

inductive Outcome (α : Type) where
  | returned (a : α)
  /-- The coroutine has yielded. -/
  | suspended
  /-- A system call has not returned. -/
  | calling
  | fault (e : Fault)

/-- A function that makes system calls. -/
def Hook (α : Type) : Type := HookState → Outcome α × HookState

namespace Hook

instance : Monad Hook where
  pure a s := (.returned a, s)
  bind x f s :=
    match x s with
    | (.returned a, s) => f a s
    | (.suspended, s) => (.suspended, s)
    | (.calling, s) => (.calling, s)
    | (.fault e, s) => (.fault e, s)

/-- The `_sys` function. -/
def perform (call : Call Arg) : Hook SysResult := fun s =>
  let s := { s with calls := s.calls ++ [call] }
  match s.results with
  | [] => (.calling, s)
  | r :: results => (.returned r, { s with results })

/-- `FdManager::getContext`; a negative number is an index out of range. -/
def getContext (fd : Int) : Hook (Option FdContext) := fun s =>
  if fd < 0 then (.fault .outOfRange, s)
  else (.returned (s.sys.world.fds.getContext fd.toNat), s)

def setFds (f : FdManager → FdManager) : Hook Unit := fun s =>
  (.returned (), { s with sys := { s.sys with world := { s.sys.world with
    fds := f s.sys.world.fds } } })

def call (f : World Entry Callback → Except Fault (World Entry Callback)) : Hook Unit := fun s =>
  match f s.sys.world with
  | .ok w => (.returned (), { s with sys := s.sys.setWorld w })
  | .error e => (.fault e, s)

/-- The coroutine that runs yields in `f`. -/
def yield {α : Type} (f : CoSys → CoSys) : Hook α := fun s =>
  let sys := f s.sys
  (match sys.world.fault with
    | some e => .fault e
    | none => .suspended,
    { s with sys })

end Hook

/-! ## The `co_` functions -/

/-- What is outside: the clock after each number of system calls, which timer `cancelTimer` finds,
the memory behind pointers, and which requests of `ioctl` read their argument. -/
structure HookEnv where
  clock : Nat → Nat
  pick : Nat
  /-- The `int` behind the pointer is not zero. -/
  deref : Arg → Bool
  /-- The bit `O_NONBLOCK` of the address of the `va_list`. -/
  vaBit : Bool
  timeval : Nat → Timeval
  /-- `SO_ERROR` of the socket. -/
  soError : Int
  ioctlReads : Nat → Bool
  fionbio_reads : ioctlReads fionbio = true

namespace Arg

/-- `arg & O_NONBLOCK` of an `int`. -/
def nonBlock (env : HookEnv) : Arg → Bool
  | .value n => decide (NonBlock (BitVec.ofInt 32 n))
  | .vaList b => b || env.vaBit
  | .absent => false

/-- `arg | O_NONBLOCK`. -/
def orNonBlock : Arg → Arg
  | .value n => .value (BitVec.ofInt 32 n ||| oNonblock).toInt
  | .vaList _ => .vaList true
  | .absent => .absent

end Arg

namespace HookEnv

open Hook

variable (env : HookEnv)

def sleepInner (ms : BitVec 32) : Hook Unit := fun s =>
  let curMs := env.clock s.calls.length
  match s.sys.phase with
  | .running c => Hook.yield (fun sys => sys.sleepInner c ms.toNat curMs) s
  | _ => (.returned (), { s with
      sys := (({ sys := s.sys } : Clocked).sleepBase ms.toNat curMs).sys })

/-- What `ioInner` does on `EAGAIN`. The base executor does not yield: it cancels its timer and
goes on. -/
def await (fd : Nat) (d : EventType) (timeOutMs : Nat) : Hook Unit := fun s =>
  let curMs := env.clock s.calls.length
  match s.sys.phase with
  | .running c => Hook.yield (fun sys => sys.ioInner c fd d curMs timeOutMs) s
  | _ =>
    let n := (s.sys.co baseExecutor).suspension + 1
    let (timer, w) := CoSys.startTimer s.sys.world curMs timeOutMs (.timeout baseExecutor n fd d)
    Hook.call (fun _ => do
      let w ← w
      let (_, w) ← w.registerEvent fd d.mask (some (.co baseExecutor n)) true
      w.cancelTimer env.pick timer) s

/-- What `ioInner` does with a result; `again` is its next round. -/
def ioRound (fd : Nat) (d : EventType) (timeOutMs : Nat) (again : Hook SysResult) (r : SysResult) :
    Hook SysResult :=
  if r.fails .eintr then again
  else if r.fails .eagain then do
    env.await fd d timeOutMs
    again
  else return r

/-- The loop of `ioInner`; each round takes a result, so there are at most as many as those. -/
def ioLoop (call : Call Arg) (fd : Nat) (d : EventType) (timeOutMs : Nat) : Nat → Hook SysResult
  | 0 => fun s => (.calling, s)
  | rounds + 1 => do
    let r ← perform call
    env.ioRound fd d timeOutMs (ioLoop call fd d timeOutMs rounds) r

def ioWait (call : Call Arg) (fd : Nat) (d : EventType) (timeOutMs : Nat) : Hook SysResult :=
  fun s => env.ioLoop call fd d timeOutMs (s.results.length + 1) s

def ioInner (fd : Int) (d : EventType) (call : Call Arg) : Hook SysResult := do
  match ← getContext fd with
  | none => perform call
  | some context =>
    if context.suspends then env.ioWait call fd.toNat d (context.timeout d)
    else perform call

def coSleep (seconds : BitVec 32) : Hook SysResult := do
  env.sleepInner (SleepCall.ms (.coSleep seconds))
  return { ret := 0 }

def coUsleep (usec : BitVec 32) : Hook SysResult := do
  env.sleepInner (SleepCall.ms (.coUsleep usec))
  return { ret := 0 }

def coNanosleep (req : Timespec) : Hook SysResult := do
  env.sleepInner (SleepCall.ms (.coNanosleep req))
  return { ret := 0 }

/-- A new descriptor is made non-blocking and gets a context. -/
def adopt (fd : Int) : Hook Unit := do
  let flags ← perform (.fcntl fd .getfl (.value 0))
  if NonBlock (BitVec.ofInt 32 flags.ret) then pure ()
  else do
    let _ ← perform (.fcntl fd .setfl (.value (BitVec.ofInt 32 flags.ret ||| oNonblock).toInt))
  Hook.call fun w => w.coSocket fd.toNat

def coSocket (domain type protocol : Int) : Hook SysResult := do
  let r ← perform (.socket domain type protocol)
  if r.ret = -1 then return r
  else do
    adopt r.ret
    return r

def coAccept (s : Int) (addr addrlen : Nat) : Hook SysResult := do
  let r ← env.ioInner s .read (.accept s addr addrlen)
  if 0 ≤ r.ret then do
    adopt r.ret
    return r
  else return r

/-- What `co_connect` does on `EINPROGRESS`. -/
def awaitConnect (fd : Nat) : Hook Unit := fun s =>
  match s.sys.phase with
  | .running c => Hook.yield (fun sys => sys.coConnect c fd) s
  | _ =>
    let executor := .co baseExecutor ((s.sys.co baseExecutor).suspension + 1)
    Hook.call (fun w => (w.registerEvent fd epollOut (some executor) true).map Prod.snd) s

def coConnect (sockfd : Int) (addr addrlen : Nat) : Hook SysResult := do
  match ← getContext sockfd with
  | none => return { ret := -1, errno := .ebadf }
  | some context =>
    let r ← perform (.connect sockfd addr addrlen)
    if !context.suspends || !r.fails .einprogress then return r
    else do
      awaitConnect sockfd.toNat
      let r ← perform (.getsockopt sockfd 1 4 0 0)
      if r.ret = -1 then return r
      else if env.soError = 0 then return { ret := 0 }
      else return { ret := -1, errno := .other env.soError }

def coClose (fd : Int) : Hook SysResult := do
  match ← getContext fd with
  | some _ =>
    Hook.call fun w => w.removeEvent fd.toNat epollBoth
    setFds fun m => m.delContext fd.toNat
  | none => pure ()
  perform (.close fd)

def setUserNonBlock (fd : Nat) (context : FdContext) (on : Bool) : Hook Unit :=
  setFds fun m => { contexts := m.contexts.set fd (some { context with isUserNonBlock := on }) }

def coFcntl (fd : Int) (cmd : FcntlCmd) (arg : Arg) : Hook SysResult :=
  match cmd with
  | .setfl => do
    match ← getContext fd with
    | none => perform (.fcntl fd .setfl arg)
    | some context =>
      if context.isSocket then perform (.fcntl fd .setfl arg)
      else do
        setUserNonBlock fd.toNat context (arg.nonBlock env)
        perform (.fcntl fd .setfl arg.orNonBlock)
  | .getfl => do
    let raw ← perform (.fcntl fd .getfl .absent)
    match ← getContext fd with
    | none => return raw
    | some context =>
      if context.isSocket then return raw
      else return { raw with
        ret := (withNonBlock (BitVec.ofInt 32 raw.ret) context.isUserNonBlock).toInt }
  | .dupfd | .dupfdCloexec | .setfd | .setown | .setsig | .setlease | .notify | .setpipeSz =>
    perform (.fcntl fd cmd arg)
  | .getfd | .getown | .getsig | .getlease | .getpipeSz => perform (.fcntl fd cmd .absent)
  | .setlk | .setlkw | .getlk => perform (.fcntl fd cmd arg)
  | .getownEx | .setownEx => perform (.fcntl fd cmd arg)
  | _ => perform (.fcntl fd cmd .absent)

def coIoctl (d : Int) (request : Nat) (arg : Arg) : Hook SysResult := do
  if request = fionbio then do
    match ← getContext d with
    | none => perform (.ioctl d request arg)
    | some context =>
      if !context.isSocket then perform (.ioctl d request arg)
      else do
        setUserNonBlock d.toNat context (env.deref arg)
        perform (.ioctl d request arg)
  else perform (.ioctl d request arg)

def coSetsockopt (sockfd level optname : Int) (optval optlen : Nat) : Hook SysResult := do
  if level = 1 ∧ (optname = 20 ∨ optname = 21) then do
    let _ ← getContext sockfd
    setFds fun m => m.setTimeout sockfd.toNat (if optname = 20 then .read else .write)
      (env.timeval optval).timeout
  else pure ()
  perform (.setsockopt sockfd level optname optval optlen)

/-! ## The hooked functions -/

/-- The function under its own name; `hookEnabled` is `isHookEnabled()`. -/
def hooked (hookEnabled : Bool) : Call Int → Hook SysResult
  | .sleep seconds =>
    if !hookEnabled then perform (.sleep seconds) else env.coSleep seconds
  | .usleep usec => env.coUsleep usec
  | .nanosleep req rem =>
    if !hookEnabled then perform (.nanosleep req rem) else env.coNanosleep req
  | .socket domain type protocol =>
    if !hookEnabled then perform (.socket domain type protocol)
    else coSocket domain type protocol
  | .connect sockfd addr addrlen =>
    if !hookEnabled then perform (.connect sockfd addr addrlen)
    else env.coConnect sockfd addr addrlen
  | .accept s addr addrlen =>
    if !hookEnabled then perform (.accept s addr addrlen) else env.coAccept s addr addrlen
  | .read fd buf count =>
    if !hookEnabled then perform (.read fd buf count) else env.ioInner fd .read (.read fd buf count)
  | .readv fd iov iovcnt =>
    if !hookEnabled then perform (.readv fd iov iovcnt)
    else env.ioInner fd .read (.readv fd iov iovcnt)
  | .recv sockfd buf len flags =>
    if !hookEnabled then perform (.recv sockfd buf len flags)
    else env.ioInner sockfd .read (.recv sockfd buf len flags)
  | .recvfrom sockfd buf len flags srcAddr addrlen =>
    if !hookEnabled then perform (.recvfrom sockfd buf len flags srcAddr addrlen)
    else env.ioInner sockfd .read (.recvfrom sockfd buf len flags srcAddr addrlen)
  | .recvmsg sockfd msg flags =>
    if !hookEnabled then perform (.recvmsg sockfd msg flags)
    else env.ioInner sockfd .read (.recvmsg sockfd msg flags)
  | .write fd buf count =>
    if !hookEnabled then perform (.write fd buf count)
    else env.ioInner fd .write (.write fd buf count)
  | .writev fd iov iovcnt =>
    if !hookEnabled then perform (.writev fd iov iovcnt)
    else env.ioInner fd .write (.writev fd iov iovcnt)
  | .send s msg len flags => env.ioInner s .write (.send s msg len flags)
  | .sendto s msg len flags dest tolen =>
    if !hookEnabled then perform (.sendto s msg len flags dest tolen)
    else env.ioInner s .write (.sendto s msg len flags dest tolen)
  | .sendmsg s msg flags =>
    if !hookEnabled then perform (.sendmsg s msg flags)
    else env.ioInner s .write (.sendmsg s msg flags)
  | .close fd => if !hookEnabled then perform (.close fd) else coClose fd
  -- the `va_list` of the wrapper, not what it lists
  | .fcntl fd cmd _ => env.coFcntl fd cmd (.vaList false)
  | .ioctl d request _ => env.coIoctl d request (.vaList false)
  | .getsockopt sockfd level optname optval optlen =>
    perform (.getsockopt sockfd level optname optval optlen)
  | .setsockopt sockfd level optname optval optlen =>
    if !hookEnabled then perform (.setsockopt sockfd level optname optval optlen)
    else env.coSetsockopt sockfd level optname optval optlen

/-! ## Transparency -/

/-- What the kernel sees of a call: an argument it does not read does not count. -/
def seen : Call Arg → Call Arg
  | .fcntl fd cmd arg => .fcntl fd cmd (if cmd.takesArg then arg else .absent)
  | .ioctl d request arg => .ioctl d request (if env.ioctlReads request then arg else .absent)
  | call => call

/-- The two programs ended alike: the same result, the same tables, timers, events and coroutines,
and the kernel saw the same calls. -/
structure Agrees (a b : Outcome SysResult × HookState) : Prop where
  outcome : a.1 = b.1
  sys : a.2.sys = b.2.sys
  results : a.2.results = b.2.results
  calls : a.2.calls.map env.seen = b.2.calls.map env.seen

/-- With hooking off, the hooked function is the system call with the caller's arguments. -/
def Transparent (s : HookState) (call : Call Int) : Prop :=
  env.Agrees (env.hooked false call s) (perform (call.map .value) s)

/-- The call comes out right without the missing test for `isHookEnabled()`. `send` does when the
descriptor does not belong to the library, or the kernel neither interrupts it nor would block;
`fcntl` and `ioctl` do when they take no argument, and `F_GETFL` when moreover the context agrees
with the kernel. -/
def Bare (s : HookState) : Call Int → Prop
  | .usleep _ => False
  | .send fd _ _ _ => 0 ≤ fd ∧
    ∀ context, s.sys.world.fds.getContext fd.toNat = some context → context.suspends = true →
      ∀ r, s.results.head? = some r → r.fails .eintr = false ∧ r.fails .eagain = false
  | .fcntl fd cmd _ => cmd.takesArg = false ∧
    (cmd = .getfl → ∀ r, s.results.head? = some r → 0 ≤ fd ∧
      ∀ context, s.sys.world.fds.getContext fd.toNat = some context → context.isSocket = true ∨
        (withNonBlock (BitVec.ofInt 32 r.ret) context.isUserNonBlock).toInt = r.ret)
  | .ioctl _ request _ => env.ioctlReads request = false
  | _ => True

/-! ## Forwarding -/

/-- `fcntl` does what `co_fcntl` does with the caller's argument, and `co_fcntl` hands that on to
the kernel where the command takes one. -/
def ForwardsFcntl (hookEnabled : Bool) (s : HookState) (fd : Int) (cmd : FcntlCmd) (arg : Int) :
    Prop :=
  env.hooked hookEnabled (.fcntl fd cmd arg) s = env.coFcntl fd cmd (.value arg) s ∧
    (cmd ≠ .setfl → cmd ≠ .getfl → cmd.takesArg = true →
      env.coFcntl fd cmd (.value arg) s = perform (.fcntl fd cmd (.value arg)) s)

/-- `ioctl` makes the system call with the caller's argument. -/
def ForwardsIoctl (hookEnabled : Bool) (s : HookState) (d : Int) (request : Nat) (arg : Int) :
    Prop :=
  (env.hooked hookEnabled (.ioctl d request arg) s).2.calls =
    s.calls ++ [.ioctl d request (.value arg)]

end HookEnv

/-! ## Running programs -/

namespace Hook

variable {α β : Type} {x : Hook α} {f : α → Hook β} {s s' : HookState}

theorem bind_returned {a : α} (h : x s = (.returned a, s')) : (x >>= f) s = f a s' := by
  simp only [bind, h]

theorem bind_calling (h : x s = (.calling, s')) : (x >>= f) s = (.calling, s') := by
  simp only [bind, h]

theorem bind_fault {e : Fault} (h : x s = (.fault e, s')) : (x >>= f) s = (.fault e, s') := by
  simp only [bind, h]

/-- A program that does not return ends the whole. -/
theorem bind_cases (x : Hook α) (f : α → Hook β) (s : HookState) :
    (∃ a s', x s = (.returned a, s') ∧ (x >>= f) s = f a s') ∨
      (∀ b, ((x >>= f) s).1 ≠ .returned b) ∧ ((x >>= f) s).2 = (x s).2 := by
  match h : x s with
  | (.returned a, s') => exact .inl ⟨a, s', rfl, bind_returned h⟩
  | (.suspended, s') => simp [bind, h]
  | (.calling, s') => simp [bind, h]
  | (.fault e, s') => simp [bind, h]

theorem bind_pure_snd (x : Hook α) (b : β) (s : HookState) :
    ((x >>= fun _ => pure b) s).2 = (x s).2 := by
  rcases bind_cases x (fun _ => pure b) s with ⟨a, s', hx, hbind⟩ | ⟨-, hbind⟩
  · rw [hbind, hx]
    rfl
  · exact hbind

theorem perform_nil {call : Call Arg} (h : s.results = []) :
    perform call s = (.calling, { s with calls := s.calls ++ [call] }) := by
  simp only [perform, h]

theorem perform_cons {call : Call Arg} {r : SysResult} {results : List SysResult}
    (h : s.results = r :: results) :
    perform call s = (.returned r, { s with calls := s.calls ++ [call], results }) := by
  simp only [perform, h]

@[simp] theorem perform_calls (call : Call Arg) (s : HookState) :
    (perform call s).2.calls = s.calls ++ [call] := by
  cases h : s.results with
  | nil => rw [perform_nil h]
  | cons r results => rw [perform_cons h]

theorem getContext_of_neg {fd : Int} (h : fd < 0) : getContext fd s = (.fault .outOfRange, s) := by
  simp only [getContext, if_pos h]

theorem getContext_of_nonneg {fd : Int} (h : 0 ≤ fd) :
    getContext fd s = (.returned (s.sys.world.fds.getContext fd.toNat), s) := by
  simp only [getContext, if_neg (Int.not_lt.mpr h)]

/-- The program only adds to the system calls made. -/
def Extends (x : Hook α) : Prop := ∀ s, s.calls.length ≤ (x s).2.calls.length

theorem Extends.bind (hx : x.Extends) (hf : ∀ a, (f a).Extends) : (x >>= f).Extends := by
  intro s
  have hs := hx s
  rcases bind_cases x f s with ⟨a, s', h, hbind⟩ | ⟨-, hbind⟩
  · rw [h] at hs
    rw [hbind]
    exact hs.trans (hf a s')
  · rw [hbind]
    exact hs

theorem extends_pure (a : α) : (pure a : Hook α).Extends := fun _ => Nat.le_refl _

theorem extends_perform (call : Call Arg) : (perform call).Extends := by
  intro s
  simp

/-- A program that begins with a system call adds to them. -/
theorem perform_bind_calls {call : Call Arg} {f : SysResult → Hook β} (hf : ∀ r, (f r).Extends)
    (s : HookState) : s.calls.length < ((perform call >>= f) s).2.calls.length := by
  cases h : s.results with
  | nil =>
    rw [bind_calling (perform_nil h)]
    simp
  | cons r results =>
    rw [bind_returned (perform_cons h)]
    refine Nat.lt_of_lt_of_le ?_ (hf r _)
    simp

theorem call_calls (g : World Entry Callback → Except Fault (World Entry Callback))
    (s : HookState) : (Hook.call g s).2.calls = s.calls := by
  unfold Hook.call
  split <;> rfl

end Hook

namespace HookEnv

open Hook

variable (env : HookEnv) {s : HookState} {call : Call Arg} {fd ms : Nat} {d : EventType}

theorem sleepInner_calls (ms : BitVec 32) (s : HookState) :
    (env.sleepInner ms s).2.calls = s.calls := by
  unfold sleepInner
  dsimp only
  split <;> rfl

theorem await_calls (fd : Nat) (d : EventType) (ms : Nat) (s : HookState) :
    (env.await fd d ms s).2.calls = s.calls := by
  unfold await
  dsimp only
  split
  · rfl
  · exact call_calls _ _

/-! ## The loop of `ioInner` -/

theorem ioRound_extends {again : Hook SysResult} (h : again.Extends) (r : SysResult) :
    (env.ioRound fd d ms again r).Extends := by
  unfold ioRound
  split
  · exact h
  · split
    · exact Extends.bind (fun s => (env.await_calls fd d ms s).symm ▸ Nat.le_refl _) fun _ => h
    · exact extends_pure r

theorem ioLoop_extends (call : Call Arg) (fd : Nat) (d : EventType) (ms : Nat) :
    ∀ rounds, (env.ioLoop call fd d ms rounds).Extends
  | 0 => fun _ => Nat.le_refl _
  | rounds + 1 =>
    (extends_perform call).bind (env.ioRound_extends (ioLoop_extends call fd d ms rounds))

theorem ioRound_of_done {again : Hook SysResult} {r : SysResult} (hi : r.fails .eintr = false)
    (ha : r.fails .eagain = false) : env.ioRound fd d ms again r s = (.returned r, s) := by
  simp only [ioRound, hi, ha, Bool.false_eq_true, if_false]
  rfl

/-- After `EINTR` or `EAGAIN` the call is made again, or nothing is returned. -/
theorem ioRound_retries {again : Hook SysResult} {r : SysResult}
    (hagain : ∀ s, s.calls.length < (again s).2.calls.length)
    (h : ¬(r.fails .eintr = false ∧ r.fails .eagain = false)) {a : SysResult}
    (ho : (env.ioRound fd d ms again r s).1 = .returned a) :
    s.calls.length < (env.ioRound fd d ms again r s).2.calls.length := by
  unfold ioRound at ho ⊢
  split at ho
  · rename_i hi
    rw [if_pos hi]
    exact hagain s
  · rename_i hi
    have ha : r.fails .eagain = true := by
      by_contra ha
      exact h ⟨Bool.eq_false_iff.mpr hi, Bool.eq_false_iff.mpr ha⟩
    rw [if_neg hi, if_pos ha]
    rw [if_pos ha] at ho
    have hc := env.await_calls fd d ms s
    rcases bind_cases (env.await fd d ms) (fun _ => again) s with ⟨_, s', hw, hbind⟩ | ⟨hno, -⟩
    · rw [hw] at hc
      rw [hbind, ← hc]
      exact hagain s'
    · exact absurd ho (hno a)

/-! ## Which calls are transparent -/

theorem Agrees.refl (a : Outcome SysResult × HookState) : env.Agrees a a := ⟨rfl, rfl, rfl, rfl⟩

section

variable {env} {a b c : Outcome SysResult × HookState}

theorem Agrees.trans (h : env.Agrees a b) (h' : env.Agrees b c) : env.Agrees a c :=
  ⟨h.outcome.trans h'.outcome, h.sys.trans h'.sys, h.results.trans h'.results,
    h.calls.trans h'.calls⟩

theorem Agrees.length (h : env.Agrees a b) : a.2.calls.length = b.2.calls.length := by
  have hc := congrArg List.length h.calls
  rwa [List.length_map, List.length_map] at hc

theorem not_agrees_of_calls_eq (h : a.2.calls = s.calls) : ¬env.Agrees a (perform call s) := by
  intro ha
  have hl := ha.length
  rw [h, perform_calls] at hl
  simp at hl

theorem not_agrees_of_calls {sent : Call Arg} (h : a.2.calls = s.calls ++ [sent])
    (hne : env.seen sent ≠ env.seen call) : ¬env.Agrees a (perform call s) := by
  intro ha
  have hc := ha.calls
  rw [h, perform_calls, List.map_append, List.map_append] at hc
  exact hne (List.singleton_injective (List.append_cancel_left hc))

end

theorem agrees_perform_iff {a b : Call Arg} :
    env.Agrees (perform a s) (perform b s) ↔ env.seen a = env.seen b := by
  constructor
  · intro h
    by_contra hne
    exact not_agrees_of_calls (perform_calls a s) hne h
  · intro h
    cases hr : s.results with
    | nil =>
      rw [perform_nil hr, perform_nil hr]
      exact ⟨rfl, rfl, rfl, by simp [h]⟩
    | cons r results =>
      rw [perform_cons hr, perform_cons hr]
      exact ⟨rfl, rfl, rfl, by simp [h]⟩

/-- `usleep` makes no system call at all. -/
theorem not_agrees_coUsleep (usec : BitVec 32) :
    ¬env.Agrees (env.coUsleep usec s) (perform call s) :=
  not_agrees_of_calls_eq
    ((congrArg HookState.calls (bind_pure_snd _ _ s)).trans (env.sleepInner_calls _ s))

theorem agrees_ioWait_iff :
    env.Agrees (env.ioWait call fd d ms s) (perform call s) ↔
      ∀ r, s.results.head? = some r → r.fails .eintr = false ∧ r.fails .eagain = false := by
  cases hr : s.results with
  | nil =>
    have hw : env.ioWait call fd d ms s = perform call s := by
      rw [perform_nil hr]
      exact bind_calling (perform_nil hr)
    rw [hw]
    exact ⟨fun _ _ h => (nomatch h), fun _ => .refl env _⟩
  | cons r results =>
    have hw : env.ioWait call fd d ms s =
        env.ioRound fd d ms (env.ioLoop call fd d ms (results.length + 1)) r
          { s with calls := s.calls ++ [call], results } := by
      show env.ioLoop call fd d ms (s.results.length + 1) s = _
      rw [hr]
      exact bind_returned (perform_cons hr)
    rw [hw]
    constructor
    · rintro h a ⟨⟩
      by_contra hfail
      -- the second round makes a second call
      have hagain : ∀ s, s.calls.length <
          (env.ioLoop call fd d ms (results.length + 1) s).2.calls.length :=
        perform_bind_calls (env.ioRound_extends (env.ioLoop_extends call fd d ms _))
      have ho := h.outcome
      rw [perform_cons hr] at ho
      have hlt := env.ioRound_retries hagain hfail ho
      rw [h.length, perform_cons hr] at hlt
      exact Nat.lt_irrefl _ hlt
    · intro h
      obtain ⟨hi, ha⟩ := h r rfl
      rw [env.ioRound_of_done hi ha, perform_cons hr]
      exact .refl env _

theorem agrees_ioInner_iff {fd : Int} :
    env.Agrees (env.ioInner fd d call s) (perform call s) ↔ 0 ≤ fd ∧
      ∀ context, s.sys.world.fds.getContext fd.toNat = some context → context.suspends = true →
        ∀ r, s.results.head? = some r → r.fails .eintr = false ∧ r.fails .eagain = false := by
  by_cases hfd : fd < 0
  · have hio : env.ioInner fd d call s = (.fault .outOfRange, s) :=
      bind_fault (getContext_of_neg hfd)
    rw [hio]
    exact ⟨fun h => absurd h (not_agrees_of_calls_eq rfl),
      fun h => absurd h.1 (Int.not_le.mpr hfd)⟩
  · have hio : env.ioInner fd d call s = _ :=
      bind_returned (getContext_of_nonneg (Int.not_lt.mp hfd))
    rw [hio]
    cases hc : s.sys.world.fds.getContext fd.toNat with
    | none => exact ⟨fun _ => ⟨Int.not_lt.mp hfd, fun _ h => (nomatch h)⟩, fun _ => .refl env _⟩
    | some context =>
      dsimp only
      split
      · rename_i hs
        rw [agrees_ioWait_iff]
        exact ⟨fun h => ⟨Int.not_lt.mp hfd, by rintro _ ⟨⟩ _; exact h⟩,
          fun h => h.2 context rfl hs⟩
      · rename_i hs
        exact ⟨fun _ => ⟨Int.not_lt.mp hfd, by rintro _ ⟨⟩ h; exact absurd h hs⟩,
          fun _ => .refl env _⟩

/-- `F_GETFL` is the one command whose result the library changes. -/
theorem agrees_getfl_iff {fd : Int} {arg : Arg} :
    env.Agrees (env.coFcntl fd .getfl arg s) (perform (.fcntl fd .getfl .absent) s) ↔
      ∀ r, s.results.head? = some r → 0 ≤ fd ∧
        ∀ context, s.sys.world.fds.getContext fd.toNat = some context → context.isSocket = true ∨
          (withNonBlock (BitVec.ofInt 32 r.ret) context.isUserNonBlock).toInt = r.ret := by
  cases hr : s.results with
  | nil =>
    have hco : env.coFcntl fd .getfl arg s = perform (.fcntl fd .getfl .absent) s := by
      rw [perform_nil hr]
      exact bind_calling (perform_nil hr)
    rw [hco]
    exact ⟨fun _ _ h => (nomatch h), fun _ => .refl env _⟩
  | cons r results =>
    let s' : HookState := { s with calls := s.calls ++ [.fcntl fd .getfl .absent], results }
    rw [perform_cons hr]
    by_cases hfd : fd < 0
    · have hco : env.coFcntl fd .getfl arg s = (.fault .outOfRange, s') :=
        (bind_returned (perform_cons hr)).trans (bind_fault (getContext_of_neg hfd))
      rw [hco]
      exact ⟨fun h => (nomatch h.outcome), fun h => absurd (h r rfl).1 (Int.not_le.mpr hfd)⟩
    · have hfd := Int.not_lt.mp hfd
      have hco : env.coFcntl fd .getfl arg s = _ :=
        (bind_returned (perform_cons hr)).trans (bind_returned (getContext_of_nonneg hfd))
      rw [hco]
      dsimp only
      cases hc : s.sys.world.fds.getContext fd.toNat with
      | none => exact ⟨fun _ _ _ => ⟨hfd, fun _ h => (nomatch h)⟩, fun _ => .refl env _⟩
      | some context =>
        dsimp only
        split
        · rename_i hs
          exact ⟨fun _ _ _ => ⟨hfd, by rintro _ ⟨⟩; exact .inl hs⟩, fun _ => .refl env _⟩
        · rename_i hs
          constructor
          · rintro h _ ⟨⟩
            have ho : Outcome.returned _ = Outcome.returned r := h.outcome
            injection ho with ho
            exact ⟨hfd, by rintro _ ⟨⟩; exact .inr (congrArg SysResult.ret ho)⟩
          · intro h
            rcases (h r rfl).2 context rfl with hs' | hret
            · exact absurd hs' hs
            · rw [hret]
              exact .refl env _

/-! ## What `fcntl` and `ioctl` hand on -/

/-- A command other than `F_SETFL` and `F_GETFL` becomes one system call, with the argument or
without. -/
theorem coFcntl_cases {fd : Int} {cmd : FcntlCmd} {arg : Arg} (hs : cmd ≠ .setfl)
    (hg : cmd ≠ .getfl) :
    env.coFcntl fd cmd arg = perform (.fcntl fd cmd arg) ∧ cmd.takesArg = true ∨
      env.coFcntl fd cmd arg = perform (.fcntl fd cmd .absent) := by
  cases cmd with
  | setfl => exact absurd rfl hs
  | getfl => exact absurd rfl hg
  | dupfd | dupfdCloexec | setfd | setown | setsig | setlease | notify | setpipeSz
  | setlk | setlkw | getlk | getownEx | setownEx => exact .inl ⟨rfl, rfl⟩
  | _ => exact .inr rfl

theorem coFcntl_setfl_of_neg {fd : Int} {arg : Arg} (h : fd < 0) :
    env.coFcntl fd .setfl arg s = (.fault .outOfRange, s) :=
  bind_fault (getContext_of_neg h)

theorem setUserNonBlock_perform_calls (fd : Nat) (context : FdContext) (on : Bool)
    (call : Call Arg) (s : HookState) :
    ((setUserNonBlock fd context on >>= fun _ => perform call) s).2.calls = s.calls ++ [call] := by
  have h : setUserNonBlock fd context on s = (.returned (), _) := rfl
  rw [bind_returned h, perform_calls]

theorem coFcntl_setfl_calls {fd : Int} (h : 0 ≤ fd) (arg : Arg) (s : HookState) :
    ∃ arg', (arg' = arg ∨ arg' = arg.orNonBlock) ∧
      (env.coFcntl fd .setfl arg s).2.calls = s.calls ++ [.fcntl fd .setfl arg'] := by
  have hco : env.coFcntl fd .setfl arg s = _ := bind_returned (getContext_of_nonneg h)
  rw [hco]
  cases s.sys.world.fds.getContext fd.toNat with
  | none => exact ⟨arg, .inl rfl, perform_calls _ s⟩
  | some context =>
    dsimp only
    split
    · exact ⟨arg, .inl rfl, perform_calls _ s⟩
    · exact ⟨arg.orNonBlock, .inr rfl, setUserNonBlock_perform_calls _ _ _ _ s⟩

/-- What `fcntl` hands on for `F_SETFL` is a `va_list`. -/
theorem coFcntl_setfl_vaList {fd : Int} (h : 0 ≤ fd) (s : HookState) :
    ∃ b, (env.coFcntl fd .setfl (.vaList false) s).2.calls =
      s.calls ++ [.fcntl fd .setfl (.vaList b)] := by
  obtain ⟨arg', rfl | rfl, hc⟩ := env.coFcntl_setfl_calls h (.vaList false) s
  · exact ⟨false, hc⟩
  · exact ⟨true, hc⟩

theorem coIoctl_of_ne {d : Int} {request : Nat} {arg : Arg} (h : request ≠ fionbio) :
    env.coIoctl d request arg = perform (.ioctl d request arg) := if_neg h

theorem coIoctl_calls {d : Int} {request : Nat} {arg : Arg} :
    (env.coIoctl d request arg s).2.calls = s.calls ∨
      (env.coIoctl d request arg s).2.calls = s.calls ++ [.ioctl d request arg] := by
  unfold coIoctl
  split
  · by_cases hd : d < 0
    · rw [bind_fault (getContext_of_neg hd)]
      exact .inl rfl
    · rw [bind_returned (getContext_of_nonneg (Int.not_lt.mp hd))]
      refine .inr ?_
      cases s.sys.world.fds.getContext d.toNat with
      | none => exact perform_calls _ s
      | some context =>
        dsimp only
        split
        · exact perform_calls _ s
        · exact setUserNonBlock_perform_calls _ _ _ _ s
  · exact .inr (perform_calls _ s)

theorem transparent_fcntl_iff {fd arg : Int} {cmd : FcntlCmd} :
    env.Transparent s (.fcntl fd cmd arg) ↔ env.Bare s (.fcntl fd cmd arg) := by
  show env.Agrees (env.coFcntl fd cmd (.vaList false) s) (perform (.fcntl fd cmd (.value arg)) s) ↔
    cmd.takesArg = false ∧ _
  by_cases hs : cmd = .setfl
  · subst hs
    refine ⟨fun h => absurd h ?_, fun h => nomatch h.1⟩
    by_cases hfd : fd < 0
    · rw [env.coFcntl_setfl_of_neg hfd]
      exact not_agrees_of_calls_eq rfl
    · obtain ⟨b, hc⟩ := env.coFcntl_setfl_vaList (Int.not_lt.mp hfd) s
      exact not_agrees_of_calls hc nofun
  by_cases hg : cmd = .getfl
  · subst hg
    have hv : env.Agrees (perform (.fcntl fd .getfl (.value arg)) s)
        (perform (.fcntl fd .getfl .absent) s) := env.agrees_perform_iff.mpr rfl
    have ha : env.Agrees (perform (.fcntl fd .getfl .absent) s)
        (perform (.fcntl fd .getfl (.value arg)) s) := env.agrees_perform_iff.mpr rfl
    exact ⟨fun h => ⟨rfl, fun _ => env.agrees_getfl_iff.mp (h.trans hv)⟩,
      fun h => (env.agrees_getfl_iff.mpr (h.2 rfl)).trans ha⟩
  rcases env.coFcntl_cases hs hg with ⟨hc, ht⟩ | hc
  · rw [hc, agrees_perform_iff]
    simp [seen, ht]
  · rw [hc, agrees_perform_iff]
    cases ht : cmd.takesArg with
    | false => simp [seen, ht, hg]
    | true => simp [seen, ht]

theorem transparent_ioctl_iff {d arg : Int} {request : Nat} :
    env.Transparent s (.ioctl d request arg) ↔ env.ioctlReads request = false := by
  show env.Agrees (env.coIoctl d request (.vaList false) s)
    (perform (.ioctl d request (.value arg)) s) ↔ _
  cases hr : env.ioctlReads request with
  | true =>
    refine ⟨fun h => absurd h ?_, fun h => nomatch h⟩
    rcases env.coIoctl_calls with hc | hc
    · exact not_agrees_of_calls_eq hc
    · exact not_agrees_of_calls hc (by simp [seen, hr])
  | false =>
    have hne : request ≠ fionbio := by
      rintro rfl
      rw [env.fionbio_reads] at hr
      cases hr
    rw [env.coIoctl_of_ne hne, agrees_perform_iff]
    simp [seen, hr]

/-- With hooking off a hooked function is its system call for exactly the calls `Bare` names. -/
theorem transparent_iff (s : HookState) (call : Call Int) :
    env.Transparent s call ↔ env.Bare s call := by
  cases call with
  | usleep usec => exact iff_false_intro (env.not_agrees_coUsleep usec)
  | send fd msg len flags => exact env.agrees_ioInner_iff
  | fcntl fd cmd arg => exact env.transparent_fcntl_iff
  | ioctl d request arg => exact env.transparent_ioctl_iff
  | _ => exact iff_true_intro (.refl env _)

/-- A kernel that reads the argument of every `ioctl`. -/
def plain : HookEnv where
  clock n := n
  pick := 0
  deref _ := true
  vaBit := false
  timeval _ := ⟨1, 0, by decide, by decide⟩
  soError := 0
  ioctlReads _ := true
  fionbio_reads := rfl

/-- With hooking off, `usleep(1000)` before `run()` registers a timer and sleeps not at all. -/
theorem not_transparent :
    ¬plain.Transparent { sys := CoSys.init 3, results := [{ ret := 0 }] } (.usleep 1000) :=
  plain.not_agrees_coUsleep 1000

theorem perform_injective {a b : Call Arg} (h : perform a s = perform b s) : a = b := by
  have hc := congrArg (fun x => x.2.calls) h
  rw [perform_calls, perform_calls] at hc
  exact List.singleton_injective (List.append_cancel_left hc)

theorem not_forwards_setfl {hookEnabled : Bool} {fd arg : Int} (h : 0 ≤ fd) :
    ¬env.ForwardsFcntl hookEnabled s fd .setfl arg := by
  rintro ⟨heq, -⟩
  obtain ⟨b, hb⟩ := env.coFcntl_setfl_vaList h s
  obtain ⟨arg', harg, hc⟩ := env.coFcntl_setfl_calls h (.value arg) s
  have hcalls : (env.coFcntl fd .setfl (.vaList false) s).2.calls = _ := heq ▸ hc
  rw [hb] at hcalls
  have hva := List.singleton_injective (List.append_cancel_left hcalls)
  rcases harg with rfl | rfl <;> cases hva

/-- Every command that takes an argument gets a wrong one from `fcntl`, or none from
`co_fcntl`. -/
theorem forwardsFcntl_iff {hookEnabled : Bool} {fd arg : Int} {cmd : FcntlCmd} :
    env.ForwardsFcntl hookEnabled s fd cmd arg ↔
      cmd.takesArg = false ∨ cmd = .setfl ∧ fd < 0 := by
  by_cases hs : cmd = .setfl
  · subst hs
    by_cases hfd : fd < 0
    · refine ⟨fun _ => .inr ⟨rfl, hfd⟩, fun _ => ⟨?_, fun h => absurd rfl h⟩⟩
      exact (env.coFcntl_setfl_of_neg hfd).trans (env.coFcntl_setfl_of_neg hfd).symm
    · refine ⟨fun h => absurd h (env.not_forwards_setfl (Int.not_lt.mp hfd)), ?_⟩
      rintro (h | h)
      · cases h
      · exact absurd h.2 hfd
  by_cases hg : cmd = .getfl
  · subst hg
    exact ⟨fun _ => .inl rfl, fun _ => ⟨rfl, fun _ h => absurd rfl h⟩⟩
  constructor
  · rintro ⟨heq, hsys⟩
    refine .inl (Bool.eq_false_iff.mpr fun ht => ?_)
    have heq : env.coFcntl fd cmd (.vaList false) s = perform (.fcntl fd cmd (.value arg)) s :=
      heq.trans (hsys hs hg ht)
    rcases env.coFcntl_cases hs hg with ⟨hc, -⟩ | hc
    · rw [hc] at heq
      cases perform_injective heq
    · rw [hc] at heq
      cases perform_injective heq
  · rintro (ht | h)
    · refine ⟨?_, fun _ _ h => absurd (ht.symm.trans h) Bool.false_ne_true⟩
      have hc : ∀ arg, env.coFcntl fd cmd arg = perform (.fcntl fd cmd .absent) := by
        intro arg
        rcases env.coFcntl_cases hs hg with ⟨-, ht'⟩ | hc
        · exact absurd (ht.symm.trans ht') Bool.false_ne_true
        · exact hc
      exact congrFun ((hc _).trans (hc _).symm) s
    · exact absurd h.1 hs

theorem not_forwards_request {hookEnabled : Bool} {d : Int} {request : Nat} {arg : Int} :
    ¬env.ForwardsIoctl hookEnabled s d request arg := by
  intro h
  have h : (env.coIoctl d request (.vaList false) s).2.calls = _ := h
  rcases env.coIoctl_calls with hc | hc
  · rw [hc] at h
    simp at h
  · rw [hc] at h
    cases List.singleton_injective (List.append_cancel_left h)

/-- `fcntl` forwards its argument when the command takes none, and fails alike for `F_SETFL` of a
negative number; `ioctl` never does. -/
theorem forwards_iff (s : HookState) (hookEnabled : Bool) :
    (∀ fd cmd arg, env.ForwardsFcntl hookEnabled s fd cmd arg ↔
      cmd.takesArg = false ∨ cmd = .setfl ∧ fd < 0) ∧
    ∀ d request arg, ¬env.ForwardsIoctl hookEnabled s d request arg :=
  ⟨fun _ _ _ => env.forwardsFcntl_iff, fun _ _ _ => env.not_forwards_request⟩

/-- Two ways to ask for a descriptor that does not block; the kernel gets an address. -/
theorem not_forwards :
    ¬plain.ForwardsFcntl true { sys := CoSys.init 3 } 4 .setfl oNonblock.toInt ∧
      ¬plain.ForwardsIoctl true { sys := CoSys.init 3 } 4 fionbio 1 :=
  ⟨plain.not_forwards_setfl (by decide), plain.not_forwards_request⟩

end HookEnv

end NetBase
