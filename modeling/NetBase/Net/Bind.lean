import NetBase.Net.TcpServer

/-!
# Binding a server

`TcpServer::bindOne` and `TcpServer::bind` of `src/net/tcp/tcp_server.cpp` with what they touch: the
open descriptors, the contexts of `FdManager` (here the map that its table is, see `FdTable`) and
the listening sockets. A `Socket` does not close its descriptor, so that an attempt that fails after
`socket` leaves it open. `bind` of a list collects the addresses it bound where it means those that
failed. The callback that sets options of a new socket changes none of this.
-/

namespace NetBase

open Lib

/-- A socket with the address it is bound to. -/
structure Listener (α : Type) where
  fd : Nat
  localAddress : α
  deriving DecidableEq, Repr

/-- What `bind` works on. -/
structure BindSys (α : Type) where
  opened : Nat → Bool
  contexts : Nat → Option FdContext
  listenSockets : List (Listener α)

/-- How the system calls of one attempt fare: the descriptor `socket` returns, if any, and whether
`bind` and `listen` succeed. -/
structure Attempt where
  socket : Option Nat
  bind : Bool
  listen : Bool
  deriving DecidableEq, Repr

def Attempt.succeeds (r : Attempt) : Bool := r.socket.isSome && r.bind && r.listen

namespace BindSys

variable {α : Type} (hooked : Bool)

/-- `socket`, which a thread with hooks enabled does through `co_socket`. -/
def socket (s : BindSys α) (fd : Nat) : BindSys α :=
  let s := { s with opened := Function.update s.opened fd true }
  if hooked then
    { s with contexts := Function.update s.contexts fd (some { isSocket := true }) }
  else s

def bindOne (s : BindSys α) (localAddress : α) (r : Attempt) : Bool × BindSys α :=
  match r.socket with
  | none => (false, s)
  | some fd =>
    let s := s.socket hooked fd
    if !r.bind then (false, s)
    else if !r.listen then (false, s)
    else (true, { s with listenSockets := s.listenSockets ++ [⟨fd, localAddress⟩] })

/-- The loop of `bind` over the addresses, with `bind_failed_addresses`. -/
def bindLoop (s : BindSys α) (failed : List α) : List (α × Attempt) → List α × BindSys α
  | [] => (failed, s)
  | (a, r) :: xs =>
    let (bound, s) := s.bindOne hooked a r
    if bound then s.bindLoop (failed ++ [a]) xs else (failed, s)

/-- `bind` of a list of addresses. -/
def bind (s : BindSys α) (xs : List (α × Attempt)) : Option (List α) × BindSys α :=
  if s.listenSockets.isEmpty then
    let (failed, s) := s.bindLoop hooked [] xs
    if failed.isEmpty then (none, s) else (some failed, s)
  else (some (xs.map Prod.fst), s)

/-! ## One attempt -/

/-- A call that returns false has changed nothing; one that returns true has opened one descriptor,
and listens on it. -/
def LeavesNothing (s : BindSys α) : Bool × BindSys α → Prop
  | (false, t) => t.opened = s.opened ∧
      (∀ fd, (t.contexts fd).isSome = (s.contexts fd).isSome) ∧ t.listenSockets = s.listenSockets
  | (true, t) => ∃ socket : Listener α, s.opened socket.fd = false ∧
      t.opened = Function.update s.opened socket.fd true ∧
      t.listenSockets = s.listenSockets ++ [socket]

@[simp] theorem socket_opened (s : BindSys α) (fd : Nat) :
    (s.socket hooked fd).opened = Function.update s.opened fd true := by
  unfold socket
  split <;> rfl

@[simp] theorem socket_listenSockets (s : BindSys α) (fd : Nat) :
    (s.socket hooked fd).listenSockets = s.listenSockets := by
  unfold socket
  split <;> rfl

/-- What an attempt does, by how its system calls fare. -/
theorem bindOne_cases (s : BindSys α) (a : α) (r : Attempt) :
    (r.socket = none ∧ s.bindOne hooked a r = (false, s)) ∨
    (∃ fd, r.socket = some fd ∧ (r.bind && r.listen) = false ∧
      s.bindOne hooked a r = (false, s.socket hooked fd)) ∨
    ∃ fd, r.socket = some fd ∧ (r.bind && r.listen) = true ∧
      s.bindOne hooked a r = (true, { s.socket hooked fd with
        listenSockets := s.listenSockets ++ [⟨fd, a⟩] }) := by
  obtain ⟨sock, b, l⟩ := r
  cases sock with
  | none => exact .inl ⟨rfl, rfl⟩
  | some fd =>
    refine .inr ?_
    cases b with
    | false => exact .inl ⟨fd, rfl, rfl, rfl⟩
    | true =>
      cases l with
      | false => exact .inl ⟨fd, rfl, rfl, rfl⟩
      | true =>
        refine .inr ⟨fd, rfl, rfl, ?_⟩
        rw [← socket_listenSockets hooked s fd]
        rfl

/-- An attempt leaves nothing behind exactly where `socket` fails, or nothing does: where `bind` or
`listen` fails, the descriptor stays open. -/
theorem bindOne_leavesNothing_iff (s : BindSys α) (a : α) (r : Attempt)
    (hnew : ∀ fd, r.socket = some fd → s.opened fd = false) :
    s.LeavesNothing (s.bindOne hooked a r) ↔
      r.socket = none ∨ (r.bind = true ∧ r.listen = true) := by
  obtain ⟨hs, he⟩ | ⟨fd, hs, hf, he⟩ | ⟨fd, hs, ht, he⟩ := bindOne_cases hooked s a r
  · rw [he]
    exact ⟨fun _ => .inl hs, fun _ => ⟨rfl, fun _ => rfl, rfl⟩⟩
  · rw [he]
    constructor
    · rintro ⟨ho, -⟩
      have hfd := congrFun ho fd
      rw [socket_opened, Function.update_self, hnew fd hs] at hfd
      cases hfd
    · rintro (h | ⟨hb, hl⟩)
      · rw [hs] at h
        cases h
      · rw [hb, hl] at hf
        cases hf
  · rw [he]
    rw [Bool.and_eq_true] at ht
    exact ⟨fun _ => .inr ht, fun _ => ⟨⟨fd, a⟩, hnew fd hs, socket_opened hooked s fd, rfl⟩⟩

/-- A server that gets to listen on 3, and one that gets no socket. -/
theorem bindOne_leavesNothing_listens :
    let s : BindSys String := ⟨fun fd => fd < 3, fun _ => none, []⟩
    s.LeavesNothing (s.bindOne true "a" ⟨some 3, true, true⟩) ∧
      s.LeavesNothing (s.bindOne true "a" ⟨none, false, false⟩) :=
  ⟨(bindOne_leavesNothing_iff true _ "a" ⟨some 3, true, true⟩ (by decide)).2 (by decide),
    (bindOne_leavesNothing_iff true _ "a" ⟨none, false, false⟩ (by decide)).2 (by decide)⟩

/-- `bind` fails on an address in use, and the descriptor 3 and its context stay. -/
theorem bindOne_leaks :
    let s : BindSys String := ⟨fun fd => fd < 3, fun _ => none, []⟩
    let t := (s.bindOne true "in use" ⟨some 3, false, true⟩).2
    (s.bindOne true "in use" ⟨some 3, false, true⟩).1 = false ∧ t.opened 3 = true ∧
      (t.contexts 3).isSome = true ∧
      ¬s.LeavesNothing (s.bindOne true "in use" ⟨some 3, false, true⟩) := by
  refine ⟨rfl, rfl, rfl, fun h => ?_⟩
  exact absurd (congrFun h.1 3) (by decide)

/-! ## A list of addresses -/

/-- What the loop binds: the addresses in front of the first one that cannot be bound. -/
def bound (xs : List (α × Attempt)) : List (α × Attempt) := xs.takeWhile fun x => x.2.succeeds

/-- The one that cannot be bound, and those behind it, which are not tried. -/
def unbound (xs : List (α × Attempt)) : List (α × Attempt) := xs.dropWhile fun x => x.2.succeeds

/-- The failed addresses are reported, and the server listens on the others. -/
structure Reports (xs : List (α × Attempt)) (r : Option (List α)) (t : BindSys α) : Prop where
  success : r = none ↔ unbound xs = []
  failures : ∀ l, r = some l → l = (unbound xs).map Prod.fst
  listens : t.listenSockets.map Listener.localAddress = (bound xs).map Prod.fst

theorem bindOne_fst (s : BindSys α) (a : α) (r : Attempt) :
    (s.bindOne hooked a r).1 = r.succeeds := by
  obtain ⟨hs, he⟩ | ⟨fd, hs, hf, he⟩ | ⟨fd, hs, ht, he⟩ := bindOne_cases hooked s a r
  · rw [he, Attempt.succeeds, hs]
    rfl
  · rw [he, Attempt.succeeds, hs, Option.isSome_some, Bool.true_and, hf]
  · rw [he, Attempt.succeeds, hs, Option.isSome_some, Bool.true_and, ht]

theorem bindOne_listens (s : BindSys α) (a : α) (r : Attempt) :
    ((s.bindOne hooked a r).2.listenSockets).map Listener.localAddress =
      s.listenSockets.map Listener.localAddress ++ if r.succeeds then [a] else [] := by
  rw [← bindOne_fst hooked s a r]
  obtain ⟨hs, he⟩ | ⟨fd, hs, hf, he⟩ | ⟨fd, hs, ht, he⟩ := bindOne_cases hooked s a r
  · rw [he]
    simp
  · rw [he]
    simp
  · rw [he]
    simp

/-- The loop collects what it binds. -/
theorem bindLoop_eq (s : BindSys α) (failed : List α) (xs : List (α × Attempt)) :
    (s.bindLoop hooked failed xs).1 = failed ++ (bound xs).map Prod.fst ∧
    (s.bindLoop hooked failed xs).2.listenSockets.map Listener.localAddress =
      s.listenSockets.map Listener.localAddress ++ (bound xs).map Prod.fst := by
  induction xs generalizing s failed with
  | nil => simp [bindLoop, bound]
  | cons x xs ih =>
    obtain ⟨a, r⟩ := x
    have hl := bindOne_listens hooked s a r
    have hf := bindOne_fst hooked s a r
    rw [bindLoop]
    simp only [hf, bound, List.takeWhile_cons]
    by_cases hr : r.succeeds
    · rw [if_pos hr] at hl
      obtain ⟨h1, h2⟩ := ih (s.bindOne hooked a r).2 (failed ++ [a])
      simp only [if_pos hr, List.map_cons]
      rw [h1, h2, hl, List.append_assoc, List.append_assoc]
      exact ⟨rfl, rfl⟩
    · rw [if_neg hr] at hl
      simp only [if_neg hr, hl, List.map_nil, List.append_nil, and_self]

theorem bind_eq (s : BindSys α) (hs : s.listenSockets = []) (xs : List (α × Attempt)) :
    (s.bind hooked xs).1 = (if bound xs = [] then none else some ((bound xs).map Prod.fst)) ∧
    (s.bind hooked xs).2.listenSockets.map Listener.localAddress = (bound xs).map Prod.fst := by
  obtain ⟨h1, h2⟩ := bindLoop_eq hooked s [] xs
  rw [hs, List.map_nil, List.nil_append] at h2
  rw [List.nil_append] at h1
  rw [bind, if_pos (by rw [hs]; rfl)]
  simp only [h1, List.isEmpty_iff, List.map_eq_nil_iff]
  split
  · exact ⟨rfl, h2⟩
  · exact ⟨rfl, h2⟩

/-- `bind` reports the failures exactly where the addresses it bound, as a list, are those it did
not bind: for the empty list, and for one that repeats itself once. -/
theorem bind_reports_iff (s : BindSys α) (hs : s.listenSockets = []) (xs : List (α × Attempt)) :
    Reports xs (s.bind hooked xs).1 (s.bind hooked xs).2 ↔
      (bound xs).map Prod.fst = (unbound xs).map Prod.fst := by
  obtain ⟨h1, h2⟩ := bind_eq hooked s hs xs
  rw [h1]
  by_cases hb : bound xs = []
  · rw [if_pos hb, hb, List.map_nil]
    constructor
    · intro h
      rw [h.success.1 rfl, List.map_nil]
    · intro h
      have hu := List.map_eq_nil_iff.1 h.symm
      refine ⟨⟨fun _ => hu, fun _ => rfl⟩, fun l hl => ?_, h2⟩
      cases hl
  · rw [if_neg hb]
    constructor
    · intro h
      exact h.failures _ rfl
    · intro h
      refine ⟨⟨fun hn => ?_, fun hu => ?_⟩, fun l hl => ?_, h2⟩
      · cases hn
      · rw [hu, List.map_nil, List.map_eq_nil_iff] at h
        exact absurd h hb
      · cases hl
        exact h

/-- The same address twice: it is bound once, and the second attempt finds it in use. -/
theorem bind_reports_twice :
    let s : BindSys String := ⟨fun fd => fd < 3, fun _ => none, []⟩
    let xs := [("a", ⟨some 3, true, true⟩), ("a", ⟨some 4, false, true⟩)]
    Reports xs (s.bind true xs).1 (s.bind true xs).2 :=
  (bind_reports_iff true _ rfl _).2 (by decide)

/-- One address that is bound is reported as failed; one that is not, as success. -/
theorem bind_reports_bound :
    let s : BindSys String := ⟨fun fd => fd < 3, fun _ => none, []⟩
    (s.bind true [("a", ⟨some 3, true, true⟩)]).1 = some ["a"] ∧
    ¬Reports [("a", ⟨some 3, true, true⟩)] (s.bind true [("a", ⟨some 3, true, true⟩)]).1
      (s.bind true [("a", ⟨some 3, true, true⟩)]).2 ∧
    (s.bind true [("a", ⟨some 3, false, true⟩)]).1 = none ∧
    ¬Reports [("a", ⟨some 3, false, true⟩)] (s.bind true [("a", ⟨some 3, false, true⟩)]).1
      (s.bind true [("a", ⟨some 3, false, true⟩)]).2 := by
  refine ⟨rfl, fun h => ?_, rfl, fun h => ?_⟩
  · cases h.success.2 rfl
  · cases h.success.1 rfl

end BindSys

/-! ## The server that runs -/

/-- The attempt as the running server sees it. -/
def Attempt.result (r : Attempt) : BindResult :=
  match r.socket with
  | none => .noSocket
  | some fd => if r.bind && r.listen then .listening fd else .failed fd

theorem TcpSys.bindOne_result {α : Type} {s t : TcpSys} {b : Bool} (x : α × Attempt)
    (h : s.bindOne x.2.result = some (b, t)) : b = x.2.succeeds ∧
      t.listenSockets = s.listenSockets ++ if x.2.succeeds then [⟨x.2.socket⟩] else [] := by
  obtain ⟨a, sock, bd, l⟩ := x
  cases sock with
  | none =>
    cases h
    simp [Attempt.succeeds]
  | some fd =>
    by_cases hbl : (bd && l) = true
    · rw [Attempt.result] at h
      simp only [hbl, if_true] at h
      obtain ⟨u, hu, heq⟩ := Option.map_eq_some_iff.1 h
      cases heq
      obtain rfl := openFd_eq hu
      simp [Attempt.succeeds, hbl]
    · rw [Attempt.result] at h
      simp only [hbl] at h
      obtain ⟨u, hu, heq⟩ := Option.map_eq_some_iff.1 h
      cases heq
      obtain rfl := openFd_eq hu
      simp [Attempt.succeeds, hbl]

/-- The running server listens on what the loop binds. -/
theorem TcpSys.bindLoop_listens {α : Type} {s t : TcpSys} {xs : List (α × Attempt)}
    (h : s.bindLoop (xs.map fun x => x.2.result) = some t) :
    t.listenSockets = s.listenSockets ++ (BindSys.bound xs).map fun x => ⟨x.2.socket⟩ := by
  induction xs generalizing s with
  | nil =>
    cases h
    simp [BindSys.bound]
  | cons x xs ih =>
    obtain ⟨⟨b, u⟩, hu, h⟩ := Option.bind_eq_some_iff.1 h
    obtain ⟨rfl, hl⟩ := bindOne_result x hu
    dsimp only at h
    rw [BindSys.bound, List.takeWhile_cons]
    by_cases hx : x.2.succeeds
    · rw [if_pos hx] at h hl ⊢
      rw [ih h, hl, List.map_cons, List.append_assoc]
      rfl
    · rw [if_neg hx] at h hl ⊢
      cases h
      exact hl

end NetBase
