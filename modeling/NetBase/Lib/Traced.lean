import Mathlib.Tactic.Common

/-!
# Computations that log

A `Traced ω ε α` logs events of type `ω` and returns or fails; what was logged before a failure
stays. Forgetting the log gives the plain computation: `result_bind` pushes `result` through a
sequence, so a logging program is compared with a plain one statement by statement.
-/

namespace NetBase.Lib

structure Traced (ω ε α : Type) where
  log : List ω
  result : Except ε α

namespace Traced

variable {ω ε α β γ : Type}

instance : Monad (Traced ω ε) where
  pure a := ⟨[], .ok a⟩
  bind x f :=
    match x.result with
    | .ok a => ⟨x.log ++ (f a).log, (f a).result⟩
    | .error e => ⟨x.log, .error e⟩

def emit (o : ω) : Traced ω ε Unit := ⟨[o], .ok ()⟩

/-- A computation that logs nothing. -/
def lift (x : Except ε α) : Traced ω ε α := ⟨[], x⟩

@[simp] theorem result_pure (a : α) : (pure a : Traced ω ε α).result = .ok a := rfl

@[simp] theorem log_pure (a : α) : (pure a : Traced ω ε α).log = [] := rfl

@[simp] theorem result_lift (x : Except ε α) : (lift x : Traced ω ε α).result = x := rfl

@[simp] theorem log_lift (x : Except ε α) : (lift x : Traced ω ε α).log = [] := rfl

@[simp] theorem result_emit (o : ω) : (emit o : Traced ω ε Unit).result = .ok () := rfl

@[simp] theorem log_emit (o : ω) : (emit o : Traced ω ε Unit).log = [o] := rfl

@[simp] theorem result_bind (x : Traced ω ε α) (f : α → Traced ω ε β) :
    (x >>= f).result = x.result >>= fun a => (f a).result := by
  simp only [bind]
  cases x.result <;> rfl

theorem bind_ok {x : Traced ω ε α} {a : α} (h : x.result = .ok a) (f : α → Traced ω ε β) :
    x >>= f = ⟨x.log ++ (f a).log, (f a).result⟩ := by simp only [bind, h]

theorem bind_error {x : Traced ω ε α} {e : ε} (h : x.result = .error e) (f : α → Traced ω ε β) :
    x >>= f = ⟨x.log, .error e⟩ := by simp only [bind, h]

@[simp] theorem pure_bind (a : α) (f : α → Traced ω ε β) :
    (pure a : Traced ω ε α) >>= f = f a := rfl

theorem bind_pure (x : Traced ω ε α) : (x >>= fun a => pure a) = x := by
  cases hx : x.result with
  | error e => rw [bind_error hx, ← hx]
  | ok a => rw [bind_ok hx, result_pure, log_pure, List.append_nil, ← hx]

theorem bind_assoc (x : Traced ω ε α) (f : α → Traced ω ε β) (g : β → Traced ω ε γ) :
    x >>= f >>= g = x >>= fun a => f a >>= g := by
  cases hx : x.result with
  | error e => rw [bind_error hx, bind_error hx, bind_error rfl]
  | ok a =>
    rw [bind_ok hx, bind_ok hx]
    cases hf : (f a).result with
    | error e => rw [bind_error rfl, bind_error hf]
    | ok b => rw [bind_ok rfl, bind_ok hf, List.append_assoc]

/-- What follows only matters when the first part returns. -/
theorem bind_congr {x : Traced ω ε α} {f g : α → Traced ω ε β}
    (h : ∀ a, x.result = .ok a → f a = g a) : x >>= f = x >>= g := by
  cases hx : x.result with
  | error e => rw [bind_error hx, bind_error hx]
  | ok a => rw [bind_ok hx, bind_ok hx, h a hx]

theorem mem_log_left {x : Traced ω ε α} {o : ω} (h : o ∈ x.log) (f : α → Traced ω ε β) :
    o ∈ (x >>= f).log := by
  cases hx : x.result with
  | error e => rw [bind_error hx]; exact h
  | ok a => rw [bind_ok hx]; exact List.mem_append_left _ h

theorem mem_log_right {x : Traced ω ε α} {a : α} {f : α → Traced ω ε β} {o : ω}
    (hx : x.result = .ok a) (h : o ∈ (f a).log) : o ∈ (x >>= f).log := by
  rw [bind_ok hx]
  exact List.mem_append_right _ h

theorem mem_log_bind {x : Traced ω ε α} {f : α → Traced ω ε β} {o : ω} (h : o ∈ (x >>= f).log) :
    o ∈ x.log ∨ ∃ a, x.result = .ok a ∧ o ∈ (f a).log := by
  cases hx : x.result with
  | error e => rw [bind_error hx] at h; exact .inl h
  | ok a =>
    rw [bind_ok hx] at h
    rcases List.mem_append.1 h with h | h
    · exact .inl h
    · exact .inr ⟨a, rfl, h⟩

end Traced

end NetBase.Lib
