import Mathlib.Tactic.Common

/-!
# Faults and vectors

`Fault` lists how a modelled call can leave defined behaviour or stop the process.
A `std::vector` is a list; `index` is `operator[]`, which faults past the end. The
descriptor tables of the library grow with `growFor`: when `fd` is not an index yet
the vector is resized to `static_cast<size_t>(fd * 1.5)`.
-/

namespace NetBase

inductive Fault where
  /-- `operator[]` past the end of a vector. -/
  | outOfRange
  /-- A member call through a null `Executor::Ptr`. -/
  | nullExecutor
  /-- `multiset::erase(end())`. -/
  | eraseEnd
  /-- An `assert` that does not hold. -/
  | assertFailed
  deriving DecidableEq, Repr

section
variable {α β : Type}

/-- A sequence of calls returns only if its first call does. -/
theorem ok_of_bind {x : Except Fault α} {f : α → Except Fault β} {b : β} (h : x >>= f = .ok b) :
    ∃ a, x = .ok a ∧ f a = .ok b := by
  cases x with
  | error e => cases h
  | ok a => exact ⟨a, rfl, h⟩

theorem ok_of_map {x : Except Fault α} {f : α → β} {b : β} (h : x.map f = .ok b) :
    ∃ a, x = .ok a ∧ f a = b := by
  cases x with
  | error e => cases h
  | ok a => exact ⟨a, rfl, Except.ok.inj h⟩

def index (v : List α) (i : Nat) : Except Fault α :=
  match v[i]? with
  | some a => .ok a
  | none => .error .outOfRange

/-- `v.resize(n)`, new elements equal to `d`. -/
def resize (d : α) (v : List α) (n : Nat) : List α := v.take n ++ List.replicate (n - v.length) d

def growFor (d : α) (v : List α) (fd : Nat) : List α :=
  if v.length ≤ fd then resize d v (fd * 3 / 2) else v

/-- `fd` is an index of `v` once `v` has grown for it. -/
def Fits (v : List α) (fd : Nat) : Prop := fd < v.length ∨ fd < fd * 3 / 2

instance (v : List α) (fd : Nat) : Decidable (Fits v fd) := inferInstanceAs (Decidable (_ ∨ _))

theorem index_ok {v : List α} {i : Nat} {a : α} : index v i = .ok a ↔ v[i]? = some a := by
  unfold index
  cases v[i]? <;> simp

theorem length_growFor {d : α} {v : List α} {fd : Nat} :
    v.length ≤ (growFor d v fd).length ∧ (fd < (growFor d v fd).length ↔ Fits v fd) := by
  unfold growFor Fits resize
  split
  · simp only [List.length_append, List.length_take, List.length_replicate]
    omega
  · omega

theorem getElem?_growFor (d : α) (v : List α) (fd i : Nat) :
    (growFor d v fd)[i]? = v[i]? ∨
      (v[i]? = none ∧ ((growFor d v fd)[i]? = none ∨ (growFor d v fd)[i]? = some d)) := by
  unfold growFor resize
  split
  · rename_i h
    rcases Nat.lt_or_ge i v.length with hi | hi
    · left
      rw [List.getElem?_append_left (by simp; omega), List.getElem?_take_of_lt (by omega)]
    · right
      refine ⟨List.getElem?_eq_none hi, ?_⟩
      rw [List.getElem?_append_right (by simp; omega), List.getElem?_replicate]
      split <;> simp
  · exact .inl rfl

/-- Growing a vector does not change what reads with the default element see. -/
theorem getD_growFor (d : α) (v : List α) (fd i : Nat) :
    (growFor d v fd)[i]?.getD d = v[i]?.getD d := by
  rcases getElem?_growFor d v fd i with h | ⟨h, h' | h'⟩
  · rw [h]
  · rw [h, h']
  · rw [h, h']; rfl

theorem growFor_at {d : α} {v : List α} {fd : Nat} (h : Fits v fd) :
    (growFor d v fd)[fd]? = some (v[fd]?.getD d) := by
  have hlt := (length_growFor (d := d)).2.2 h
  rw [← getD_growFor d v fd fd, List.getElem?_eq_getElem hlt]
  rfl

end

end NetBase
