import Mathlib.Data.List.Basic

/-!
# Splitting strings

`splitStringPiece` of `src/base/string_piece.cpp`, for any separator. A `StringPiece` is a view: an
offset into the string it was taken from, and a size. Offsets and sizes are `size_t`. A separator
at the end of the string is not followed by an empty piece.
-/

namespace NetBase

/-! ## `size_t` -/

def sizeSub (a b : Nat) : Nat := (a + 0x10000000000000000 - b) % 0x10000000000000000

def sizeAdd (a b : Nat) : Nat := (a + b) % 0x10000000000000000

theorem sizeSub_of_le {a b : Nat} (h : b ≤ a) (ha : a < 0x10000000000000000) :
    sizeSub a b = a - b := by
  unfold sizeSub
  omega

/-! ## The pieces of a string -/

structure StringPiece where
  data : Nat
  size : Nat
  deriving DecidableEq, Repr

namespace StringPiece

variable {α : Type}

/-- The text a view of `s` shows. -/
def text (s : List α) (p : StringPiece) : List α := (s.drop p.data).take p.size

variable [DecidableEq α]

/-- `std::string_view::find`: the first occurrence of `w` from `pos` on. -/
def find (s w : List α) (pos : Nat) : Option Nat :=
  (List.range' pos (s.length + 1 - pos)).find? fun i => w.isPrefixOf (s.drop i)

theorem find_ge {s w : List α} {pos i : Nat} (h : find s w pos = some i) : pos ≤ i := by
  have := List.mem_of_find?_eq_some h
  rw [List.mem_range'_1] at this
  exact this.1

end StringPiece

variable {α : Type} [DecidableEq α]

/-- The loop of `splitStringPiece`. -/
def splitLoop (str world : List α) (index : Nat) : List StringPiece :=
  if index < str.length then
    match h : StringPiece.find str world index with
    | some current =>
      have _ := StringPiece.find_ge h
      ⟨index, sizeAdd (sizeSub (sizeSub current index) world.length) 1⟩ ::
        splitLoop str world (current + 1)
    | none => [⟨index, str.length - index⟩]
  else []
termination_by str.length - index

def splitStringPiece (str world : List α) : List StringPiece :=
  if world.length = 0 then [] else splitLoop str world 0

theorem splitLoop_eq_nil_iff {str world : List α} {index : Nat} :
    splitLoop str world index = [] ↔ str.length ≤ index := by
  unfold splitLoop
  split
  · split <;> simp <;> omega
  · simp
    omega

/-- Only the empty string has no piece. -/
theorem splitStringPiece_eq_nil_iff {str world : List α} (h : world ≠ []) :
    splitStringPiece str world = [] ↔ str = [] := by
  rw [splitStringPiece, if_neg (by simpa using h), splitLoop_eq_nil_iff]
  simp

end NetBase
