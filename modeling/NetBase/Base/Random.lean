import NetBase.Base.StringPiece

/-!
# Random numbers

`mt19937RandomGen` of `base/random.h`: some number between two bounds.
-/

namespace NetBase

/-- What one call draws, for every pair of bounds. -/
structure RandomGen where
  gen : Nat → Nat → Nat
  le_gen : ∀ a b, a ≤ b → a ≤ gen a b
  gen_le : ∀ a b, a ≤ b → gen a b ≤ b

namespace RandomGen

/-- An index of a vector that has elements. -/
theorem gen_lt (g : RandomGen) {n : Nat} (hn : 0 < n) (hs : n < 0x10000000000000000) :
    g.gen 0 (sizeSub n 1) < n := by
  have h := g.gen_le 0 (sizeSub n 1) (Nat.zero_le _)
  rw [sizeSub_of_le hn hs] at h ⊢
  omega

/-- The generator that draws `v` where it can. -/
def drawing (v : Nat) : RandomGen where
  gen a b := max a (min v b)
  le_gen a _ _ := Nat.le_max_left a _
  gen_le _ b h := Nat.max_le.2 ⟨h, Nat.min_le_right v b⟩

theorem gen_drawing {v b : Nat} (h : v ≤ b) : (drawing v).gen 0 b = v := by
  show max 0 (min v b) = v
  omega

end RandomGen

end NetBase
