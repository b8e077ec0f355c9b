import Freecoin.Shared

/-!
# bignum.c: numbers as byte arrays

`big_mult` reads its arguments with the least significant byte first,
`big_compare` compares from the first byte on, and `big_div` has an empty
body.
-/

namespace Freecoin

open Lib

/-- The inner loop of `big_mult`, `n` passes from `i` on. -/
def bigMultRow (a b : Mem) (j : ℕ) : ℕ → ℕ → UInt16 → Mem → Mem
  | 0, _, _, res => res
  | n + 1, i, carry, res =>
      let x := carry + (res (i + j)).toUInt16 + (a j).toUInt16 * (b i).toUInt16
      bigMultRow a b j n (i + 1) (x >>> 8) (res.write (i + j) [x.toUInt8])

/-- `big_mult(a, a_bytes, b, b_bytes, res)`. Both loops run to the width of the
result, so `a` and `b` are read that far too. -/
def bigMult (a : Mem) (aBytes : ℕ) (b : Mem) (bBytes : ℕ) (res : Mem) : Mem :=
  let w := aBytes + bBytes
  (List.range w).foldl (fun res j => bigMultRow a b j (w - j) 0 0 res)
    (res.write 0 (List.replicate w 0))

/-- `big_div(a, b, res)`. -/
def bigDiv (_a _b res : Mem) : Mem := res

/-- The loop of `big_compare`, `n` passes from `i` on. -/
def bigCompareFrom (a b : Mem) : ℕ → ℕ → ℤ
  | 0, _ => 0
  | n + 1, i => if a i < b i then -1 else if b i < a i then 1 else bigCompareFrom a b n (i + 1)

/-- `big_compare(a, b, bytes)`, for lengths that an `int` holds. -/
def bigCompare (a b : Mem) (bytes : ℕ) : ℤ := bigCompareFrom a b bytes 0

/-- Nothing is greater than all ones. -/
theorem bigCompareFrom_ones {a b : Mem} : ∀ {n i : ℕ}, (∀ k < n, b (i + k) = 0xff) →
    bigCompareFrom a b n i ≤ 0 := by
  intro n
  induction n with
  | zero => intro i _; exact Int.le_refl 0
  | succ n ih =>
      intro i h
      have hnot : ¬ b i < a i := by
        intro hlt
        have hfirst : b i = 0xff := h 0 (Nat.succ_pos n)
        rw [hfirst, UInt8.lt_iff_toNat_lt] at hlt
        exact absurd hlt (Nat.not_lt.mpr (Nat.le_of_lt_succ (a i).toNat_lt))
      rw [bigCompareFrom, if_neg hnot]
      split
      · decide
      · apply ih
        intro k hk
        rw [Nat.add_assoc, Nat.add_comm 1]
        exact h (k + 1) (Nat.succ_lt_succ hk)

end Freecoin
