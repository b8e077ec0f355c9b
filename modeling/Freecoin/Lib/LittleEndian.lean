import Freecoin.Lib.Memory
import Mathlib.Data.Nat.Digits.Lemmas

/-!
# Numbers as byte strings, least significant byte first

The digits are bytes, so the number is `Nat.ofDigits` at base 256. Which of two
numbers of the same length is greater is decided by the last byte in which they
differ; a comparison from the first byte on looks at the first such byte.
-/

namespace Lib

/-- The number whose digits are the bytes, the least significant first. -/
def leNat (bs : Bytes) : ℕ := Nat.ofDigits 256 (bs.map UInt8.toNat)

@[simp] theorem leNat_nil : leNat [] = 0 := rfl

@[simp] theorem leNat_cons (b : UInt8) (bs : Bytes) :
    leNat (b :: bs) = b.toNat + 256 * leNat bs := Nat.ofDigits_cons

theorem leNat_append (bs cs : Bytes) :
    leNat (bs ++ cs) = leNat bs + 256 ^ bs.length * leNat cs := by
  rw [leNat, List.map_append, Nat.ofDigits_append, List.length_map]
  rfl

theorem leNat_lt (bs : Bytes) : leNat bs < 256 ^ bs.length := by
  have hdigits : ∀ x ∈ bs.map UInt8.toNat, x < 256 := by
    intro x hx
    obtain ⟨b, -, rfl⟩ := List.mem_map.mp hx
    exact b.toNat_lt
  have hlt := Nat.ofDigits_lt_base_pow_length (by decide) hdigits
  rwa [List.length_map] at hlt

theorem leNat_replicate_zero (n : ℕ) : leNat (List.replicate n 0) = 0 := by
  induction n with
  | zero => rfl
  | succ n ih => rw [List.replicate_succ, leNat_cons, ih]; rfl

/-- Byte strings of one length with one value are the same. -/
theorem leNat_inj {bs cs : Bytes} (hlength : bs.length = cs.length) (h : leNat bs = leNat cs) :
    bs = cs := by
  induction bs generalizing cs with
  | nil => exact (List.length_eq_zero_iff.mp hlength.symm).symm
  | cons b bs ih =>
      cases cs with
      | nil => cases hlength
      | cons c cs =>
          have hb := b.toNat_lt
          have hc := c.toNat_lt
          rw [leNat_cons, leNat_cons] at h
          have hhead : b = c := UInt8.toNat_inj.mp (by omega)
          have htail : bs = cs := ih (Nat.succ_injective hlength) (by omega)
          rw [hhead, htail]

/-- The `n` low digits of a number. -/
def leBytes : ℕ → ℕ → Bytes
  | 0, _ => []
  | n + 1, x => UInt8.ofNat x :: leBytes n (x / 256)

@[simp] theorem leBytes_length : ∀ n x : ℕ, (leBytes n x).length = n := by
  intro n
  induction n with
  | zero => intro x; rfl
  | succ n ih => intro x; rw [leBytes, List.length_cons, ih]

theorem leNat_leBytes : ∀ n x : ℕ, leNat (leBytes n x) = x % 256 ^ n := by
  intro n
  induction n with
  | zero => intro x; rw [Nat.pow_zero, Nat.mod_one]; rfl
  | succ n ih =>
      intro x
      have hpow : 256 ^ (n + 1) = 256 * 256 ^ n := Nat.pow_succ'
      rw [leBytes, leNat_cons, ih, hpow, Nat.mod_mul, UInt8.toNat_ofNat']

/-! ## Numbers in memory -/

namespace Mem

variable {a b m p : Mem}

/-- The number in the `len` bytes at offset `pos`. -/
def leValue (m : Mem) (pos len : ℕ) : ℕ := leNat (m.slice pos len)

@[simp] theorem leValue_zero (m : Mem) (pos : ℕ) : m.leValue pos 0 = 0 := rfl

theorem leValue_lt (m : Mem) (pos len : ℕ) : m.leValue pos len < 256 ^ len := by
  have hlt := leNat_lt (m.slice pos len)
  rwa [slice_length] at hlt

/-- The first `n` bytes and the `k` behind them. -/
theorem leValue_add (m : Mem) (pos n k : ℕ) :
    m.leValue pos (n + k) = m.leValue pos n + 256 ^ n * m.leValue (pos + n) k := by
  rw [leValue, slice_append, leNat_append, slice_length]
  rfl

theorem leValue_one (m : Mem) (pos : ℕ) : m.leValue pos 1 = (m pos).toNat := by
  simp [leValue, slice]

theorem leValue_succ (m : Mem) (pos n : ℕ) :
    m.leValue pos (n + 1) = (m pos).toNat + 256 * m.leValue (pos + 1) n := by
  rw [Nat.add_comm n, leValue_add, leValue_one, Nat.pow_one]

theorem leValue_succ_last (m : Mem) (pos n : ℕ) :
    m.leValue pos (n + 1) = m.leValue pos n + 256 ^ n * (m (pos + n)).toNat := by
  rw [leValue_add, leValue_one]

theorem leValue_congr {pos pos' len : ℕ} (h : ∀ i < len, m (pos + i) = p (pos' + i)) :
    m.leValue pos len = p.leValue pos' len := by
  rw [leValue, slice_eq_iff.mpr h]
  rfl

theorem leValue_eq_iff {pos pos' len : ℕ} :
    m.leValue pos len = p.leValue pos' len ↔ ∀ i < len, m (pos + i) = p (pos' + i) := by
  refine ⟨fun h => ?_, leValue_congr⟩
  apply slice_eq_iff.mp
  apply leNat_inj _ h
  rw [slice_length, slice_length]

/-- What lies behind the first `n` bytes does not count modulo `256 ^ n`. -/
theorem leValue_add_modEq (m : Mem) (pos n k : ℕ) :
    m.leValue pos (n + k) ≡ m.leValue pos n [MOD 256 ^ n] := by
  rw [leValue_add]
  exact Nat.add_mul_mod_self_left ..

theorem leValue_eq_mod (m : Mem) (pos : ℕ) {n k : ℕ} (h : n ≤ k) :
    m.leValue pos n = m.leValue pos k % 256 ^ n := by
  have hmod := leValue_add_modEq m pos n (k - n)
  rw [Nat.add_sub_cancel' h, Nat.ModEq, Nat.mod_eq_of_lt (leValue_lt m pos n)] at hmod
  exact hmod.symm

/-- A number that was written, and what lies behind it. -/
theorem leValue_write (m : Mem) (bs : Bytes) (n : ℕ) :
    (m.write 0 bs).leValue 0 (bs.length + n) =
      leNat bs + 256 ^ bs.length * m.leValue bs.length n := by
  have hbehind : (m.write 0 bs).leValue (0 + bs.length) n = m.leValue bs.length n := by
    apply leValue_congr
    intro i _
    rw [Nat.zero_add]
    exact write_after (by omega)
  rw [leValue_add, hbehind, leValue, slice_write]

theorem leValue_of_zeros {pos len : ℕ} (h : ∀ i < len, m (pos + i) = 0) :
    m.leValue pos len = 0 := by
  have hzeros : m.slice pos len = List.replicate len 0 := by
    apply List.eq_replicate_iff.mpr
    refine ⟨slice_length m pos len, ?_⟩
    intro b hb
    obtain ⟨i, hi, rfl⟩ := List.mem_map.mp hb
    exact h i (List.mem_range.mp hi)
  rw [leValue, hzeros, leNat_replicate_zero]

/-! ## Comparison -/

/-- The first of `n` bytes in which the memories differ. -/
structure FirstDiffers (a b : Mem) (n i : ℕ) : Prop where
  lt : i < n
  ne : a i ≠ b i
  before : ∀ k < i, a k = b k

/-- The last of `n` bytes in which the memories differ. -/
structure LastDiffers (a b : Mem) (n j : ℕ) : Prop where
  lt : j < n
  ne : a j ≠ b j
  after : ∀ k, j < k → k < n → a k = b k

theorem agree_or_firstDiffers (a b : Mem) (n : ℕ) : Agree n a b ∨ ∃ i, FirstDiffers a b n i := by
  by_cases h : ∃ i, i < n ∧ a i ≠ b i
  · right
    obtain ⟨hlt, hne⟩ := Nat.find_spec h
    refine ⟨Nat.find h, hlt, hne, ?_⟩
    intro k hk
    by_contra hdiff
    exact Nat.find_min h hk ⟨Nat.lt_trans hk hlt, hdiff⟩
  · left
    intro i hi
    by_contra hne
    exact h ⟨i, hi, hne⟩

theorem agree_or_lastDiffers (a b : Mem) (n : ℕ) : Agree n a b ∨ ∃ j, LastDiffers a b n j := by
  induction n with
  | zero => exact .inl fun i hi => absurd hi (Nat.not_lt_zero i)
  | succ n ih =>
      by_cases hn : a n = b n
      · -- the byte at `n` is equal, so nothing changes
        rcases ih with hagree | ⟨j, hj⟩
        · left
          intro i hi
          rcases Nat.lt_succ_iff_lt_or_eq.mp hi with hi | rfl
          · exact hagree i hi
          · exact hn
        · right
          refine ⟨j, Nat.lt_succ_of_lt hj.lt, hj.ne, ?_⟩
          intro k hjk hk
          rcases Nat.lt_succ_iff_lt_or_eq.mp hk with hk | rfl
          · exact hj.after k hjk hk
          · exact hn
      · right
        exact ⟨n, Nat.lt_succ_self n, hn, fun k hnk hk => absurd hk (Nat.not_lt.mpr hnk)⟩

/-- **The last byte in which two numbers differ decides** which is the smaller. -/
theorem LastDiffers.leValue_lt_iff {n j : ℕ} (h : LastDiffers a b n j) :
    a.leValue 0 n < b.leValue 0 n ↔ a j < b j := by
  have ha : a.leValue 0 j < 256 ^ j := leValue_lt a 0 j
  have hb : b.leValue 0 j < 256 ^ j := leValue_lt b 0 j
  -- the bytes behind the `j`-th are the same number
  have hrest : a.leValue (j + 1) (n - j - 1) = b.leValue (j + 1) (n - j - 1) := by
    apply leValue_congr
    intro i hi
    exact h.after _ (by omega) (by omega)
  have hsplit : ∀ m : Mem, m.leValue 0 n =
      m.leValue 0 j + 256 ^ j * ((m j).toNat + 256 * m.leValue (j + 1) (n - j - 1)) := by
    intro m
    have hn : n = j + (n - j - 1 + 1) := by have := h.lt; omega
    rw [hn, leValue_add, Nat.zero_add, leValue_succ, ← hn]
  rw [hsplit a, hsplit b, hrest, UInt8.lt_iff_toNat_lt]
  have hne : (a j).toNat ≠ (b j).toNat := fun heq => h.ne (UInt8.toNat_inj.mp heq)
  constructor
  · intro hlt
    by_contra hge
    have hstep : (b j).toNat + 1 ≤ (a j).toNat := by omega
    nlinarith
  · intro hlt
    have hstep : (a j).toNat + 1 ≤ (b j).toNat := hlt
    nlinarith

theorem LastDiffers.symm {n j : ℕ} (h : LastDiffers a b n j) : LastDiffers b a n j :=
  ⟨h.lt, Ne.symm h.ne, fun k hjk hk => (h.after k hjk hk).symm⟩

end Mem

end Lib
