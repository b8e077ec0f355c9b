import Freecoin.Bignum
import Freecoin.Lib.LittleEndian
import Freecoin.Lib.Traced

/-!
# bignum.c: what the byte arrays stand for

The comment at the head of the file says that the numbers are little endian.
`big_mult` keeps to that: its result is the product, modulo the width of the
result, of the two numbers that start at `a` and at `b`. Both of them are taken
as wide as the result, so the bytes behind the arguments are multiplied along.
`big_compare` goes from the first byte on, which is the least significant one.
-/

namespace Freecoin

open Lib

/-! ## One row -/

/-- A pass of the inner loop does not overflow its 16 bits. -/
theorem bigMult_pass {carry : UInt16} (hcarry : carry.toNat < 256) (r x y : UInt8) :
    (carry + r.toUInt16 + x.toUInt16 * y.toUInt16).toNat =
      carry.toNat + r.toNat + x.toNat * y.toNat := by
  have hr := r.toNat_lt
  have hx := x.toNat_lt
  have hy := y.toNat_lt
  have hmul : x.toNat * y.toNat ≤ 255 * 255 := Nat.mul_le_mul (by omega) (by omega)
  simp only [UInt16.toNat_add, UInt16.toNat_mul, UInt8.toNat_toUInt16]
  omega

theorem shiftRight_toNat (n : UInt16) : (n >>> 8).toNat = n.toNat / 256 := by
  rw [UInt16.toNat_shiftRight, show (8 : UInt16).toNat % 16 = 8 from rfl,
    Nat.shiftRight_eq_div_pow]

variable (a b : Mem)

/-- The row writes from `i + j` on. -/
theorem bigMultRow_before {j : ℕ} : ∀ (n i : ℕ) (carry : UInt16) (res : Mem) {k : ℕ}, k < i + j →
    bigMultRow a b j n i carry res k = res k := by
  intro n
  induction n with
  | zero => intro i carry res k _; rfl
  | succ n ih =>
      intro i carry res k hk
      rw [bigMultRow, ih _ _ _ (by omega)]
      exact Mem.write_before _ hk

/-- **A row** adds `a[j]` times the rest of `b` and the carry to the rest of the result,
modulo its width. -/
theorem bigMultRow_value {j : ℕ} : ∀ (n i : ℕ) (carry : UInt16) (res : Mem), carry.toNat < 256 →
    (bigMultRow a b j n i carry res).leValue (i + j) n ≡
      res.leValue (i + j) n + carry.toNat + (a j).toNat * b.leValue i n [MOD 256 ^ n] := by
  intro n
  induction n with
  | zero =>
      intro i carry res _
      rw [Nat.pow_zero]
      exact Nat.modEq_one
  | succ n ih =>
      intro i carry res hcarry
      rw [bigMultRow]
      generalize hx : carry + (res (i + j)).toUInt16 + (a j).toUInt16 * (b i).toUInt16 = x
      have hsum := bigMult_pass hcarry (res (i + j)) (a j) (b i)
      rw [hx] at hsum
      have hlt := x.toNat_lt
      have hcarry' : (x >>> 8).toNat < 256 := by rw [shiftRight_toNat]; omega
      have hrest := ih (i + 1) (x >>> 8) (res.write (i + j) [x.toUInt8]) hcarry'
      -- the byte just written stays, the bytes behind it were not touched yet
      have hfirst : bigMultRow a b j n (i + 1) (x >>> 8) (res.write (i + j) [x.toUInt8]) (i + j) =
          x.toUInt8 := by
        rw [bigMultRow_before a b n (i + 1) _ _ (by omega)]
        exact Mem.write_in (i := 0) rfl
      have hbehind : (res.write (i + j) [x.toUInt8]).leValue (i + 1 + j) n =
          res.leValue (i + 1 + j) n := by
        apply Mem.leValue_congr
        intro k _
        exact Mem.write_after (by simp only [List.length_singleton]; omega)
      have hnext : i + j + 1 = i + 1 + j := by omega
      rw [hbehind, shiftRight_toNat] at hrest
      rw [Mem.leValue_succ, hfirst, Mem.leValue_succ, Mem.leValue_succ, hnext,
        UInt16.toNat_toUInt8]
      calc x.toNat % 256 + 256 *
            (bigMultRow a b j n (i + 1) (x >>> 8) (res.write (i + j) [x.toUInt8])).leValue
              (i + 1 + j) n
          ≡ x.toNat % 256 + 256 * (res.leValue (i + 1 + j) n + x.toNat / 256 +
              (a j).toNat * b.leValue (i + 1) n) [MOD 256 ^ (n + 1)] := by
            rw [Nat.pow_succ']
            exact Nat.ModEq.add_left _ (Nat.ModEq.mul_left' 256 hrest)
        _ = (x.toNat % 256 + 256 * (x.toNat / 256)) +
              256 * (res.leValue (i + 1 + j) n + (a j).toNat * b.leValue (i + 1) n) := by ring
        _ = (res (i + j)).toNat + 256 * res.leValue (i + 1 + j) n + carry.toNat +
              (a j).toNat * ((b i).toNat + 256 * b.leValue (i + 1) n) := by
            rw [Nat.mod_add_div, hsum]
            ring

/-! ## All rows -/

/-- A congruence of what lies from byte `j` on. -/
theorem shifted_modEq {w j x y : ℕ} (hj : j ≤ w) (h : x ≡ y [MOD 256 ^ (w - j)]) :
    256 ^ j * x ≡ 256 ^ j * y [MOD 256 ^ w] := by
  have hmul := Nat.ModEq.mul_left' (256 ^ j) h
  rwa [← Nat.pow_add, Nat.add_sub_cancel' hj] at hmul

/-- The `j`-th row adds the `j`-th byte of `a`, at its place, times `b`. -/
theorem bigMultRow_step {w j : ℕ} (hj : j ≤ w) (res : Mem) :
    (bigMultRow a b j (w - j) 0 0 res).leValue 0 w ≡
      res.leValue 0 w + 256 ^ j * (a j).toNat * b.leValue 0 w [MOD 256 ^ w] := by
  have hw : j + (w - j) = w := Nat.add_sub_cancel' hj
  have hrow := bigMultRow_value a b (w - j) 0 0 res (j := j) (by decide)
  rw [show (0 : UInt16).toNat = 0 from rfl, Nat.add_zero, Nat.zero_add] at hrow
  have hlow : (bigMultRow a b j (w - j) 0 0 res).leValue 0 j = res.leValue 0 j := by
    apply Mem.leValue_congr
    intro k hk
    exact bigMultRow_before a b (w - j) 0 0 res (by omega)
  have hsplit : ∀ m : Mem, m.leValue 0 w = m.leValue 0 j + 256 ^ j * m.leValue j (w - j) := by
    intro m
    have hadd := Mem.leValue_add m 0 j (w - j)
    rwa [hw, Nat.zero_add] at hadd
  -- the row goes as far as the result, which cuts `b` off
  have hcut : b.leValue 0 (w - j) ≡ b.leValue 0 w [MOD 256 ^ (w - j)] := by
    have hmod := Mem.leValue_add_modEq b 0 (w - j) j
    rw [Nat.sub_add_cancel hj] at hmod
    exact hmod.symm
  calc (bigMultRow a b j (w - j) 0 0 res).leValue 0 w
      = res.leValue 0 j + 256 ^ j * (bigMultRow a b j (w - j) 0 0 res).leValue j (w - j) := by
        rw [hsplit, hlow]
    _ ≡ res.leValue 0 j + 256 ^ j * (res.leValue j (w - j) +
          (a j).toNat * b.leValue 0 (w - j)) [MOD 256 ^ w] :=
        (shifted_modEq hj hrow).add_left _
    _ ≡ res.leValue 0 j + 256 ^ j * (res.leValue j (w - j) +
          (a j).toNat * b.leValue 0 w) [MOD 256 ^ w] :=
        (shifted_modEq hj ((hcut.mul_left _).add_left _)).add_left _
    _ = res.leValue 0 w + 256 ^ j * (a j).toNat * b.leValue 0 w := by
        rw [hsplit res]
        ring

/-- After `j` rows the result is the product of the first `j` bytes of `a` with `b`. -/
theorem bigMult_rows_value {w : ℕ} (res : Mem) : ∀ j ≤ w,
    ((List.range j).foldl (fun res j => bigMultRow a b j (w - j) 0 0 res)
        (res.write 0 (List.replicate w 0))).leValue 0 w ≡
      a.leValue 0 j * b.leValue 0 w [MOD 256 ^ w] := by
  intro j
  induction j with
  | zero =>
      intro _
      rw [List.range_zero, List.foldl_nil, Mem.leValue,
        Mem.slice_write_of_length List.length_replicate, leNat_replicate_zero, Mem.leValue_zero,
        Nat.zero_mul]
  | succ j ih =>
      intro hj
      have hrows := ih (by omega)
      rw [List.range_succ, List.foldl_append, List.foldl_cons, List.foldl_nil]
      refine (bigMultRow_step a b (by omega) _).trans ((hrows.add_right _).trans ?_)
      rw [Mem.leValue_succ_last, Nat.zero_add, Nat.add_mul]

/-- **The product** of the numbers as wide as the result, modulo its width. -/
theorem bigMult_value (aBytes bBytes : ℕ) (res : Mem) :
    (bigMult a aBytes b bBytes res).leValue 0 (aBytes + bBytes) =
      a.leValue 0 (aBytes + bBytes) * b.leValue 0 (aBytes + bBytes) %
        256 ^ (aBytes + bBytes) := by
  have hrows := bigMult_rows_value a b res (aBytes + bBytes) (Nat.le_refl _)
  have hlt := Mem.leValue_lt (bigMult a aBytes b bBytes res) 0 (aBytes + bBytes)
  rw [← hrows]
  exact (Nat.mod_eq_of_lt hlt).symm

/-- It is the product of the arguments if and only if what the bytes behind them
contribute is lost modulo the width. -/
theorem bigMult_exact_iff (aBytes bBytes : ℕ) (res : Mem) :
    (bigMult a aBytes b bBytes res).leValue 0 (aBytes + bBytes) =
        a.leValue 0 aBytes * b.leValue 0 bBytes ↔
      256 ^ bBytes * (a.leValue 0 aBytes * b.leValue bBytes aBytes) +
          256 ^ aBytes * (a.leValue aBytes bBytes * b.leValue 0 bBytes) ≡
        0 [MOD 256 ^ (aBytes + bBytes)] := by
  have hfits : a.leValue 0 aBytes * b.leValue 0 bBytes < 256 ^ (aBytes + bBytes) := by
    rw [Nat.pow_add]
    exact Nat.mul_lt_mul'' (Mem.leValue_lt a 0 aBytes) (Mem.leValue_lt b 0 bBytes)
  have ha : a.leValue 0 (aBytes + bBytes) =
      a.leValue 0 aBytes + 256 ^ aBytes * a.leValue aBytes bBytes := by
    rw [Mem.leValue_add, Nat.zero_add]
  have hb : b.leValue 0 (aBytes + bBytes) =
      b.leValue 0 bBytes + 256 ^ bBytes * b.leValue bBytes aBytes := by
    rw [Nat.add_comm aBytes, Mem.leValue_add, Nat.zero_add]
  have hproduct : a.leValue 0 (aBytes + bBytes) * b.leValue 0 (aBytes + bBytes) =
      (a.leValue 0 aBytes * b.leValue 0 bBytes +
        (256 ^ bBytes * (a.leValue 0 aBytes * b.leValue bBytes aBytes) +
          256 ^ aBytes * (a.leValue aBytes bBytes * b.leValue 0 bBytes))) +
      256 ^ (aBytes + bBytes) * (a.leValue aBytes bBytes * b.leValue bBytes aBytes) := by
    rw [ha, hb, Nat.pow_add]
    ring
  rw [bigMult_value, hproduct, Nat.add_mul_mod_self_left]
  constructor
  · intro h
    apply Nat.ModEq.add_left_cancel' (a.leValue 0 aBytes * b.leValue 0 bBytes)
    rw [Nat.ModEq, h, Nat.add_zero, Nat.mod_eq_of_lt hfits]
  · intro h
    have hsum := h.add_left (a.leValue 0 aBytes * b.leValue 0 bBytes)
    rwa [Nat.ModEq, Nat.add_zero, Nat.mod_eq_of_lt hfits] at hsum

/-! ## What is read -/

/-- The two arrays `big_mult` is given. -/
inductive Operand : Type where
  | a
  | b
deriving DecidableEq

/-- `memset` is given a length that was negative. -/
inductive MemsetOverrun : Type where
  | negative

/-- A byte of an argument, with the offset it was read at. -/
def readOperand (which : Operand) (m : Mem) (i : ℕ) :
    Traced (Operand × ℕ) MemsetOverrun UInt8 := do
  Traced.event (which, i)
  return m i

/-- `bigMultRow`, with its reads. -/
def bigMultRowReads (j : ℕ) : ℕ → ℕ → UInt16 → Mem → Traced (Operand × ℕ) MemsetOverrun Mem
  | 0, _, _, res => pure res
  | n + 1, i, carry, res => do
      let aj ← readOperand .a a j
      let bi ← readOperand .b b i
      let x := carry + (res (i + j)).toUInt16 + aj.toUInt16 * bi.toUInt16
      bigMultRowReads j n (i + 1) (x >>> 8) (res.write (i + j) [x.toUInt8])

/-- `big_mult` with its reads, and with the lengths of the source: `w` is an `int`, so a
sum from `2 ^ 31` on is negative, and `2 ^ 32` is lost. -/
def bigMultReads (aBytes bBytes : UInt32) (res : Mem) :
    Traced (Operand × ℕ) MemsetOverrun Mem :=
  let w := (aBytes + bBytes).toNat
  if w < 2 ^ 31 then
    (List.range w).foldlM (fun res j => bigMultRowReads a b j (w - j) 0 0 res)
      (res.write 0 (List.replicate w 0))
  else Traced.lift (.error .negative)

theorem bigMultRowReads_result {j : ℕ} : ∀ (n i : ℕ) (carry : UInt16) (res : Mem),
    (bigMultRowReads a b j n i carry res).result = .ok (bigMultRow a b j n i carry res) := by
  intro n
  induction n with
  | zero => intro i carry res; rfl
  | succ n ih => intro i carry res; exact ih _ _ _

theorem bigMultRowReads_events {j : ℕ} : ∀ (n i : ℕ) (carry : UInt16) (res : Mem),
    (bigMultRowReads a b j n i carry res).events =
      (List.range' i n).flatMap fun i => [(.a, j), (.b, i)] := by
  intro n
  induction n with
  | zero => intro i carry res; rfl
  | succ n ih =>
      intro i carry res
      rw [List.range'_succ, List.flatMap_cons, ← ih (i + 1)]
      rfl

theorem bigMultRows_reads (w : ℕ) (res : Mem) :
    ((List.range w).foldlM (fun res j => bigMultRowReads a b j (w - j) 0 0 res) res).result =
        .ok ((List.range w).foldl (fun res j => bigMultRow a b j (w - j) 0 0 res) res) ∧
      ((List.range w).foldlM (fun res j => bigMultRowReads a b j (w - j) 0 0 res) res).events =
        (List.range w).flatMap fun j =>
          (List.range' 0 (w - j)).flatMap fun i => [(.a, j), (.b, i)] :=
  Traced.foldlM_total (fun res j => bigMultRowReads_result a b (j := j) (w - j) 0 0 res)
    (fun res j => bigMultRowReads_events a b (j := j) (w - j) 0 0 res) _ _

/-- With lengths whose sum is an `int` it is the loop over that sum. -/
theorem bigMultReads_result {aBytes bBytes : UInt32}
    (hint : aBytes.toNat + bBytes.toNat < 2 ^ 31) (res : Mem) :
    (bigMultReads a b aBytes bBytes res).result =
      .ok (bigMult a aBytes.toNat b bBytes.toNat res) := by
  have hw : (aBytes + bBytes).toNat = aBytes.toNat + bBytes.toNat := by
    rw [UInt32.toNat_add]
    omega
  rw [bigMultReads, hw, if_pos hint]
  exact (bigMultRows_reads a b _ _).1

/-- Every byte of `a` and of `b` as far as the result is wide is read. -/
theorem mem_bigMultReads_events {aBytes bBytes : UInt32} {res : Mem} {which : Operand} {k : ℕ}
    (hint : (aBytes + bBytes).toNat < 2 ^ 31) :
    (which, k) ∈ (bigMultReads a b aBytes bBytes res).events ↔ k < (aBytes + bBytes).toNat := by
  rw [bigMultReads]
  generalize (aBytes + bBytes).toNat = w at hint ⊢
  rw [if_pos hint, (bigMultRows_reads a b _ _).2]
  simp only [List.mem_flatMap, List.mem_range, List.mem_range'_1, List.mem_cons,
    List.not_mem_nil, or_false, Prod.mk.injEq, Nat.zero_add, Nat.zero_le, true_and]
  -- `a` is read at `j` in the first pass of row `j`, `b` at `i` in the first row
  cases which with
  | a =>
      simp only [true_and, reduceCtorEq, false_and, or_false]
      constructor
      · rintro ⟨j, hj, i, hi, rfl⟩
        exact hj
      · intro hk
        exact ⟨k, hk, 0, Nat.sub_pos_of_lt hk, rfl⟩
  | b =>
      simp only [reduceCtorEq, false_and, true_and, false_or]
      constructor
      · rintro ⟨j, hj, i, hi, rfl⟩
        exact Nat.lt_of_lt_of_le hi (Nat.sub_le w j)
      · intro hk
        exact ⟨0, Nat.zero_lt_of_lt hk, k, hk, rfl⟩

theorem bigMultRow_after {j : ℕ} : ∀ (n i : ℕ) (carry : UInt16) (res : Mem) {k : ℕ},
    i + j + n ≤ k → bigMultRow a b j n i carry res k = res k := by
  intro n
  induction n with
  | zero => intro i carry res k _; rfl
  | succ n ih =>
      intro i carry res k hk
      rw [bigMultRow, ih _ _ _ (by omega)]
      exact Mem.write_after (by rw [List.length_singleton]; omega)

/-- The bytes of the result from the width on are not written. -/
theorem bigMultReads_after {aBytes bBytes : UInt32} {res m : Mem} {k : ℕ}
    (h : (bigMultReads a b aBytes bBytes res).result = .ok m) (hk : (aBytes + bBytes).toNat ≤ k) :
    m k = res k := by
  rw [bigMultReads] at h
  generalize (aBytes + bBytes).toNat = w at h hk
  have hrows : ∀ (js : List ℕ) (res : Mem), (∀ j ∈ js, j ≤ w) →
      js.foldl (fun res j => bigMultRow a b j (w - j) 0 0 res) res k = res k := by
    intro js
    induction js with
    | nil => intro res _; rfl
    | cons j js ih =>
        intro res hjs
        obtain ⟨hj, hrest⟩ := List.forall_mem_cons.mp hjs
        rw [List.foldl_cons, ih _ hrest]
        exact bigMultRow_after a b _ _ _ _ (by omega)
  by_cases hint : w < 2 ^ 31
  · rw [if_pos hint, (bigMultRows_reads a b _ _).1] at h
    cases h
    rw [hrows _ _ fun j hj => Nat.le_of_lt (List.mem_range.mp hj)]
    exact Mem.write_after (by rw [List.length_replicate]; omega)
  · rw [if_neg hint] at h
    cases h

/-! ## Reads and product together -/

/-- `big_mult` reads the bytes of its arguments and no others, and leaves their product,
whatever the memory of the result held. -/
structure Multiplies (aBytes bBytes : UInt32) : Prop where
  reads_a : ∀ res k, (.a, k) ∈ (bigMultReads a b aBytes bBytes res).events → k < aBytes.toNat
  reads_b : ∀ res k, (.b, k) ∈ (bigMultReads a b aBytes bBytes res).events → k < bBytes.toNat
  product : ∀ res, ∃ m, (bigMultReads a b aBytes bBytes res).result = .ok m ∧
    m.leValue 0 (aBytes.toNat + bBytes.toNat) =
      a.leValue 0 aBytes.toNat * b.leValue 0 bBytes.toNat

variable {a b}

/-- A result that does not depend on what memory held is written over the whole width, which
is an `int`. -/
theorem bigMultReads_width {aBytes bBytes : UInt32} {value : ℕ}
    (h : ∀ res, ∃ m, (bigMultReads a b aBytes bBytes res).result = .ok m ∧
      m.leValue 0 (aBytes.toNat + bBytes.toNat) = value) :
    (aBytes + bBytes).toNat = aBytes.toNat + bBytes.toNat ∧ (aBytes + bBytes).toNat < 2 ^ 31 := by
  obtain ⟨m₀, hm₀, hzero⟩ := h fun _ => 0
  obtain ⟨m₁, hm₁, hone⟩ := h fun _ => 1
  constructor
  · by_contra hne
    have hlt : (aBytes + bBytes).toNat < aBytes.toNat + bBytes.toNat := by
      rw [UInt32.toNat_add] at hne ⊢
      omega
    have hbyte := Mem.leValue_eq_iff.mp (hzero.trans hone.symm) _ hlt
    rw [Nat.zero_add, bigMultReads_after a b hm₀ (Nat.le_refl _),
      bigMultReads_after a b hm₁ (Nat.le_refl _)] at hbyte
    cases hbyte
  · by_contra hge
    rw [bigMultReads, if_neg hge] at hm₀
    cases hm₀

/-- Arguments of length 0 are the only ones that are not read behind their end. -/
theorem multiplies_iff (aBytes bBytes : UInt32) :
    Multiplies a b aBytes bBytes ↔ aBytes = 0 ∧ bBytes = 0 := by
  constructor
  · intro h
    obtain ⟨hwidth, hint⟩ := bigMultReads_width h.product
    have hread : ∀ which k, k < (aBytes + bBytes).toNat →
        (which, k) ∈ (bigMultReads a b aBytes bBytes fun _ => 0).events :=
      fun which k hk => (mem_bigMultReads_events a b hint).mpr hk
    rw [hwidth] at hread
    have hb : ¬ 0 < bBytes.toNat := by
      intro hpos
      exact Nat.lt_irrefl _ (h.reads_a _ _ (hread .a aBytes.toNat (Nat.lt_add_of_pos_right hpos)))
    have ha : ¬ 0 < aBytes.toNat := by
      intro hpos
      exact Nat.lt_irrefl _ (h.reads_b _ _ (hread .b bBytes.toNat (Nat.lt_add_of_pos_left hpos)))
    exact ⟨UInt32.toNat_inj.mp (Nat.eq_zero_of_not_pos ha),
      UInt32.toNat_inj.mp (Nat.eq_zero_of_not_pos hb)⟩
  · rintro ⟨rfl, rfl⟩
    have hnone : ∀ which res k, (which, k) ∉ (bigMultReads a b 0 0 res).events := by
      intro which res k hk
      exact Nat.not_lt_zero k ((mem_bigMultReads_events a b (by decide)).mp hk)
    exact ⟨fun res k hk => absurd hk (hnone .a res k), fun res k hk => absurd hk (hnone .b res k),
      fun res => ⟨_, bigMultReads_result a b (by decide) res, rfl⟩⟩

/-- **`big_mult`.** It reads nothing behind its arguments and leaves their product if and
only if both have length 0. With lengths whose sum is an `int` the product alone
is right if and only if what the bytes behind the arguments contribute is lost
modulo the width of the result. -/
theorem bigMult_iff (a b : Mem) (aBytes bBytes : UInt32) :
    (Multiplies a b aBytes bBytes ↔ aBytes = 0 ∧ bBytes = 0) ∧
    (aBytes.toNat + bBytes.toNat < 2 ^ 31 →
      ((∀ res, ∃ m, (bigMultReads a b aBytes bBytes res).result = .ok m ∧
          m.leValue 0 (aBytes.toNat + bBytes.toNat) =
            a.leValue 0 aBytes.toNat * b.leValue 0 bBytes.toNat) ↔
        256 ^ bBytes.toNat * (a.leValue 0 aBytes.toNat * b.leValue bBytes.toNat aBytes.toNat) +
            256 ^ aBytes.toNat *
              (a.leValue aBytes.toNat bBytes.toNat * b.leValue 0 bBytes.toNat) ≡
          0 [MOD 256 ^ (aBytes.toNat + bBytes.toNat)])) := by
  refine ⟨multiplies_iff aBytes bBytes, fun hint => ?_⟩
  constructor
  · intro h
    obtain ⟨m, hm, hproduct⟩ := h fun _ => 0
    rw [bigMultReads_result a b hint] at hm
    cases hm
    exact (bigMult_exact_iff a b _ _ _).mp hproduct
  · intro hlost res
    exact ⟨_, bigMultReads_result a b hint res, (bigMult_exact_iff a b _ _ _).mpr hlost⟩

/-- Three times five, with zeros behind. -/
theorem bigMult_iff_fifteen : (1 : UInt32).toNat + (1 : UInt32).toNat < 2 ^ 31 ∧
    ∀ res, ∃ m, (bigMultReads (Mem.ofBytes [3]) (Mem.ofBytes [5]) 1 1 res).result = .ok m ∧
      m.leValue 0 2 = 15 := by
  have hint : (1 : UInt32).toNat + (1 : UInt32).toNat < 2 ^ 31 := by decide
  refine ⟨hint, ?_⟩
  exact ((bigMult_iff (Mem.ofBytes [3]) (Mem.ofBytes [5]) 1 1).2 hint).mpr (by decide)

/-- One times one, with ones behind: the second bytes are read, and the product is 513. -/
theorem bigMult_reads_behind :
    (Operand.a, 1) ∈ (bigMultReads (fun _ => 1) (fun _ => 1) 1 1 fun _ => 0).events ∧
    (Operand.b, 1) ∈ (bigMultReads (fun _ => 1) (fun _ => 1) 1 1 fun _ => 0).events ∧
    (bigMult (fun _ => 1) 1 (fun _ => 1) 1 fun _ => 0).leValue 0 2 = 513 ∧
    ¬ ∀ (a b : Mem) (aBytes bBytes : UInt32), Multiplies a b aBytes bBytes := by
  have hread : ∀ which, (which, 1) ∈
      (bigMultReads (fun _ => 1) (fun _ => 1) 1 1 fun _ => 0).events :=
    fun which => (mem_bigMultReads_events _ _ (by decide)).mpr (by decide)
  refine ⟨hread .a, hread .b, by decide, ?_⟩
  intro hall
  exact Nat.lt_irrefl 1 ((hall (fun _ => 1) (fun _ => 1) 1 1).reads_a _ _ (hread .a))

/-! ## Sums -/

variable (a b)

/-- `bigMultRow`, with the sum of each pass before `n` takes it. -/
def bigMultRowSums (j : ℕ) : ℕ → ℕ → UInt16 → Mem → Traced ℕ MemsetOverrun Mem
  | 0, _, _, res => pure res
  | n + 1, i, carry, res => do
      Traced.event (carry.toNat + (res (i + j)).toNat + (a j).toNat * (b i).toNat)
      let x := carry + (res (i + j)).toUInt16 + (a j).toUInt16 * (b i).toUInt16
      bigMultRowSums j n (i + 1) (x >>> 8) (res.write (i + j) [x.toUInt8])

/-- `big_mult` with its sums, and with the lengths of the source. -/
def bigMultSums (aBytes bBytes : UInt32) (res : Mem) : Traced ℕ MemsetOverrun Mem :=
  let w := (aBytes + bBytes).toNat
  if w < 2 ^ 31 then
    (List.range w).foldlM (fun res j => bigMultRowSums a b j (w - j) 0 0 res)
      (res.write 0 (List.replicate w 0))
  else Traced.lift (.error .negative)

theorem bigMultRowSums_result {j : ℕ} : ∀ (n i : ℕ) (carry : UInt16) (res : Mem),
    (bigMultRowSums a b j n i carry res).result = .ok (bigMultRow a b j n i carry res) := by
  intro n
  induction n with
  | zero => intro i carry res; rfl
  | succ n ih => intro i carry res; exact ih _ _ _

/-- The two traces are of one function. -/
theorem bigMultSums_result (aBytes bBytes : UInt32) (res : Mem) :
    (bigMultSums a b aBytes bBytes res).result = (bigMultReads a b aBytes bBytes res).result := by
  rw [bigMultSums, bigMultReads]
  split
  · rw [Traced.result_foldlM fun res j => bigMultRowSums_result a b (j := j) _ 0 0 res,
      Traced.result_foldlM fun res j => bigMultRowReads_result a b (j := j) _ 0 0 res]
  · rfl

/-- **No carry is lost**: a carry and two bytes make at most `2 ^ 16 - 1`, and the next
carry is a byte again. -/
theorem bigMultRowSums_fit {j : ℕ} : ∀ (n i : ℕ) (carry : UInt16) (res : Mem),
    carry.toNat < 256 → Traced.Records (· < 2 ^ 16) (bigMultRowSums a b j n i carry res) := by
  intro n
  induction n with
  | zero => intro i carry res _; exact .pure res
  | succ n ih =>
      intro i carry res hcarry
      have hsum := bigMult_pass hcarry (res (i + j)) (a j) (b i)
      rw [bigMultRowSums]
      generalize carry + (res (i + j)).toUInt16 + (a j).toUInt16 * (b i).toUInt16 = x at hsum ⊢
      have hlt := x.toNat_lt
      apply Traced.Records.bind
      · constructor
        intro sum hmem
        rw [Traced.events_event, List.mem_singleton] at hmem
        rw [hmem, ← hsum]
        exact hlt
      · intro _
        apply ih
        rw [shiftRight_toNat]
        omega

theorem bigMultSums_fit (aBytes bBytes : UInt32) (res : Mem) :
    Traced.Records (· < 2 ^ 16) (bigMultSums a b aBytes bBytes res) := by
  rw [bigMultSums]
  split
  · apply Traced.Records.foldlM
    intro res j
    exact bigMultRowSums_fit a b _ 0 0 res (by decide)
  · exact .lift _

/-- Every sum fits, and the result is the product of the two numbers as wide as it, modulo
its width, whatever the memory of the result held. -/
structure MultipliesModulo (aBytes bBytes : UInt32) : Prop where
  sums : ∀ res, ∀ n ∈ (bigMultSums a b aBytes bBytes res).events, n < 2 ^ 16
  product : ∀ res, ∃ m, (bigMultSums a b aBytes bBytes res).result = .ok m ∧
    m.leValue 0 (aBytes.toNat + bBytes.toNat) =
      a.leValue 0 (aBytes.toNat + bBytes.toNat) * b.leValue 0 (aBytes.toNat + bBytes.toNat) %
        256 ^ (aBytes.toNat + bBytes.toNat)

/-- **The core of `big_mult`** is right for every width that is an `int`, and for no
other. -/
theorem multipliesModulo_iff (aBytes bBytes : UInt32) :
    MultipliesModulo a b aBytes bBytes ↔ aBytes.toNat + bBytes.toNat < 2 ^ 31 := by
  constructor
  · intro h
    have hproduct := h.product
    simp only [bigMultSums_result] at hproduct
    obtain ⟨hwidth, hint⟩ := bigMultReads_width hproduct
    rwa [hwidth] at hint
  · intro hint
    refine ⟨fun res => (bigMultSums_fit a b aBytes bBytes res).kind, fun res => ?_⟩
    refine ⟨bigMult a aBytes.toNat b bBytes.toNat res, ?_, bigMult_value a b _ _ res⟩
    rw [bigMultSums_result, bigMultReads_result a b hint]

/-- A width of `2 ^ 31` is negative as an `int`. -/
theorem bigMult_width_negative :
    (bigMultSums (fun _ => 0) (fun _ => 0) 0x80000000 0 fun _ => 0).result =
      .error .negative ∧
    ¬ ∀ (a b : Mem) (aBytes bBytes : UInt32), MultipliesModulo a b aBytes bBytes := by
  have hnegative : (bigMultSums (fun _ => 0) (fun _ => 0) 0x80000000 0 fun _ => 0).result =
      .error .negative := by
    rw [bigMultSums, if_neg (by decide)]
    rfl
  refine ⟨hnegative, ?_⟩
  intro hall
  obtain ⟨m, hm, -⟩ := (hall (fun _ => 0) (fun _ => 0) 0x80000000 0).product fun _ => 0
  rw [hnegative] at hm
  cases hm

variable {a b}

/-! ## Comparison -/

/-- Equal bytes are passed over. -/
theorem bigCompareFrom_skip {n : ℕ} : ∀ {k i : ℕ}, (∀ l < k, a (i + l) = b (i + l)) →
    bigCompareFrom a b (k + n) i = bigCompareFrom a b n (i + k) := by
  intro k
  induction k with
  | zero => intro i _; rw [Nat.zero_add, Nat.add_zero]
  | succ k ih =>
      intro i h
      have hfirst : a i = b i := h 0 (Nat.succ_pos k)
      rw [Nat.succ_add, bigCompareFrom, hfirst, if_neg (UInt8.lt_irrefl _),
        if_neg (UInt8.lt_irrefl _), ih, Nat.add_assoc, Nat.add_comm 1]
      intro l hl
      rw [Nat.add_assoc, Nat.add_comm 1]
      exact h (l + 1) (Nat.succ_lt_succ hl)

theorem bigCompare_of_agree {n : ℕ} (h : Mem.Agree n a b) : bigCompare a b n = 0 := by
  have hall : ∀ l < n, a (0 + l) = b (0 + l) := by
    intro l hl
    rw [Nat.zero_add]
    exact h l hl
  exact bigCompareFrom_skip (n := 0) hall

/-- **The first byte in which the arrays differ** decides the comparison. -/
theorem bigCompare_of_firstDiffers {n i : ℕ} (h : Mem.FirstDiffers a b n i) :
    bigCompare a b n = if a i < b i then -1 else 1 := by
  have hn : i + (n - i - 1 + 1) = n := by have := h.lt; omega
  have hbefore : ∀ l < i, a (0 + l) = b (0 + l) := by
    intro l hl
    rw [Nat.zero_add]
    exact h.before l hl
  have hskip := bigCompareFrom_skip (n := n - i - 1 + 1) hbefore
  rw [hn, Nat.zero_add, bigCompareFrom] at hskip
  rw [bigCompare, hskip]
  by_cases hlt : a i < b i
  · rw [if_pos hlt, if_pos hlt]
  · have hgt : b i < a i := UInt8.lt_of_le_of_ne (UInt8.not_lt.mp hlt) (Ne.symm h.ne)
    rw [if_neg hlt, if_neg hlt, if_pos hgt]

/-- The loop of `big_compare` with its counter, an `int`, `n` passes from `i` on. -/
def bigCompareInt (a b : Mem) : ℕ → ℕ → Except IntOverflow ℤ
  | 0, i => if 2 ^ 31 ≤ i then .error .position else .ok 0
  | n + 1, i =>
      if 2 ^ 31 ≤ i then .error .position
      else if a i < b i then .ok (-1)
      else if b i < a i then .ok 1
      else bigCompareInt a b n (i + 1)

/-- The counter stays an `int` as long as one of the bytes it comes to differs, or their
number is one. -/
theorem bigCompareInt_iff {n : ℕ} : ∀ {i : ℕ}, i ≤ 2 ^ 31 →
    (bigCompareInt a b n i = .ok (bigCompareFrom a b n i) ↔
      i + n < 2 ^ 31 ∨ ∃ k < n, i + k < 2 ^ 31 ∧ a (i + k) ≠ b (i + k)) := by
  induction n with
  | zero =>
      intro i _
      rw [bigCompareInt]
      by_cases hi : 2 ^ 31 ≤ i
      · rw [if_pos hi]
        refine iff_of_false (fun h => by cases h) ?_
        rintro (hlt | ⟨k, hk, -⟩)
        · exact absurd hi (Nat.not_le.mpr hlt)
        · exact absurd hk (Nat.not_lt_zero k)
      · rw [if_neg hi]
        exact iff_of_true rfl (.inl (Nat.not_le.mp hi))
  | succ n ih =>
      intro i hi
      rw [bigCompareInt, bigCompareFrom]
      by_cases hmax : 2 ^ 31 ≤ i
      · rw [if_pos hmax]
        refine iff_of_false (fun h => by cases h) ?_
        rintro (hlt | ⟨k, -, hlt, -⟩)
        · omega
        · omega
      rw [if_neg hmax]
      have hfirst : ∀ hne : a i ≠ b i, i + (n + 1) < 2 ^ 31 ∨
          ∃ k < n + 1, i + k < 2 ^ 31 ∧ a (i + k) ≠ b (i + k) := fun hne =>
        .inr ⟨0, Nat.succ_pos n, Nat.not_le.mp hmax, hne⟩
      by_cases hlt : a i < b i
      · rw [if_pos hlt, if_pos hlt]
        exact iff_of_true rfl (hfirst (UInt8.ne_of_lt hlt))
      rw [if_neg hlt, if_neg hlt]
      by_cases hgt : b i < a i
      · rw [if_pos hgt, if_pos hgt]
        exact iff_of_true rfl (hfirst (UInt8.ne_of_lt hgt).symm)
      rw [if_neg hgt, if_neg hgt, ih (Nat.succ_le_of_lt (Nat.not_le.mp hmax))]
      have hsame : a i = b i := UInt8.le_antisymm (UInt8.not_lt.mp hgt) (UInt8.not_lt.mp hlt)
      constructor
      · rintro (hall | ⟨k, hk, hbelow, hne⟩)
        · exact .inl (by omega)
        · rw [Nat.succ_add_eq_add_succ] at hbelow hne
          exact .inr ⟨k + 1, Nat.succ_lt_succ hk, hbelow, hne⟩
      · rintro (hall | ⟨k, hk, hbelow, hne⟩)
        · exact .inl (by omega)
        · cases k with
          | zero => exact absurd hsame hne
          | succ k =>
              rw [← Nat.succ_add_eq_add_succ] at hbelow hne
              exact .inr ⟨k, Nat.lt_of_succ_lt_succ hk, hbelow, hne⟩

/-- The sign of the comparison is that of the numbers. -/
structure SignOfValues (a b : Mem) (n : ℕ) : Prop where
  lt : bigCompare a b n < 0 ↔ a.leValue 0 n < b.leValue 0 n
  eq : bigCompare a b n = 0 ↔ a.leValue 0 n = b.leValue 0 n
  gt : 0 < bigCompare a b n ↔ b.leValue 0 n < a.leValue 0 n

theorem SignOfValues.of_agree {n : ℕ} (h : Mem.Agree n a b) : SignOfValues a b n := by
  have hvalue : a.leValue 0 n = b.leValue 0 n := by
    apply Mem.leValue_congr
    intro k hk
    rw [Nat.zero_add]
    exact h k hk
  have hzero := bigCompare_of_agree h
  refine ⟨?_, iff_of_true hzero hvalue, ?_⟩
  · rw [hzero, hvalue]
    exact iff_of_false (Int.lt_irrefl 0) (Nat.lt_irrefl _)
  · rw [hzero, hvalue]
    exact iff_of_false (Int.lt_irrefl 0) (Nat.lt_irrefl _)

theorem SignOfValues.of_lt {n : ℕ} (h : bigCompare a b n = -1)
    (hvalue : a.leValue 0 n < b.leValue 0 n) : SignOfValues a b n := by
  constructor
  · rw [h]
    exact iff_of_true (by decide) hvalue
  · rw [h]
    exact iff_of_false (by decide) (Nat.ne_of_lt hvalue)
  · rw [h]
    exact iff_of_false (by decide) (Nat.not_lt_of_lt hvalue)

theorem SignOfValues.of_gt {n : ℕ} (h : bigCompare a b n = 1)
    (hvalue : b.leValue 0 n < a.leValue 0 n) : SignOfValues a b n := by
  constructor
  · rw [h]
    exact iff_of_false (by decide) (Nat.not_lt_of_lt hvalue)
  · rw [h]
    exact iff_of_false (by decide) (Nat.ne_of_gt hvalue)
  · rw [h]
    exact iff_of_true (by decide) hvalue

theorem signOfValues_iff (a b : Mem) (n : ℕ) :
    SignOfValues a b n ↔
      ∀ i j, Mem.FirstDiffers a b n i → Mem.LastDiffers a b n j → (a i < b i ↔ a j < b j) := by
  constructor
  · intro h i j hfirst hlast
    rw [← hlast.leValue_lt_iff, ← h.lt, bigCompare_of_firstDiffers hfirst]
    by_cases hlt : a i < b i
    · rw [if_pos hlt]
      exact iff_of_true hlt (by decide)
    · rw [if_neg hlt]
      exact iff_of_false hlt (by decide)
  · intro h
    rcases Mem.agree_or_firstDiffers a b n with hagree | ⟨i, hfirst⟩
    · exact .of_agree hagree
    · rcases Mem.agree_or_lastDiffers a b n with hagree | ⟨j, hlast⟩
      · exact absurd (hagree i hfirst.lt) hfirst.ne
      · have hcompare := bigCompare_of_firstDiffers hfirst
        have halike := h i j hfirst hlast
        by_cases hlt : a i < b i
        · rw [if_pos hlt] at hcompare
          exact .of_lt hcompare (hlast.leValue_lt_iff.mpr (halike.mp hlt))
        · rw [if_neg hlt] at hcompare
          have hle : b j ≤ a j := UInt8.not_lt.mp fun hj => hlt (halike.mpr hj)
          have hgt : b j < a j := UInt8.lt_of_le_of_ne hle (Ne.symm hlast.ne)
          exact .of_gt hcompare (hlast.symm.leValue_lt_iff.mpr hgt)

/-- `big_compare(a, b, bytes)` comes to an end, and orders the arrays as the numbers they
stand for. -/
structure ComparesValues (a b : Mem) (bytes : UInt32) : Prop where
  ends : bigCompareInt a b bytes.toNat 0 = .ok (bigCompare a b bytes.toNat)
  sign : SignOfValues a b bytes.toNat

/-- **`big_compare`** orders two arrays as the numbers they stand for if and only if the
first and the last byte in which they differ are ordered alike, and the counter gets to
the first of them or to the end of the arrays as an `int`. -/
theorem bigCompare_iff (a b : Mem) (bytes : UInt32) :
    ComparesValues a b bytes ↔
      (bytes.toNat < 2 ^ 31 ∨ ∃ i < 2 ^ 31, a i ≠ b i) ∧
      ∀ i j, Mem.FirstDiffers a b bytes.toNat i → Mem.LastDiffers a b bytes.toNat j →
        (a i < b i ↔ a j < b j) := by
  have hends : bigCompareInt a b bytes.toNat 0 = .ok (bigCompare a b bytes.toNat) ↔
      bytes.toNat < 2 ^ 31 ∨ ∃ i < 2 ^ 31, a i ≠ b i := by
    rw [bigCompare, bigCompareInt_iff (Nat.zero_le _), Nat.zero_add]
    constructor
    · rintro (hall | ⟨k, -, hbelow, hne⟩)
      · exact .inl hall
      · rw [Nat.zero_add] at hbelow hne
        exact .inr ⟨k, hbelow, hne⟩
    · rintro (hall | ⟨k, hbelow, hne⟩)
      · exact .inl hall
      · rcases Nat.lt_or_ge bytes.toNat (2 ^ 31) with hall | hlong
        · exact .inl hall
        · refine .inr ⟨k, Nat.lt_of_lt_of_le hbelow hlong, ?_⟩
          rw [Nat.zero_add]
          exact ⟨hbelow, hne⟩
  rw [← hends, ← signOfValues_iff]
  exact ⟨fun h => ⟨h.ends, h.sign⟩, fun h => ⟨h.1, h.2⟩⟩

/-- The array `01 00` stands for 1 and `00 01` for 256, and the first compares as greater. -/
theorem bigCompare_not_values :
    (Mem.ofBytes [1, 0]).leValue 0 2 < (Mem.ofBytes [0, 1]).leValue 0 2 ∧
    0 < bigCompare (Mem.ofBytes [1, 0]) (Mem.ofBytes [0, 1]) 2 ∧
    ¬ ∀ (a b : Mem) (bytes : UInt32), ComparesValues a b bytes := by
  have hvalue : (Mem.ofBytes [1, 0]).leValue 0 2 < (Mem.ofBytes [0, 1]).leValue 0 2 := by decide
  have hcompare : 0 < bigCompare (Mem.ofBytes [1, 0]) (Mem.ofBytes [0, 1]) 2 := by decide
  refine ⟨hvalue, hcompare, ?_⟩
  intro hall
  exact Int.lt_asymm hcompare
    ((hall (Mem.ofBytes [1, 0]) (Mem.ofBytes [0, 1]) 2).sign.lt.mpr hvalue)

end Freecoin
