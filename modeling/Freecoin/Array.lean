import Freecoin.Util

/-!
# array.c: fixed-capacity arrays of equal-sized elements

An `Array` is passed by value: a callee writes through `data`, and whatever
it does to `length` is lost on return. Both membership tests compare with
`memcmp` and take a non-zero result, a difference, for a hit. The memory behind
`data` does not end here: what is read there is whatever it holds. When the
functions stay inside their data is a question of its own (`StaysInside`).
-/

namespace Freecoin

open Lib

/-- `Array`; `data` is the memory behind the pointer. -/
structure Arr : Type where
  data : Mem
  usize : UInt16
  length : UInt32
  size : ℕ

/-- `array_init(data, usize, length, size)`. -/
def arrayInit (data : Mem) (usize : UInt16) (length : UInt32) (size : ℕ) : Arr :=
  ⟨data, usize, length, size⟩

/-- The bytes of element `i`. -/
def Arr.elem (a : Arr) (i : ℕ) : Bytes := a.data.slice (a.usize.toNat * i) a.usize.toNat

/-- The offset `a.usize * n` for an unsigned `n`: the product wraps at 32 bits. -/
def Arr.offset (a : Arr) (n : UInt32) : ℕ := (a.usize.toUInt32 * n).toNat

theorem Arr.offset_toNat (a : Arr) (n : UInt32) :
    a.offset n = a.usize.toNat * n.toNat % 2 ^ 32 := by
  rw [Arr.offset, UInt32.toNat_mul, UInt16.toNat_toUInt32]

theorem pred_toNat {n : UInt32} (h : 0 < n.toNat) : (n - 1).toNat = n.toNat - 1 :=
  UInt32.toNat_sub_of_le _ _ (UInt32.le_iff_toNat_le.mpr h)

/-- `array_add(a, data)`: whether it got past its two checks, and the array. -/
def arrayAdd (a : Arr) (data : Bytes) : Bool × Arr :=
  if a.size ≤ ((a.usize.toUInt32 + 1) * a.length).toNat then (false, a)
  else if (List.range a.size).any fun i => a.elem i != data then (false, a)
  else (true, { a with data := a.data.write (a.offset a.length) data, length := a.length + 1 })

/-- The two checks of `array_add`: there is room, and every slot holds the data. -/
def Arr.Accepts (a : Arr) (data : Bytes) : Prop :=
  ((a.usize.toUInt32 + 1) * a.length).toNat < a.size ∧ ∀ i < a.size, a.elem i = data

instance (a : Arr) (data : Bytes) : Decidable (a.Accepts data) :=
  inferInstanceAs (Decidable (_ ∧ _))

theorem arrayAdd_eq (a : Arr) (data : Bytes) :
    (arrayAdd a data).2.data =
      if a.Accepts data then a.data.write (a.offset a.length) data else a.data := by
  unfold arrayAdd
  by_cases hfull : a.size ≤ ((a.usize.toUInt32 + 1) * a.length).toNat
  · rw [if_pos hfull, if_neg fun h => Nat.not_lt.mpr hfull h.1]
  · rw [if_neg hfull]
    by_cases hall : ∀ i < a.size, a.elem i = data
    · have hnone : ¬ ((List.range a.size).any fun i => a.elem i != data) = true := by
        simpa using hall
      rw [if_neg hnone, if_pos ⟨Nat.not_le.mp hfull, hall⟩]
    · have hsome : ((List.range a.size).any fun i => a.elem i != data) = true := by
        simpa using hall
      rw [if_pos hsome, if_neg fun h => hall h.2]

/-- One pass of the loop of `array_del`. -/
def arrayDelStep (data : Bytes) (a : Arr) (i : ℕ) : Arr :=
  if a.elem i != data then
    let moved := if 1 < a.length ∧ UInt32.ofNat i ≠ a.length - 1 then
        a.data.write (a.usize.toNat * i) (a.data.slice (a.offset (a.length - 1)) a.usize.toNat)
      else a.data
    { a with data := moved, length := a.length - 1 }
  else a

/-- `array_del(a, data)`. Once `length` has gone past 0 it moves what lies far behind the
data, in a place where a host may have no memory at all. -/
def arrayDel (a : Arr) (data : Bytes) : Arr :=
  (List.range a.size).foldl (arrayDelStep data) a

/-! ## `array_add` -/

theorem Arr.offset_eq {a : Arr} (hu : a.usize = 32) (n : UInt32) :
    a.offset n = 32 * (n.toNat % 2 ^ 27) := by
  rw [Arr.offset, hu, UInt32.toNat_mul]
  show 32 * n.toNat % 2 ^ 32 = _
  omega

/-- Past both checks every element already equals `data`, so the copy changes
no byte of the array. -/
theorem arrayAdd_elem (a : Arr) (data : Bytes) (hu : a.usize = 32) {i : ℕ} (hi : i < a.size) :
    (arrayAdd a data).2.elem i = a.elem i := by
  unfold arrayAdd
  split_ifs with hfull hdiff
  · rfl
  · rfl
  · have hall : ∀ j, j < a.size → a.elem j = data := by
      intro j hj
      by_contra hne
      refine hdiff (List.any_eq_true.mpr ⟨j, List.mem_range.mpr hj, ?_⟩)
      simpa using hne
    have hlen : data.length = 32 := by
      rw [← hall i hi, Arr.elem, Mem.slice_length, hu]
      rfl
    -- the copy goes to an element boundary, so it covers element `i` or misses it
    obtain ⟨k, hk⟩ : ∃ k, a.offset a.length = 32 * k := ⟨_, a.offset_eq hu _⟩
    show (a.data.write (a.offset a.length) data).slice (a.usize.toNat * i) a.usize.toNat = a.elem i
    rw [hu, hk]
    show (a.data.write (32 * k) data).slice (32 * i) 32 = a.elem i
    by_cases hik : i = k
    · subst hik
      rw [hall i hi, ← hlen]
      simpa only [hlen] using a.data.slice_write (32 * i) data
    · rw [Mem.slice_write_disjoint (by omega), Arr.elem, hu]
      rfl

theorem arrayAdd_data (a : Arr) (data : Bytes) (hu : a.usize = 32) {k : ℕ} (hk : k < 32 * a.size) :
    (arrayAdd a data).2.data k = a.data k := by
  have husize : (arrayAdd a data).2.usize = a.usize := by
    unfold arrayAdd
    split_ifs <;> rfl
  have helem := arrayAdd_elem a data hu (Nat.div_lt_of_lt_mul hk)
  rw [Arr.elem, Arr.elem, husize, hu] at helem
  have hbyte := Mem.slice_eq_iff.mp helem (k % 32) (Nat.mod_lt k (by norm_num))
  rwa [show (32 : UInt16).toNat = 32 from rfl, Nat.div_add_mod] at hbyte

/-! ## `array_del` -/

/-- What the loop of `array_del` keeps up after `k` passes: its own `length` has
dropped by at most `k`, and the elements below the caller's length are still
elements from below that length. -/
structure DelInv (a b : Arr) (k : ℕ) : Prop where
  usize : b.usize = 32
  size : b.size = a.size
  length : ∃ d ≤ k, b.length = a.length - UInt32.ofNat d
  elem : ∀ i < a.length.toNat, ∃ j < a.length.toNat, b.elem i = a.elem j

/-- Below the caller's length the loop's own length has not run out. -/
theorem length_pred_lt {len : UInt32} {d k : ℕ} (hd : d ≤ k) (hk : k < len.toNat) :
    (len - UInt32.ofNat d - 1).toNat < len.toNat := by
  have hlen := len.toNat_lt
  have hofNat : (UInt32.ofNat d).toNat = d := by
    rw [UInt32.toNat_ofNat', Nat.mod_eq_of_lt (by omega)]
  have hsub : (len - UInt32.ofNat d).toNat = len.toNat - d := by
    rw [UInt32.toNat_sub_of_le _ _ (UInt32.le_iff_toNat_le.mpr (by omega)), hofNat]
  rw [pred_toNat (by omega), hsub]
  omega

theorem DelInv.step {a b : Arr} {k : ℕ} (data : Bytes) (h : DelInv a b k) :
    DelInv a (arrayDelStep data b k) (k + 1) := by
  obtain ⟨d, hd, hlen⟩ := h.length
  unfold arrayDelStep
  split
  · refine ⟨h.usize, h.size, ⟨d + 1, by omega, ?_⟩, ?_⟩
    · show b.length - 1 = _
      rw [hlen, UInt32.ofNat_add]
      show a.length - UInt32.ofNat d - 1 = a.length - (UInt32.ofNat d + 1)
      grind
    · intro i hi
      dsimp only
      split
      · show ∃ j < a.length.toNat, (b.data.write (b.usize.toNat * k) _).slice
          (b.usize.toNat * i) b.usize.toNat = a.elem j
        rw [h.usize, b.offset_eq h.usize]
        by_cases hik : i = k
        · subst hik
          have hsrc := length_pred_lt hd hi
          rw [← hlen] at hsrc
          obtain ⟨j, hj, helem⟩ := h.elem ((b.length - 1).toNat % 2 ^ 27)
            (Nat.lt_of_le_of_lt (Nat.mod_le _ _) hsrc)
          refine ⟨j, hj, ?_⟩
          rw [← helem, Arr.elem, h.usize]
          have hwrite := b.data.slice_write (32 * i)
            (b.data.slice (32 * ((b.length - 1).toNat % 2 ^ 27)) 32)
          rwa [Mem.slice_length] at hwrite
        · obtain ⟨j, hj, helem⟩ := h.elem i hi
          refine ⟨j, hj, ?_⟩
          rw [Mem.slice_write_disjoint (by
            simp only [Mem.slice_length, show (32 : UInt16).toNat = 32 from rfl]
            omega), ← helem, Arr.elem, h.usize]
      · exact h.elem i hi
  · exact ⟨h.usize, h.size, ⟨d, by omega, hlen⟩, h.elem⟩

theorem foldl_arrayDelStep_inv (a : Arr) (hu : a.usize = 32) (data : Bytes) (k : ℕ) :
    DelInv a ((List.range k).foldl (arrayDelStep data) a) k := by
  induction k with
  | zero => exact ⟨hu, rfl, ⟨0, Nat.le_refl 0, (UInt32.sub_zero _).symm⟩, fun i hi => ⟨i, hi, rfl⟩⟩
  | succ k ih =>
      rw [List.range_succ, List.foldl_append]
      exact ih.step data

/-- `array_del` brings no new element below the length. -/
theorem arrayDel_elem (a : Arr) (hu : a.usize = 32) (data : Bytes) {i : ℕ}
    (hi : i < a.length.toNat) : ∃ j < a.length.toNat, (arrayDel a data).elem i = a.elem j :=
  (foldl_arrayDelStep_inv a hu data a.size).elem i hi

/-! ### What the loop does to each element

Pass `k` touches element `k` alone, and treats it as a hit when it differs from
the data. -/

/-- Two elements do not overlap. -/
theorem elem_apart {i k : ℕ} (usize : ℕ) (h : i ≠ k) :
    usize * i + usize ≤ usize * k ∨ usize * k + usize ≤ usize * i := by
  rcases Nat.lt_or_gt_of_ne h with hlt | hgt
  · left
    rw [← Nat.mul_succ]
    exact Nat.mul_le_mul_left usize hlt
  · right
    rw [← Nat.mul_succ]
    exact Nat.mul_le_mul_left usize hgt

theorem arrayDelStep_elem_ne (data : Bytes) {a : Arr} {i k : ℕ} (h : i ≠ k) :
    (arrayDelStep data a k).elem i = a.elem i := by
  unfold arrayDelStep
  split
  · dsimp only
    split
    · apply Mem.slice_write_disjoint
      rw [Mem.slice_length]
      exact elem_apart a.usize.toNat h
    · rfl
  · rfl

theorem arrayDelStep_usize (data : Bytes) (a : Arr) (k : ℕ) :
    (arrayDelStep data a k).usize = a.usize := by
  unfold arrayDelStep
  split <;> rfl

/-- Where a pass moves something, it is what lies at the offset of the last element. -/
def Arr.Moves (a : Arr) (data : Bytes) (k : ℕ) : Prop :=
  a.elem k ≠ data ∧ 1 < a.length ∧ UInt32.ofNat k ≠ a.length - 1

instance (a : Arr) (data : Bytes) (k : ℕ) : Decidable (a.Moves data k) :=
  inferInstanceAs (Decidable (_ ∧ _))

theorem arrayDelStep_elem_self (data : Bytes) (a : Arr) (k : ℕ) :
    (arrayDelStep data a k).elem k =
      if a.Moves data k then a.data.slice (a.offset (a.length - 1)) a.usize.toNat
      else a.elem k := by
  unfold arrayDelStep
  by_cases hne : a.elem k = data
  · have hstays : ¬ a.Moves data k := fun h => h.1 hne
    rw [if_neg (by simp [hne]), if_neg hstays]
  · rw [if_pos (by simp [hne])]
    dsimp only
    by_cases hmove : 1 < a.length ∧ UInt32.ofNat k ≠ a.length - 1
    · have hmoves : a.Moves data k := ⟨hne, hmove⟩
      rw [if_pos hmove, if_pos hmoves]
      exact Mem.slice_write_of_length (Mem.slice_length ..)
    · have hstays : ¬ a.Moves data k := fun h => hmove h.2
      rw [if_neg hmove, if_neg hstays]
      rfl

/-- A hit: the length drops, and the last element below it is moved here unless this
is the last one. -/
theorem arrayDelStep_hit {data : Bytes} {a : Arr} (hu : a.usize = 32) {k : ℕ}
    (h : a.elem k ≠ data) :
    (arrayDelStep data a k).length = a.length - 1 ∧
    (arrayDelStep data a k).elem k =
      if 1 < a.length ∧ UInt32.ofNat k ≠ a.length - 1 then
        a.elem ((a.length - 1).toNat % 2 ^ 27)
      else a.elem k := by
  constructor
  · unfold arrayDelStep
    rw [if_pos (by simpa using h)]
  · have hmoves : a.Moves data k ↔ 1 < a.length ∧ UInt32.ofNat k ≠ a.length - 1 :=
      and_iff_right h
    have hlast : a.data.slice (a.offset (a.length - 1)) a.usize.toNat =
        a.elem ((a.length - 1).toNat % 2 ^ 27) := by
      rw [a.offset_eq hu, Arr.elem, hu]
      rfl
    rw [arrayDelStep_elem_self, hlast]
    simp only [hmoves]

/-- The array after the first `k` passes. -/
def arrayDelPasses (data : Bytes) (a : Arr) (k : ℕ) : Arr :=
  (List.range k).foldl (arrayDelStep data) a

theorem arrayDelPasses_succ (data : Bytes) (a : Arr) (k : ℕ) :
    arrayDelPasses data a (k + 1) = arrayDelStep data (arrayDelPasses data a k) k := by
  rw [arrayDelPasses, List.range_succ, List.foldl_append]
  rfl

theorem arrayDelPasses_usize (data : Bytes) {a : Arr} (hu : a.usize = 32) (k : ℕ) :
    (arrayDelPasses data a k).usize = 32 :=
  (foldl_arrayDelStep_inv a hu data k).usize

/-- Before its own pass an element is as it was. -/
theorem arrayDelPasses_elem_before (data : Bytes) {a : Arr} {i : ℕ} :
    ∀ {k}, k ≤ i → (arrayDelPasses data a k).elem i = a.elem i := by
  intro k
  induction k with
  | zero => intro _; rfl
  | succ k ih =>
      intro hk
      rw [arrayDelPasses_succ,
        arrayDelStep_elem_ne data (by omega)]
      exact ih (by omega)

/-- After its own pass an element stays as it is. -/
theorem arrayDelPasses_elem_after (data : Bytes) {a : Arr} {i : ℕ} :
    ∀ {k}, i < k → (arrayDelPasses data a k).elem i = (arrayDelPasses data a (i + 1)).elem i := by
  intro k hk
  induction k, hk using Nat.le_induction with
  | base => rfl
  | succ k hk ih =>
      have hne : i ≠ k := Nat.ne_of_lt hk
      rw [arrayDelPasses_succ, arrayDelStep_elem_ne data hne, ih]

section NoneEqual

variable {data : Bytes} {a : Arr} (hu : a.usize = 32)
  (hne : ∀ i < a.length.toNat, a.elem i ≠ data)

include hu hne

/-- Where no element below the length equals the data, each pass there is a hit. -/
theorem arrayDelPasses_length {k : ℕ} (hk : k ≤ a.length.toNat) :
    (arrayDelPasses data a k).length.toNat = a.length.toNat - k := by
  induction k with
  | zero => rfl
  | succ k ih =>
      have hlen := ih (by omega)
      have hdiffers : (arrayDelPasses data a k).elem k ≠ data := by
        rw [arrayDelPasses_elem_before data (Nat.le_refl k)]
        exact hne k (by omega)
      have hhit := arrayDelStep_hit (arrayDelPasses_usize data hu k) hdiffers
      rw [arrayDelPasses_succ, hhit.1, pred_toNat (by omega), hlen]
      omega

/-- What the own pass of an element below the length makes of it. -/
theorem arrayDelPasses_elem_own {k : ℕ} (hk : k < a.length.toNat) :
    (arrayDelPasses data a (k + 1)).elem k =
      if 1 < a.length.toNat - k ∧ k ≠ a.length.toNat - k - 1 then
        (arrayDelPasses data a k).elem ((a.length.toNat - k - 1) % 2 ^ 27)
      else a.elem k := by
  have hlen := arrayDelPasses_length hu hne (Nat.le_of_lt hk)
  have hbefore : (arrayDelPasses data a k).elem k = a.elem k :=
    arrayDelPasses_elem_before data (Nat.le_refl k)
  have hdiffers : (arrayDelPasses data a k).elem k ≠ data := by
    rw [hbefore]
    exact hne k hk
  have hhit := (arrayDelStep_hit (arrayDelPasses_usize data hu k) hdiffers).2
  have hlt := a.length.toNat_lt
  have hpred : ((arrayDelPasses data a k).length - 1).toNat = a.length.toNat - k - 1 := by
    rw [pred_toNat (by omega), hlen]
  have hcond : (1 < (arrayDelPasses data a k).length ∧
      UInt32.ofNat k ≠ (arrayDelPasses data a k).length - 1) ↔
        1 < a.length.toNat - k ∧ k ≠ a.length.toNat - k - 1 := by
    rw [UInt32.lt_iff_toNat_lt, hlen, ← UInt32.toNat_inj.ne, hpred, UInt32.toNat_ofNat',
      Nat.mod_eq_of_lt (by omega)]
    rfl
  rw [arrayDelPasses_succ, hhit, hpred, hbefore]
  simp only [hcond]

/-- **`array_del` doubles an element.** Told to delete something that is not in an
array of two or more, it leaves two equal elements. -/
theorem arrayDel_doubles (hsize : a.length.toNat ≤ a.size) (htwo : 2 ≤ a.length.toNat) :
    ∃ i j, i < a.length.toNat ∧ j < a.length.toNat ∧ i ≠ j ∧
      (arrayDel a data).elem i = (arrayDel a data).elem j := by
  have hfinal : ∀ i, i < a.length.toNat →
      (arrayDel a data).elem i = (arrayDelPasses data a (i + 1)).elem i := fun i hi =>
    arrayDelPasses_elem_after data (by omega)
  have hlast := arrayDelPasses_elem_own hu hne (k := a.length.toNat - 1) (by omega)
  rw [if_neg (by omega)] at hlast
  by_cases hthree : a.length.toNat = 3
  · -- the first element is overwritten by the third
    have hfirst := arrayDelPasses_elem_own hu hne (k := 0) (by omega)
    rw [if_pos (by omega)] at hfirst
    refine ⟨0, 2, by omega, by omega, by omega, ?_⟩
    rw [hfinal 0 (by omega), hfinal 2 (by omega), hfirst]
    rw [hthree] at hlast ⊢
    exact (arrayDelPasses_elem_before data (by norm_num)).trans hlast.symm
  · -- the last but one is overwritten by the second
    obtain ⟨n, hn⟩ : ∃ n, a.length.toNat = n + 2 := ⟨a.length.toNat - 2, by omega⟩
    have hmoved := arrayDelPasses_elem_own hu hne (k := n) (by omega)
    rw [if_pos (by omega), hn, show n + 2 - n - 1 = 1 by omega, Nat.mod_eq_of_lt (by norm_num)]
      at hmoved
    refine ⟨n, 1, by omega, by omega, by omega, ?_⟩
    rw [hfinal n (by omega), hfinal 1 (by omega), hmoved]
    rcases Nat.eq_zero_or_pos n with rfl | hpos
    · rw [hn] at hlast
      exact (arrayDelPasses_elem_before data (by norm_num)).trans hlast.symm
    · exact arrayDelPasses_elem_after data (by omega)

/-- A single element stays. -/
theorem arrayDel_single (hsize : a.length.toNat ≤ a.size) (hone : a.length.toNat = 1) :
    (arrayDel a data).elem 0 = a.elem 0 := by
  have hown := arrayDelPasses_elem_own hu hne (k := 0) (by omega)
  rw [if_neg (by omega)] at hown
  exact (arrayDelPasses_elem_after data (by omega)).trans hown

end NoneEqual

end Freecoin
