import Mathlib.Data.List.Basic
import Mathlib.Tactic

/-!
# Byte memory seen through a pointer

A pointer to bytes is modelled by everything it can read: a total function
from offsets to bytes. Nothing is known about an offset that was never
written, so a buffer that a program allocates and reads before writing is an
arbitrary `Mem`, and a read past the end of a buffer is a read of whatever
the function holds there.

Regions that are copied out of memory (a record handed to a database, the
input of a hash) are plain byte lists.
-/

namespace Lib

abbrev Bytes : Type := List UInt8

/-- What a pointer can read: offset to byte. -/
abbrev Mem : Type := ℕ → UInt8

namespace Mem

/-- The pointer `&m[k]`. -/
def shift (m : Mem) (k : ℕ) : Mem := fun i => m (k + i)

/-- The `len` bytes at offset `pos`. -/
def slice (m : Mem) (pos len : ℕ) : Bytes :=
  (List.range len).map fun i => m (pos + i)

/-- `memcpy(&m[pos], bs, |bs|)`. -/
def write (m : Mem) (pos : ℕ) (bs : Bytes) : Mem := fun i =>
  if pos ≤ i then (bs[i - pos]?).getD (m i) else m i

/-- Memory whose first bytes are `bs` and whose rest is that of `m`. -/
def load (m : Mem) (bs : Bytes) : Mem := m.write 0 bs

/-- A byte list as memory, zero past its end. -/
def ofBytes (bs : Bytes) : Mem := load (fun _ => 0) bs

/-- `m` with everything from offset `k` on replaced by what `p` points at:
the view of a buffer after a callee has worked on `&m[k]`. -/
def splice (m : Mem) (k : ℕ) (p : Mem) : Mem := fun i =>
  if i < k then m i else p (i - k)

/-! ## Slices -/

@[simp] theorem slice_length (m : Mem) (pos len : ℕ) :
    (m.slice pos len).length = len := by
  simp [slice]

theorem slice_getElem? (m : Mem) (pos len i : ℕ) :
    (m.slice pos len)[i]? = if i < len then some (m (pos + i)) else none := by
  by_cases h : i < len
  · simp [slice, h]
  · simp [slice, h]

/-- Two slices agree exactly when the memories agree on the region. -/
theorem slice_eq_iff {m p : Mem} {a b len : ℕ} :
    m.slice a len = p.slice b len ↔ ∀ i < len, m (a + i) = p (b + i) := by
  simp [slice, List.map_inj_left]

theorem shift_shift (m : Mem) (k j : ℕ) : (m.shift k).shift j = m.shift (k + j) := by
  funext i
  simp only [shift, Nat.add_assoc]

theorem slice_shift (m : Mem) (k pos len : ℕ) :
    (m.shift k).slice pos len = m.slice (k + pos) len := by
  simp [slice, shift, Nat.add_assoc]

theorem slice_take (m : Mem) (pos len n : ℕ) (h : n ≤ len) :
    (m.slice pos len).take n = m.slice pos n := by
  apply List.ext_getElem?
  intro i
  rw [List.getElem?_take, slice_getElem?, slice_getElem?]
  by_cases hi : i < n
  · simp [hi, Nat.lt_of_lt_of_le hi h]
  · simp [hi]

theorem slice_append (m : Mem) (pos n k : ℕ) :
    m.slice pos (n + k) = m.slice pos n ++ m.slice (pos + n) k := by
  apply List.ext_getElem?
  intro i
  rw [slice_getElem?, List.getElem?_append, slice_length, slice_getElem?, slice_getElem?]
  by_cases hi : i < n
  · rw [if_pos hi, if_pos hi, if_pos (by omega)]
  · rw [if_neg hi]
    by_cases hik : i < n + k
    · rw [if_pos hik, if_pos (by omega), Nat.add_assoc, Nat.add_sub_cancel' (by omega)]
    · rw [if_neg hik, if_neg (by omega)]

/-- A part of a slice that starts at the pointer. -/
theorem drop_take_slice (m : Mem) {n a k : ℕ} (h : a + k ≤ n) :
    ((m.slice 0 n).drop a).take k = m.slice a k := by
  apply List.ext_getElem?
  intro i
  rw [List.getElem?_take, List.getElem?_drop, slice_getElem?, slice_getElem?]
  by_cases hi : i < k
  · rw [if_pos hi, if_pos hi, if_pos (by omega), Nat.zero_add]
  · rw [if_neg hi, if_neg hi]

/-! ## Agreement -/

/-- The two memories show the same first `n` bytes. -/
def Agree (n : ℕ) (m p : Mem) : Prop := ∀ i < n, m i = p i

variable {m p : Mem} {n : ℕ}

theorem agree_iff_slice : Agree n m p ↔ m.slice 0 n = p.slice 0 n := by
  rw [slice_eq_iff]
  simp only [Nat.zero_add, Agree]

theorem Agree.symm (h : Agree n m p) : Agree n p m := fun i hi => (h i hi).symm

theorem Agree.mono (h : Agree n m p) {k : ℕ} (hk : k ≤ n) : Agree k m p :=
  fun i hi => h i (Nat.lt_of_lt_of_le hi hk)

theorem Agree.shift (h : Agree n m p) {k j : ℕ} (hk : k + j ≤ n) :
    Agree j (m.shift k) (p.shift k) :=
  fun i hi => h (k + i) (by omega)

theorem Agree.slice (h : Agree n m p) {a k : ℕ} (hk : a + k ≤ n) : m.slice a k = p.slice a k :=
  slice_eq_iff.mpr fun i hi => h (a + i) (by omega)

/-! ## Writes -/

theorem write_before {m : Mem} {pos i : ℕ} (bs : Bytes) (h : i < pos) :
    m.write pos bs i = m i := by
  simp [write, Nat.not_le.mpr h]

theorem write_after {m : Mem} {pos i : ℕ} {bs : Bytes} (h : pos + bs.length ≤ i) :
    m.write pos bs i = m i := by
  have hpos : pos ≤ i := by omega
  have hnone : bs[i - pos]? = none := List.getElem?_eq_none (by omega)
  simp [write, hpos, hnone]

theorem write_in {m : Mem} {pos i : ℕ} {bs : Bytes} {b : UInt8}
    (h : bs[i]? = some b) : m.write pos bs (pos + i) = b := by
  simp [write, h]

theorem write_nil (m : Mem) (pos : ℕ) : m.write pos [] = m := by
  funext i
  rw [write]
  split <;> rfl

/-- Two writes one after the other, the second behind the first. -/
theorem write_append (m : Mem) (pos : ℕ) (bs cs : Bytes) :
    m.write pos (bs ++ cs) = (m.write pos bs).write (pos + bs.length) cs := by
  funext i
  simp only [write]
  by_cases hpos : pos ≤ i
  · rw [if_pos hpos, if_pos hpos, List.getElem?_append]
    by_cases hbs : i - pos < bs.length
    · rw [if_pos hbs, if_neg (by omega)]
    · rw [if_neg hbs, if_pos (by omega), List.getElem?_eq_none (by omega : bs.length ≤ i - pos),
        Nat.sub_sub]
      rfl
  · rw [if_neg hpos, if_neg hpos, if_neg (by omega)]

/-- A write behind a pointer, through that pointer. -/
theorem shift_write_add (m : Mem) (k pos : ℕ) (bs : Bytes) :
    (m.write (k + pos) bs).shift k = (m.shift k).write pos bs := by
  funext i
  simp only [write, shift]
  by_cases hpos : pos ≤ i
  · rw [if_pos hpos, if_pos (by omega), Nat.add_sub_add_left]
  · rw [if_neg hpos, if_neg (by omega)]

@[simp] theorem splice_shift (m : Mem) (k : ℕ) : m.splice k (m.shift k) = m := by
  funext i
  rw [splice]
  split
  · rfl
  · rw [shift, Nat.add_sub_cancel' (by omega)]

theorem splice_write {m : Mem} {k pos : ℕ} (bs : Bytes) (p : Mem) (h : k ≤ pos) :
    (m.write pos bs).splice k p = m.splice k p := by
  funext i
  rw [splice, splice]
  split
  · exact write_before bs (by omega)
  · rfl

/-- A buffer after a callee has written through `&m[k]`. -/
theorem splice_shift_write (m : Mem) (k pos : ℕ) (bs : Bytes) :
    m.splice k ((m.shift k).write pos bs) = m.write (k + pos) bs := by
  rw [← shift_write_add, ← splice_write bs _ (Nat.le_add_right k pos), splice_shift]

/-- A slice that a write does not touch. -/
theorem slice_write_disjoint {m : Mem} {pos a len : ℕ} {bs : Bytes}
    (h : a + len ≤ pos ∨ pos + bs.length ≤ a) :
    (m.write pos bs).slice a len = m.slice a len := by
  rw [slice_eq_iff]
  intro i hi
  rcases h with h | h
  · exact write_before bs (by omega)
  · exact write_after (by omega)

/-- Reading back exactly what was written. -/
theorem slice_write (m : Mem) (pos : ℕ) (bs : Bytes) :
    (m.write pos bs).slice pos bs.length = bs := by
  apply List.ext_getElem?
  intro i
  rw [slice_getElem?]
  by_cases h : i < bs.length
  · have hb : bs[i]? = some bs[i] := List.getElem?_eq_getElem h
    rw [if_pos h, hb, write_in hb]
  · rw [if_neg h, List.getElem?_eq_none (by omega)]

theorem slice_write_of_length {m : Mem} {pos len : ℕ} {bs : Bytes} (h : bs.length = len) :
    (m.write pos bs).slice pos len = bs := by
  subst h
  exact slice_write m pos bs

/-- Reading back part of what was written. -/
theorem slice_write_inside {m : Mem} {pos a len : ℕ} {bs : Bytes} (h : a + len ≤ bs.length) :
    (m.write pos bs).slice (pos + a) len = (bs.drop a).take len := by
  apply List.ext_getElem?
  intro i
  rw [slice_getElem?, List.getElem?_take]
  by_cases hi : i < len
  · have hb : bs[a + i]? = some bs[a + i] := List.getElem?_eq_getElem (by omega)
    rw [if_pos hi, if_pos hi, List.getElem?_drop, hb, Nat.add_assoc, write_in hb]
  · rw [if_neg hi, if_neg hi]

theorem slice_ofBytes_inside {bs : Bytes} {a len : ℕ} (h : a + len ≤ bs.length) :
    (ofBytes bs).slice a len = (bs.drop a).take len := by
  have hslice : (write (fun _ => 0) 0 bs).slice (0 + a) len = (bs.drop a).take len :=
    slice_write_inside h
  rwa [Nat.zero_add] at hslice

/-- A pointer past a write sees nothing of it. -/
theorem shift_write {m : Mem} {pos k : ℕ} {bs : Bytes} (h : pos + bs.length ≤ k) :
    (m.write pos bs).shift k = m.shift k := by
  funext i
  exact write_after (Nat.le_trans h (Nat.le_add_right k i))

@[simp] theorem shift_splice (m : Mem) (k : ℕ) (p : Mem) : (m.splice k p).shift k = p := by
  funext i
  simp [shift, splice]

theorem load_apply (m : Mem) (bs : Bytes) (i : ℕ) :
    m.load bs i = (bs[i]?).getD (m i) := by
  simp [load, write]

theorem load_lt {m : Mem} {bs : Bytes} {i : ℕ} (h : i < bs.length) :
    m.load bs i = bs[i] := by
  simp [load_apply, h]

theorem load_ge {m : Mem} {bs : Bytes} {i : ℕ} (h : bs.length ≤ i) :
    m.load bs i = m i := by
  simp [load_apply, h]

theorem slice_load (m : Mem) {bs : Bytes} {n : ℕ} (h : bs.length = n) :
    (m.load bs).slice 0 n = bs := by
  subst h
  exact slice_write m 0 bs

/-- Any region inside a loaded record depends on the record alone. -/
theorem slice_load_inside (m p : Mem) {bs : Bytes} {pos len : ℕ}
    (h : pos + len ≤ bs.length) :
    (m.load bs).slice pos len = (p.load bs).slice pos len := by
  rw [slice_eq_iff]
  intro i hi
  rw [load_lt (by omega), load_lt (by omega)]

theorem load_slice_self (m : Mem) (n : ℕ) : m.load (m.slice 0 n) = m := by
  funext i
  rw [load_apply, slice_getElem?]
  by_cases h : i < n
  · simp [h]
  · simp [h]

end Mem

end Lib
