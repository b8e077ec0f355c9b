import Freecoin.Shared

/-!
# util.c: conversions between byte strings and integers

The file promises that all byte input and output is big-endian. The encoders
shift the bytes out most significant first. The decoders shift them in the
same way and then apply `ntohl`/`ntohs` on top, so on a little-endian host
they read the reverse of what the encoders wrote.
-/

namespace Freecoin

open Lib

/-- `btoui(bytes)`. -/
def btoui (o : ByteOrder) (bytes : Mem) : UInt32 :=
  ntohl o (word32 (bytes 0) (bytes 1) (bytes 2) (bytes 3))

/-- `btous(bytes)`. -/
def btous (o : ByteOrder) (bytes : Mem) : UInt16 :=
  ntohs o (word16 (bytes 0) (bytes 1))

/-- The two bytes that `ustob(a, dest)` writes. -/
def ustob (a : UInt16) : Bytes := bytes16 a

/-- The four bytes that `uitob(a, dest)` writes. -/
def uitob (a : UInt32) : Bytes := bytes32 a

@[simp] theorem ustob_length (a : UInt16) : (ustob a).length = 2 := rfl

@[simp] theorem uitob_length (a : UInt32) : (uitob a).length = 4 := rfl

/-- A big-endian host reads the four bytes in the order they lie. -/
theorem btoui_big (m : Mem) : btoui .big m = word32 (m 0) (m 1) (m 2) (m 3) := rfl

theorem uitob_word32 (a b c d : UInt8) : uitob (word32 a b c d) = [a, b, c, d] :=
  bytes32_word32 a b c d

/-- A little-endian host reads the four bytes in reverse. -/
theorem btoui_little (m : Mem) : btoui .little m = word32 (m 3) (m 2) (m 1) (m 0) := by
  have h := uitob_word32 (m 0) (m 1) (m 2) (m 3)
  simp only [uitob, bytes32, List.cons.injEq, and_true] at h
  obtain ⟨h₃, h₂, h₁, h₀⟩ := h
  simp only [btoui, ntohl]
  rw [h₃, h₂, h₁, h₀]

/-- The decoders read four bytes at the pointer and nothing else. -/
theorem btoui_congr {o : ByteOrder} {m p : Mem} (h : ∀ i < 4, m i = p i) :
    btoui o m = btoui o p := by
  simp only [btoui, h 0 (by norm_num), h 1 (by norm_num), h 2 (by norm_num), h 3 (by norm_num)]

theorem btous_congr {o : ByteOrder} {m p : Mem} (h : ∀ i < 2, m i = p i) :
    btous o m = btous o p := by
  simp only [btous, h 0 (by norm_num), h 1 (by norm_num)]

/-- What `btoui` makes of four bytes that `uitob` wrote. -/
theorem btoui_uitob {o : ByteOrder} {m : Mem} {p : ℕ} {x : UInt32}
    (h : m.slice p 4 = uitob x) : btoui o (m.shift p) = ntohl o x := by
  obtain ⟨b₃, b₂, b₁, b₀, hb, -⟩ := bytes32_digits x
  have hm : [m p, m (p + 1), m (p + 2), m (p + 3)] = [b₃, b₂, b₁, b₀] := h.trans hb
  simp only [List.cons.injEq, and_true] at hm
  obtain ⟨h₃, h₂, h₁, h₀⟩ := hm
  have hword : word32 (m.shift p 0) (m.shift p 1) (m.shift p 2) (m.shift p 3) =
      word32 b₃ b₂ b₁ b₀ := by
    simp only [Mem.shift, Nat.add_zero, h₃, h₂, h₁, h₀]
  rw [btoui, hword, word32_bytes32 hb]

theorem btous_ustob {o : ByteOrder} {m : Mem} {p : ℕ} {x : UInt16}
    (h : m.slice p 2 = ustob x) : btous o (m.shift p) = ntohs o x := by
  have hm : [m p, m (p + 1)] = [(x >>> 8).toUInt8, x.toUInt8] := h
  simp only [List.cons.injEq, and_true] at hm
  obtain ⟨h₁, h₀⟩ := hm
  have hword : word16 (m.shift p 0) (m.shift p 1) = word16 (x >>> 8).toUInt8 x.toUInt8 := by
    simp only [Mem.shift, Nat.add_zero, h₁, h₀]
  rw [btous, hword, word16_bytes16 rfl]

end Freecoin
