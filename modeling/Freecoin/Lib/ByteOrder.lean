import Freecoin.Lib.Memory
import Mathlib.Data.List.Palindrome

/-!
# Words and byte order

Four bytes shifted together most significant first, the inverse cut of a word
into four bytes, and the conversions of the socket interface: `ntohl` and
`ntohs` reverse the bytes of a word on a little-endian host and do nothing on
a big-endian one.
-/

namespace Lib

/-- The byte order of a host. -/
inductive ByteOrder : Type where
  | little
  | big
deriving DecidableEq

/-- Four bytes as a word, most significant first. -/
def word32 (a b c d : UInt8) : UInt32 :=
  (a.toUInt32 <<< 24) ||| (b.toUInt32 <<< 16) ||| (c.toUInt32 <<< 8) ||| d.toUInt32

/-- Two bytes as a word, most significant first. -/
def word16 (a b : UInt8) : UInt16 := (a.toUInt16 <<< 8) ||| b.toUInt16

/-- The four bytes of a word, most significant first. -/
def bytes32 (x : UInt32) : Bytes :=
  [(x >>> 24).toUInt8, (x >>> 16).toUInt8, (x >>> 8).toUInt8, x.toUInt8]

def bytes16 (x : UInt16) : Bytes := [(x >>> 8).toUInt8, x.toUInt8]

/-- `ntohl`: the bytes of the word reversed on a little-endian host. -/
def ntohl (o : ByteOrder) (x : UInt32) : UInt32 :=
  match o with
  | .big => x
  | .little =>
      word32 x.toUInt8 (x >>> 8).toUInt8 (x >>> 16).toUInt8 (x >>> 24).toUInt8

/-- `ntohs`, likewise. -/
def ntohs (o : ByteOrder) (x : UInt16) : UInt16 :=
  match o with
  | .big => x
  | .little => word16 x.toUInt8 (x >>> 8).toUInt8

/-- The four bytes of a word variable as they lie in the host's memory. -/
def hostBytes32 (o : ByteOrder) (x : UInt32) : Bytes :=
  match o with
  | .big => bytes32 x
  | .little => (bytes32 x).reverse

/-- The word variable whose four bytes lie at `m` in the host's memory. -/
def hostWord32 (o : ByteOrder) (m : Mem) : UInt32 :=
  match o with
  | .big => word32 (m 0) (m 1) (m 2) (m 3)
  | .little => word32 (m 3) (m 2) (m 1) (m 0)

@[simp] theorem bytes32_length (x : UInt32) : (bytes32 x).length = 4 := rfl

@[simp] theorem hostBytes32_length (o : ByteOrder) (x : UInt32) :
    (hostBytes32 o x).length = 4 := by
  cases o <;> rfl

/-! ## Words as numbers -/

theorem word32_toNat (a b c d : UInt8) :
    (word32 a b c d).toNat =
      a.toNat * 2 ^ 24 + b.toNat * 2 ^ 16 + c.toNat * 2 ^ 8 + d.toNat := by
  have ha := a.toNat_lt
  have hb := b.toNat_lt
  have hc := c.toNat_lt
  have hd := d.toNat_lt
  -- the four shifted bytes occupy disjoint bits, so `|||` is addition
  have hab : a.toNat * 2 ^ 24 ||| b.toNat * 2 ^ 16 =
      2 ^ 24 * a.toNat + b.toNat * 2 ^ 16 := by
    rw [Nat.mul_comm a.toNat, ← Nat.two_pow_add_eq_or_of_lt (by omega)]
  have habc : (2 ^ 24 * a.toNat + b.toNat * 2 ^ 16) ||| c.toNat * 2 ^ 8 =
      2 ^ 16 * (2 ^ 8 * a.toNat + b.toNat) + c.toNat * 2 ^ 8 := by
    rw [show 2 ^ 24 * a.toNat + b.toNat * 2 ^ 16 =
        2 ^ 16 * (2 ^ 8 * a.toNat + b.toNat) by ring,
      ← Nat.two_pow_add_eq_or_of_lt (by omega)]
  have habcd : (2 ^ 16 * (2 ^ 8 * a.toNat + b.toNat) + c.toNat * 2 ^ 8) ||| d.toNat =
      2 ^ 8 * (2 ^ 16 * a.toNat + 2 ^ 8 * b.toNat + c.toNat) + d.toNat := by
    rw [show 2 ^ 16 * (2 ^ 8 * a.toNat + b.toNat) + c.toNat * 2 ^ 8 =
        2 ^ 8 * (2 ^ 16 * a.toNat + 2 ^ 8 * b.toNat + c.toNat) by ring,
      ← Nat.two_pow_add_eq_or_of_lt (by omega)]
  have h24 : a.toNat <<< 24 % 2 ^ 32 = a.toNat * 2 ^ 24 := by
    rw [Nat.shiftLeft_eq]; omega
  have h16 : b.toNat <<< 16 % 2 ^ 32 = b.toNat * 2 ^ 16 := by
    rw [Nat.shiftLeft_eq]; omega
  have h8 : c.toNat <<< 8 % 2 ^ 32 = c.toNat * 2 ^ 8 := by
    rw [Nat.shiftLeft_eq]; omega
  simp only [word32, UInt32.toNat_or, UInt32.toNat_shiftLeft, UInt8.toNat_toUInt32]
  rw [show (24 : UInt32).toNat % 32 = 24 from rfl, show (16 : UInt32).toNat % 32 = 16 from rfl,
    show (8 : UInt32).toNat % 32 = 8 from rfl, h24, h16, h8, hab, habc, habcd]
  ring

theorem word16_toNat (a b : UInt8) :
    (word16 a b).toNat = a.toNat * 2 ^ 8 + b.toNat := by
  have ha := a.toNat_lt
  have hb := b.toNat_lt
  have hab : a.toNat * 2 ^ 8 ||| b.toNat = 2 ^ 8 * a.toNat + b.toNat := by
    rw [Nat.mul_comm a.toNat, ← Nat.two_pow_add_eq_or_of_lt (by omega)]
  have h8 : a.toNat <<< 8 % 2 ^ 16 = a.toNat * 2 ^ 8 := by
    rw [Nat.shiftLeft_eq]; omega
  simp only [word16, UInt16.toNat_or, UInt16.toNat_shiftLeft, UInt8.toNat_toUInt16]
  rw [show (8 : UInt16).toNat % 16 = 8 from rfl, h8, hab]
  ring

/-- The `k`-th byte of a word, counted from the least significant one. -/
theorem shiftRight_toUInt8_toNat (x : UInt32) (k : ℕ) (hk : k < 32) :
    (x >>> UInt32.ofNat k).toUInt8.toNat = x.toNat / 2 ^ k % 2 ^ 8 := by
  rw [UInt32.toNat_toUInt8, UInt32.toNat_shiftRight, UInt32.toNat_ofNat',
    Nat.mod_eq_of_lt (show k < 2 ^ 32 by omega), Nat.mod_eq_of_lt hk, Nat.shiftRight_eq_div_pow]

/-- The four bytes of a word, as numbers. -/
theorem bytes32_digits (x : UInt32) :
    ∃ b₃ b₂ b₁ b₀ : UInt8, bytes32 x = [b₃, b₂, b₁, b₀] ∧
      b₃.toNat = x.toNat / 2 ^ 24 % 2 ^ 8 ∧ b₂.toNat = x.toNat / 2 ^ 16 % 2 ^ 8 ∧
      b₁.toNat = x.toNat / 2 ^ 8 % 2 ^ 8 ∧ b₀.toNat = x.toNat % 2 ^ 8 :=
  ⟨_, _, _, _, rfl, shiftRight_toUInt8_toNat x 24 (by norm_num),
    shiftRight_toUInt8_toNat x 16 (by norm_num), shiftRight_toUInt8_toNat x 8 (by norm_num),
    UInt32.toNat_toUInt8 x⟩

/-- Putting the four bytes of a word together gives the word back. -/
theorem word32_bytes32 {x : UInt32} {b₃ b₂ b₁ b₀ : UInt8} (h : bytes32 x = [b₃, b₂, b₁, b₀]) :
    word32 b₃ b₂ b₁ b₀ = x := by
  obtain ⟨c₃, c₂, c₁, c₀, hc, h₃, h₂, h₁, h₀⟩ := bytes32_digits x
  rw [hc] at h
  obtain ⟨rfl, rfl, rfl, rfl⟩ : c₃ = b₃ ∧ c₂ = b₂ ∧ c₁ = b₁ ∧ c₀ = b₀ := by simpa using h
  have hx := x.toNat_lt
  apply UInt32.toNat_inj.mp
  rw [word32_toNat]
  omega

/-- Cutting a word built from four bytes gives the four bytes back. -/
theorem bytes32_word32 (a b c d : UInt8) : bytes32 (word32 a b c d) = [a, b, c, d] := by
  have hw := word32_toNat a b c d
  have ha := a.toNat_lt
  have hb := b.toNat_lt
  have hc := c.toNat_lt
  have hd := d.toNat_lt
  obtain ⟨b₃, b₂, b₁, b₀, hb, h₃, h₂, h₁, h₀⟩ := bytes32_digits (word32 a b c d)
  have e₃ : b₃ = a := UInt8.toNat_inj.mp (by omega)
  have e₂ : b₂ = b := UInt8.toNat_inj.mp (by omega)
  have e₁ : b₁ = c := UInt8.toNat_inj.mp (by omega)
  have e₀ : b₀ = d := UInt8.toNat_inj.mp (by omega)
  rw [hb, e₃, e₂, e₁, e₀]

theorem bytes32_injective : Function.Injective bytes32 := by
  intro x y h
  obtain ⟨a₃, a₂, a₁, a₀, ha, hx₃, hx₂, hx₁, hx₀⟩ := bytes32_digits x
  obtain ⟨b₃, b₂, b₁, b₀, hb, hy₃, hy₂, hy₁, hy₀⟩ := bytes32_digits y
  rw [ha, hb] at h
  cases h
  have hx := x.toNat_lt
  have hy := y.toNat_lt
  apply UInt32.toNat_inj.mp
  omega

theorem hostBytes32_injective (o : ByteOrder) : Function.Injective (hostBytes32 o) := by
  cases o with
  | big => exact bytes32_injective
  | little => exact List.reverse_injective.comp bytes32_injective

theorem word16_high (a b : UInt8) : (word16 a b >>> 8).toUInt8 = a := by
  have ha := a.toNat_lt
  have hb := b.toNat_lt
  apply UInt8.toNat_inj.mp
  rw [UInt16.toNat_toUInt8, UInt16.toNat_shiftRight, word16_toNat, Nat.shiftRight_eq_div_pow,
    show (8 : UInt16).toNat % 16 = 8 from rfl]
  omega

theorem word16_low (a b : UInt8) : (word16 a b).toUInt8 = b := by
  have hb := b.toNat_lt
  apply UInt8.toNat_inj.mp
  rw [UInt16.toNat_toUInt8, word16_toNat]
  omega

theorem bytes16_word16 (a b : UInt8) : bytes16 (word16 a b) = [a, b] := by
  rw [bytes16, word16_high, word16_low]

theorem word16_bytes16 {x : UInt16} {b₁ b₀ : UInt8} (h : bytes16 x = [b₁, b₀]) :
    word16 b₁ b₀ = x := by
  obtain ⟨rfl, rfl⟩ : (x >>> 8).toUInt8 = b₁ ∧ x.toUInt8 = b₀ := by simpa [bytes16] using h
  have hx := x.toNat_lt
  apply UInt16.toNat_inj.mp
  rw [word16_toNat, UInt16.toNat_toUInt8, UInt16.toNat_toUInt8, UInt16.toNat_shiftRight,
    show (8 : UInt16).toNat % 16 = 8 from rfl, Nat.shiftRight_eq_div_pow]
  omega

theorem bytes16_injective : Function.Injective bytes16 := by
  intro x y h
  have hy : bytes16 y = [(y >>> 8).toUInt8, y.toUInt8] := rfl
  exact (word16_bytes16 (h.trans hy)).symm.trans (word16_bytes16 hy)

/-! ## Byte order conversions -/

theorem bytes32_ntohl_little (x : UInt32) : bytes32 (ntohl .little x) = (bytes32 x).reverse := by
  rw [ntohl, bytes32_word32]
  rfl

theorem bytes16_ntohs_little (x : UInt16) : bytes16 (ntohs .little x) = (bytes16 x).reverse := by
  rw [ntohs, bytes16_word16]
  rfl

@[simp] theorem ntohs_ntohs (o : ByteOrder) (x : UInt16) : ntohs o (ntohs o x) = x := by
  cases o with
  | big => rfl
  | little =>
      apply bytes16_injective
      rw [bytes16_ntohs_little, bytes16_ntohs_little, List.reverse_reverse]

/-- The words that `ntohl` leaves alone: all of them on a big-endian host, those
whose bytes read the same both ways on a little-endian one. -/
theorem ntohl_eq_self_iff (o : ByteOrder) (x : UInt32) :
    ntohl o x = x ↔ o = .big ∨ (bytes32 x).Palindrome := by
  cases o with
  | big => simp [ntohl]
  | little =>
      rw [← bytes32_injective.eq_iff, bytes32_ntohl_little, List.Palindrome.iff_reverse_eq]
      simp

theorem ntohs_eq_self_iff (o : ByteOrder) (x : UInt16) :
    ntohs o x = x ↔ o = .big ∨ (bytes16 x).Palindrome := by
  cases o with
  | big => simp [ntohs]
  | little =>
      rw [← bytes16_injective.eq_iff, bytes16_ntohs_little, List.Palindrome.iff_reverse_eq]
      simp

/-- A little-endian host swaps the two bytes. -/
theorem ntohs_little (a b : UInt8) : ntohs .little (word16 a b) = word16 b a := by
  rw [ntohs, word16_high, word16_low]

end Lib
