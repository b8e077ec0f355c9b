import Freecoin.Lib.ByteOrder
import Mathlib.Data.Nat.NthRoot.Defs

/-!
# SHA-256 as the standard defines it

The constants are bits of roots of primes. A message is padded with a one
bit, zeros and its length in bits to a whole number of 64-byte blocks, and the
hash value is the fold of the compression function over them. The words of
the message schedule are given by their recurrence.
-/

namespace Lib.SecureHash

/-! ## Constants and functions of words -/

/-- The first 64 primes. -/
def primes : List ℕ :=
  [2, 3, 5, 7, 11, 13, 17, 19, 23, 29, 31, 37, 41, 43, 47, 53, 59, 61, 67, 71, 73, 79, 83, 89, 97,
   101, 103, 107, 109, 113, 127, 131, 137, 139, 149, 151, 157, 163, 167, 173, 179, 181, 191, 193,
   197, 199, 211, 223, 227, 229, 233, 239, 241, 251, 257, 263, 269, 271, 277, 281, 283, 293, 307,
   311]

/-- The first 32 bits of the fractional part of the `k`-th root of `p`. -/
def rootBits (k p : ℕ) : UInt32 := UInt32.ofNat (Nat.nthRoot k (p * 2 ^ (32 * k)))

/-- The constant of round `t`, from the cube root of a prime. -/
def roundConstant (t : ℕ) : UInt32 := rootBits 3 (primes.getD t 0)

def rotr (n x : UInt32) : UInt32 := (x >>> n) ||| (x <<< (32 - n))

def choose (x y z : UInt32) : UInt32 := (x &&& y) ^^^ (~~~x &&& z)

def majority (x y z : UInt32) : UInt32 := (x &&& y) ^^^ (x &&& z) ^^^ (y &&& z)

def bigSigma0 (x : UInt32) : UInt32 := rotr 2 x ^^^ rotr 13 x ^^^ rotr 22 x

def bigSigma1 (x : UInt32) : UInt32 := rotr 6 x ^^^ rotr 11 x ^^^ rotr 25 x

def smallSigma0 (x : UInt32) : UInt32 := rotr 7 x ^^^ rotr 18 x ^^^ (x >>> 3)

def smallSigma1 (x : UInt32) : UInt32 := rotr 17 x ^^^ rotr 19 x ^^^ (x >>> 10)

/-! ## The compression function -/

/-- Eight words. -/
structure HashValue : Type where
  (a b c d e f g h : UInt32)

/-- The initial hash value, from the square roots of the first eight primes. -/
def initial : HashValue :=
  ⟨rootBits 2 2, rootBits 2 3, rootBits 2 5, rootBits 2 7, rootBits 2 11, rootBits 2 13,
    rootBits 2 17, rootBits 2 19⟩

/-- The `t`-th word of a block. -/
def blockWord (block : Bytes) (t : ℕ) : UInt32 :=
  word32 (block.getD (4 * t) 0) (block.getD (4 * t + 1) 0) (block.getD (4 * t + 2) 0)
    (block.getD (4 * t + 3) 0)

/-- The message schedule of a block. -/
def schedule (block : Bytes) (t : ℕ) : UInt32 :=
  if t < 16 then blockWord block t
  else smallSigma1 (schedule block (t - 2)) + schedule block (t - 7)
    + smallSigma0 (schedule block (t - 15)) + schedule block (t - 16)
termination_by t

/-- One round with round constant `k` and schedule word `w`. -/
def round (k w : UInt32) (v : HashValue) : HashValue :=
  let t₁ := v.h + bigSigma1 v.e + choose v.e v.f v.g + k + w
  let t₂ := bigSigma0 v.a + majority v.a v.b v.c
  ⟨t₁ + t₂, v.a, v.b, v.c, v.d + t₁, v.e, v.f, v.g⟩

/-- The first `n` rounds on a block. -/
def rounds (block : Bytes) (v : HashValue) : ℕ → HashValue
  | 0 => v
  | t + 1 => round (roundConstant t) (schedule block t) (rounds block v t)

/-- The hash value after one more block. -/
def compress (v : HashValue) (block : Bytes) : HashValue :=
  let r := rounds block v 64
  ⟨v.a + r.a, v.b + r.b, v.c + r.c, v.d + r.d, v.e + r.e, v.f + r.f, v.g + r.g, v.h + r.h⟩

/-! ## Messages -/

/-- The 64-bit big-endian representation of a number. -/
def bytes64 (n : ℕ) : Bytes := (List.range 8).map fun i => UInt8.ofNat (n / 256 ^ (7 - i))

/-- How many zero bytes follow the byte `0x80`: the fewest that leave room for the
length at the end of a block. -/
def zeroCount (length : ℕ) : ℕ := (119 - length % 64) % 64

/-- The padded message. -/
def pad (message : Bytes) : Bytes :=
  message ++ [0x80] ++ List.replicate (zeroCount message.length) 0 ++ bytes64 (8 * message.length)

/-- A padded message cut into blocks. -/
def blocks (padded : Bytes) : List Bytes :=
  (List.range (padded.length / 64)).map fun i => (padded.drop (64 * i)).take 64

def hashValue (message : Bytes) : HashValue := (blocks (pad message)).foldl compress initial

/-- The words of a hash value in order. -/
def HashValue.words (v : HashValue) : List UInt32 := [v.a, v.b, v.c, v.d, v.e, v.f, v.g, v.h]

/-- The message digest: the words, most significant bytes first. -/
def digest (message : Bytes) : Bytes := (hashValue message).words.flatMap bytes32

/-! ## Cutting and padding -/

@[simp] theorem bytes64_length (n : ℕ) : (bytes64 n).length = 8 := by
  simp [bytes64]

theorem blocks_append {block rest : Bytes} (h : block.length = 64) :
    blocks (block ++ rest) = block :: blocks rest := by
  have hcount : (block ++ rest).length / 64 = rest.length / 64 + 1 := by
    rw [List.length_append, h]
    omega
  rw [blocks, hcount, List.range_succ_eq_map, List.map_cons, List.map_map]
  congr 1
  · rw [Nat.mul_zero, List.drop_zero, List.take_left' h]
  · refine List.map_congr_left fun i _ => ?_
    have hdrop : 64 * (i + 1) = block.length + 64 * i := by omega
    rw [Function.comp_apply, Nat.succ_eq_add_one, hdrop, ← List.drop_drop, List.drop_left]

/-- Whole blocks put together are cut into these blocks again. -/
theorem blocks_flatten {bs : List Bytes} (h : ∀ b ∈ bs, b.length = 64) :
    blocks bs.flatten = bs := by
  induction bs with
  | nil => rfl
  | cons b bs ih =>
      obtain ⟨hb, hbs⟩ := List.forall_mem_cons.mp h
      rw [List.flatten_cons, blocks_append hb, ih hbs]

theorem length_of_mem_blocks {padded block : Bytes} (h : block ∈ blocks padded) :
    block.length = 64 := by
  obtain ⟨i, hi, rfl⟩ := List.mem_map.mp h
  have hlt := List.mem_range.mp hi
  rw [List.length_take, List.length_drop]
  omega

theorem flatten_length {bs : List Bytes} (h : ∀ b ∈ bs, b.length = 64) :
    bs.flatten.length = 64 * bs.length := by
  induction bs with
  | nil => rfl
  | cons b bs ih =>
      obtain ⟨hb, hbs⟩ := List.forall_mem_cons.mp h
      rw [List.flatten_cons, List.length_append, ih hbs, hb, List.length_cons]
      omega

section Padding

variable {done : List Bytes} {rest : Bytes} (hdone : ∀ b ∈ done, b.length = 64)

include hdone

theorem message_length : (done.flatten ++ rest).length = 64 * done.length + rest.length := by
  rw [List.length_append, flatten_length hdone]

/-- A message whose last part leaves room for the padding: one more block. -/
theorem blocks_pad_short (h : rest.length < 56) :
    blocks (pad (done.flatten ++ rest)) =
      done ++ [rest ++ [0x80] ++ List.replicate (55 - rest.length) 0 ++
        bytes64 (8 * (done.flatten ++ rest).length)] := by
  have hzeros : zeroCount (done.flatten ++ rest).length = 55 - rest.length := by
    rw [zeroCount, message_length hdone]
    omega
  have hpad : pad (done.flatten ++ rest) = (done ++ [rest ++ [0x80] ++
      List.replicate (55 - rest.length) 0 ++
        bytes64 (8 * (done.flatten ++ rest).length)]).flatten := by
    rw [pad, hzeros, List.flatten_append, List.flatten_singleton]
    simp only [List.append_assoc]
  rw [hpad]
  refine blocks_flatten fun b hb => ?_
  rcases List.mem_append.mp hb with hb | hb
  · exact hdone b hb
  · rw [List.mem_singleton.mp hb]
    simp only [List.length_append, List.length_singleton, List.length_replicate, bytes64_length]
    omega

/-- A message whose last part leaves no room for the length: two more blocks. -/
theorem blocks_pad_long (hmin : 56 ≤ rest.length) (hmax : rest.length < 64) :
    blocks (pad (done.flatten ++ rest)) =
      done ++ [rest ++ [0x80] ++ List.replicate (63 - rest.length) 0,
        List.replicate 56 0 ++ bytes64 (8 * (done.flatten ++ rest).length)] := by
  have hzeros : zeroCount (done.flatten ++ rest).length = (63 - rest.length) + 56 := by
    rw [zeroCount, message_length hdone]
    omega
  have hpad : pad (done.flatten ++ rest) = (done ++ [rest ++ [0x80] ++
      List.replicate (63 - rest.length) 0, List.replicate 56 0 ++
        bytes64 (8 * (done.flatten ++ rest).length)]).flatten := by
    rw [pad, hzeros, List.flatten_append, List.flatten_cons, List.flatten_singleton,
      List.replicate_add]
    simp only [List.append_assoc]
  rw [hpad]
  refine blocks_flatten fun b hb => ?_
  rcases List.mem_append.mp hb with hb | hb
  · exact hdone b hb
  · rcases List.mem_cons.mp hb with rfl | hb
    · simp only [List.length_append, List.length_singleton, List.length_replicate]
      omega
    · rw [List.mem_singleton.mp hb]
      simp only [List.length_append, List.length_replicate, bytes64_length]

end Padding

/-- The length as two words. -/
theorem bytes64_eq {n : ℕ} {high low : UInt32} (h : high.toNat * 2 ^ 32 + low.toNat = n) :
    bytes64 n = bytes32 high ++ bytes32 low := by
  obtain ⟨a₃, a₂, a₁, a₀, ha, ha₃, ha₂, ha₁, ha₀⟩ := bytes32_digits high
  obtain ⟨b₃, b₂, b₁, b₀, hb, hb₃, hb₂, hb₁, hb₀⟩ := bytes32_digits low
  have hlow := low.toNat_lt
  have hbyte : ∀ (k : ℕ) (b : UInt8), n / 256 ^ k % 2 ^ 8 = b.toNat →
      UInt8.ofNat (n / 256 ^ k) = b := by
    intro k b hk
    apply UInt8.toNat_inj.mp
    rw [UInt8.toNat_ofNat']
    exact hk
  have hlist : bytes64 n = [UInt8.ofNat (n / 256 ^ 7), UInt8.ofNat (n / 256 ^ 6),
      UInt8.ofNat (n / 256 ^ 5), UInt8.ofNat (n / 256 ^ 4), UInt8.ofNat (n / 256 ^ 3),
      UInt8.ofNat (n / 256 ^ 2), UInt8.ofNat (n / 256 ^ 1), UInt8.ofNat (n / 256 ^ 0)] := rfl
  rw [hlist, ha, hb, hbyte 7 a₃ (by omega), hbyte 6 a₂ (by omega), hbyte 5 a₁ (by omega),
    hbyte 4 a₀ (by omega), hbyte 3 b₃ (by omega), hbyte 2 b₂ (by omega), hbyte 1 b₁ (by omega),
    hbyte 0 b₀ (by omega)]
  rfl

end Lib.SecureHash
