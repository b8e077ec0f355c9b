import Freecoin.Util

/-!
# crypto.c: SHA-256 as written

`sha256_init`, `sha256_update`, `sha256_transform` and `sha256_final`. The
last loop of `sha256_final` has its shifts commented out: each of the four
bytes it writes for a state word is the low byte of that word.
-/

namespace Freecoin

open Lib

/-- A hash function with 32-byte results. -/
structure Digest : Type where
  hash : Bytes → Bytes
  hash_length : ∀ m, (hash m).length = sizeSha256

instance : CoeFun Digest fun _ => Bytes → Bytes := ⟨Digest.hash⟩

@[simp] theorem Digest.length (H : Digest) (m : Bytes) : (H m).length = 32 :=
  H.hash_length m

/-! ## The compression function -/

def rotRight (a b : UInt32) : UInt32 := (a >>> b) ||| (a <<< (32 - b))
def ch (x y z : UInt32) : UInt32 := (x &&& y) ^^^ (~~~x &&& z)
def maj (x y z : UInt32) : UInt32 := (x &&& y) ^^^ (x &&& z) ^^^ (y &&& z)
def ep0 (x : UInt32) : UInt32 := rotRight x 2 ^^^ rotRight x 13 ^^^ rotRight x 22
def ep1 (x : UInt32) : UInt32 := rotRight x 6 ^^^ rotRight x 11 ^^^ rotRight x 25
def sig0 (x : UInt32) : UInt32 := rotRight x 7 ^^^ rotRight x 18 ^^^ (x >>> 3)
def sig1 (x : UInt32) : UInt32 := rotRight x 17 ^^^ rotRight x 19 ^^^ (x >>> 10)

/-- The table `k`. -/
def sha256K : List UInt32 :=
  [0x428a2f98, 0x71374491, 0xb5c0fbcf, 0xe9b5dba5, 0x3956c25b, 0x59f111f1, 0x923f82a4, 0xab1c5ed5,
   0xd807aa98, 0x12835b01, 0x243185be, 0x550c7dc3, 0x72be5d74, 0x80deb1fe, 0x9bdc06a7, 0xc19bf174,
   0xe49b69c1, 0xefbe4786, 0x0fc19dc6, 0x240ca1cc, 0x2de92c6f, 0x4a7484aa, 0x5cb0a9dc, 0x76f988da,
   0x983e5152, 0xa831c66d, 0xb00327c8, 0xbf597fc7, 0xc6e00bf3, 0xd5a79147, 0x06ca6351, 0x14292967,
   0x27b70a85, 0x2e1b2138, 0x4d2c6dfc, 0x53380d13, 0x650a7354, 0x766a0abb, 0x81c2c92e, 0x92722c85,
   0xa2bfe8a1, 0xa81a664b, 0xc24b8b70, 0xc76c51a3, 0xd192e819, 0xd6990624, 0xf40e3585, 0x106aa070,
   0x19a4c116, 0x1e376c08, 0x2748774c, 0x34b0bcb5, 0x391c0cb3, 0x4ed8aa4a, 0x5b9cca4f, 0x682e6ff3,
   0x748f82ee, 0x78a5636f, 0x84c87814, 0x8cc70208, 0x90befffa, 0xa4506ceb, 0xbef9a3f7, 0xc67178f2]

/-- The eight state words. -/
structure ShaState : Type where
  (a b c d e f g h : UInt32)
deriving DecidableEq

/-- `m[0..15]`: the data words, most significant byte first. -/
def shaWords : Bytes → List UInt32
  | a :: b :: c :: d :: rest => word32 a b c d :: shaWords rest
  | _ => []

/-- `m[i] = SIG1(m[i-2]) + m[i-7] + SIG0(m[i-15]) + m[i-16]`, `n` more times. -/
def shaSchedule : ℕ → List UInt32 → List UInt32
  | 0, m => m
  | n + 1, m =>
      let i := m.length
      shaSchedule n (m ++ [sig1 (m.getD (i - 2) 0) + m.getD (i - 7) 0
        + sig0 (m.getD (i - 15) 0) + m.getD (i - 16) 0])

/-- One of the 64 rounds; `km` is `k[i]` and `m[i]`. -/
def shaRound (s : ShaState) (km : UInt32 × UInt32) : ShaState :=
  let t1 := s.h + ep1 s.e + ch s.e s.f s.g + km.1 + km.2
  let t2 := ep0 s.a + maj s.a s.b s.c
  ⟨t1 + t2, s.a, s.b, s.c, s.d + t1, s.e, s.f, s.g⟩

/-- `sha256_transform(ctx, data)`, on the state words. -/
def sha256Transform (s : ShaState) (data : Bytes) : ShaState :=
  let m := shaSchedule 48 (shaWords data)
  let r := (sha256K.zip m).foldl shaRound s
  ⟨s.a + r.a, s.b + r.b, s.c + r.c, s.d + r.d, s.e + r.e, s.f + r.f, s.g + r.g, s.h + r.h⟩

/-! ## The context -/

/-- `SHA256_CTX`. -/
structure ShaCtx : Type where
  data : Bytes
  datalen : ℕ
  bitlen0 : UInt32
  bitlen1 : UInt32
  state : ShaState

/-- `sha256_init(ctx)`; `data` is what the 64 buffer bytes hold. -/
def sha256Init (data : Bytes) : ShaCtx where
  data := data
  datalen := 0
  bitlen0 := 0
  bitlen1 := 0
  state := ⟨0x6a09e667, 0xbb67ae85, 0x3c6ef372, 0xa54ff53a,
    0x510e527f, 0x9b05688c, 0x1f83d9ab, 0x5be0cd19⟩

/-- `DBL_INT_ADD(bitlen[0], bitlen[1], c)`. -/
def ShaCtx.addBits (ctx : ShaCtx) (c : UInt32) : ShaCtx :=
  { ctx with
    bitlen0 := ctx.bitlen0 + c
    bitlen1 := if 0xffffffff - c < ctx.bitlen0 then ctx.bitlen1 + 1 else ctx.bitlen1 }

/-- One byte of `sha256_update`. -/
def sha256UpdateByte (ctx : ShaCtx) (b : UInt8) : ShaCtx :=
  let data := ctx.data.set ctx.datalen b
  if ctx.datalen + 1 = 64 then
    { ctx with data := data, state := sha256Transform ctx.state data, datalen := 0 }.addBits 512
  else { ctx with data := data, datalen := ctx.datalen + 1 }

/-- `sha256_update(ctx, data, len)`. -/
def sha256Update (ctx : ShaCtx) (data : Bytes) : ShaCtx := data.foldl sha256UpdateByte ctx

/-- `n` passes of `ctx->data[i++] = 0x00`. -/
def fillZero : ℕ → ℕ → Bytes → Bytes
  | 0, _, data => data
  | n + 1, i, data => fillZero n (i + 1) (data.set i 0)

/-- The padding of `sha256_final`, up to the bit count. -/
def sha256Pad (ctx : ShaCtx) : ShaCtx :=
  let data := ctx.data.set ctx.datalen 0x80
  if ctx.datalen < 56 then
    { ctx with data := fillZero (56 - (ctx.datalen + 1)) (ctx.datalen + 1) data }
  else
    let data := fillZero (64 - (ctx.datalen + 1)) (ctx.datalen + 1) data
    { ctx with data := fillZero 56 0 data, state := sha256Transform ctx.state data }

/-- `sha256_final(ctx, hash)`. -/
def sha256Final (ctx : ShaCtx) : Bytes :=
  let ctx := (sha256Pad ctx).addBits (UInt32.ofNat ctx.datalen * 8)
  let data := ctx.data.take 56 ++ bytes32 ctx.bitlen1 ++ bytes32 ctx.bitlen0
  let s := sha256Transform ctx.state data
  [s.a, s.b, s.c, s.d, s.e, s.f, s.g, s.h].flatMap fun w => List.replicate 4 w.toUInt8

/-- The digest of the program: `sha256_init`, one `sha256_update`, `sha256_final`. -/
def sha256 : Digest where
  hash := fun m => sha256Final (sha256Update (sha256Init (List.replicate 64 0)) m)
  hash_length := by intro m; simp [sha256Final, List.flatMap]

/-- The low bytes of the eight words of the digest of `abc`, four times each. -/
example : sha256 [0x61, 0x62, 0x63] =
    [0xbf, 0xea, 0xde, 0x23, 0xa3, 0x9c, 0x61, 0xad].flatMap (List.replicate 4) := by
  decide +kernel

end Freecoin
