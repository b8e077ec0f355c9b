import Freecoin.Blocks

/-!
# mine.c: the nonce search

`mine` hashes the header, tests the hash and increments the nonce until its
time is up. The increment decodes the nonce with `btoui`, adds one and encodes
with `uitob`. On a big-endian host decoding inverts encoding and the search
walks through all 2³² nonces. On a little-endian host the decoder also
reverses the bytes, and two increments together count the outer byte pair and
the inner byte pair up at the same time: the nonce `(k, k)` goes to
`(k+1, k+1)`, so the search is back at its start after 2¹⁷ - 1 headers.
-/

namespace Freecoin

open Lib

/-- The loop of `mine(workblock, target, mtime)` over as many passes as the
clock allows: the headers it hashes, in order. `isValid` stands for
`is_valid_blockhash` at the given target. -/
def mine (o : ByteOrder) (H : Digest) (isValid : Bytes → Bool) : ℕ → Mem → List Mem
  | 0, _ => []
  | passes + 1, workblock =>
      let hash := H (workblock.slice 0 sizeBlockHeader)
      if hash[0]? = some 0 && isValid hash then [workblock]
      else workblock :: mine o H isValid passes (blockIncNonce o workblock)

/-- The four bytes of the nonce field. -/
def blockNonce (block : Mem) : Bytes := block.slice posBlockNonce 4

/-- The header after `n` increments. -/
def nthHeader (o : ByteOrder) (header : Mem) (n : ℕ) : Mem := (blockIncNonce o)^[n] header

/-- The search tries every nonce exactly once before it repeats one, and
touches nothing but the nonce. -/
structure ExhaustiveSearch (o : ByteOrder) (header : Mem) : Prop where
  distinct : ∀ i < 2 ^ 32, ∀ j < 2 ^ 32,
    blockNonce (nthHeader o header i) = blockNonce (nthHeader o header j) → i = j
  covers : ∀ nonce : Bytes, nonce.length = 4 →
    ∃ i < 2 ^ 32, blockNonce (nthHeader o header i) = nonce
  frame : ∀ i < 2 ^ 32, ∀ p, p < posBlockNonce ∨ posBlockTxCount ≤ p →
    nthHeader o header i p = header p
  mined : ∀ (H : Digest) (isValid : Bytes → Bool), ∀ n ≤ 2 ^ 32,
    ((mine o H isValid n header).map blockNonce).Nodup

/-! ## One increment -/

theorem blockIncNonce_frame (o : ByteOrder) (block : Mem) {p : ℕ}
    (h : p < posBlockNonce ∨ posBlockTxCount ≤ p) : blockIncNonce o block p = block p := by
  rcases h with h | h
  · exact Mem.write_before _ h
  · exact Mem.write_after h

theorem blockNonce_blockIncNonce (o : ByteOrder) (block : Mem) :
    blockNonce (blockIncNonce o block) = uitob (btoui o (block.shift posBlockNonce) + 1) :=
  Mem.slice_write block posBlockNonce _

/-- What the decoder reads at the nonce field, from the field's four bytes. -/
theorem btoui_nonce {o : ByteOrder} {block : Mem} {a b c d : UInt8}
    (h : blockNonce block = [a, b, c, d]) :
    btoui o (block.shift posBlockNonce) =
      match o with
      | .big => word32 a b c d
      | .little => word32 d c b a := by
  simp only [blockNonce, Mem.slice, List.range_succ, List.range_zero, List.nil_append,
    List.map_cons, List.map_nil, List.cons_append,
    List.cons.injEq, and_true] at h
  obtain ⟨ha, hb, hc, hd⟩ := h
  cases o with
  | big => rw [btoui_big]; simp only [Mem.shift, ha, hb, hc, hd]
  | little => rw [btoui_little]; simp only [Mem.shift, ha, hb, hc, hd]

theorem nthHeader_succ (o : ByteOrder) (header : Mem) (n : ℕ) :
    nthHeader o header (n + 1) = blockIncNonce o (nthHeader o header n) :=
  Function.iterate_succ_apply' _ _ _

theorem nthHeader_frame (o : ByteOrder) (header : Mem) {p : ℕ}
    (h : p < posBlockNonce ∨ posBlockTxCount ≤ p) (n : ℕ) :
    nthHeader o header n p = header p := by
  induction n with
  | zero => rfl
  | succ n ih => rw [nthHeader_succ, blockIncNonce_frame o _ h, ih]

/-- The headers hashed in `n` passes are the first iterates of the increment,
cut off at the first success. -/
theorem mine_prefix (o : ByteOrder) (H : Digest) (isValid : Bytes → Bool) :
    ∀ (n : ℕ) (header : Mem),
      ∃ k ≤ n, mine o H isValid n header = (List.range k).map (nthHeader o header) := by
  intro n
  induction n with
  | zero => intro header; exact ⟨0, Nat.le_refl _, rfl⟩
  | succ n ih =>
      intro header
      simp only [mine]
      split
      · exact ⟨1, by omega, rfl⟩
      · obtain ⟨k, hk, heq⟩ := ih (blockIncNonce o header)
        refine ⟨k + 1, by omega, ?_⟩
        rw [heq, List.range_succ_eq_map, List.map_cons, List.map_map]
        rfl

/-! ## A big-endian host counts -/

theorem uitob_surjective {bs : Bytes} (h : bs.length = 4) : ∃ a, uitob a = bs := by
  obtain ⟨a, b, c, d, rfl⟩ : ∃ a b c d, bs = [a, b, c, d] := by
    match bs, h with
    | [a, b, c, d], _ => exact ⟨a, b, c, d, rfl⟩
  exact ⟨word32 a b c d, uitob_word32 a b c d⟩

theorem blockNonce_nthHeader_big {header : Mem} (h0 : blockNonce header = uitob 0) (n : ℕ) :
    blockNonce (nthHeader .big header n) = uitob (UInt32.ofNat n) := by
  induction n with
  | zero => exact h0
  | succ n ih =>
      obtain ⟨a, b, c, d, hb, -⟩ := bytes32_digits (UInt32.ofNat n)
      rw [nthHeader_succ, blockNonce_blockIncNonce, btoui_nonce (ih.trans hb)]
      simp only [word32_bytes32 hb, UInt32.ofNat_add]
      rfl

theorem uint32_ofNat_inj {i j : ℕ} (hi : i < 2 ^ 32) (hj : j < 2 ^ 32)
    (h : UInt32.ofNat i = UInt32.ofNat j) : i = j := by
  have h' := congrArg UInt32.toNat h
  rwa [UInt32.toNat_ofNat', UInt32.toNat_ofNat', Nat.mod_eq_of_lt hi, Nat.mod_eq_of_lt hj] at h'

theorem exhaustiveSearch_big {header : Mem} (h0 : blockNonce header = uitob 0) :
    ExhaustiveSearch .big header := by
  have hdistinct : ∀ i < 2 ^ 32, ∀ j < 2 ^ 32,
      blockNonce (nthHeader .big header i) = blockNonce (nthHeader .big header j) → i = j := by
    intro i hi j hj h
    rw [blockNonce_nthHeader_big h0, blockNonce_nthHeader_big h0] at h
    exact uint32_ofNat_inj hi hj (bytes32_injective h)
  refine ⟨hdistinct, ?_, fun i _ p hp => nthHeader_frame .big header hp i, ?_⟩
  · intro nonce hlen
    obtain ⟨a, rfl⟩ := uitob_surjective hlen
    refine ⟨a.toNat, a.toNat_lt, ?_⟩
    rw [blockNonce_nthHeader_big h0, UInt32.ofNat_toNat]
  · intro H isValid n hn
    obtain ⟨k, hk, heq⟩ := mine_prefix .big H isValid n header
    rw [heq, List.map_map]
    refine List.Nodup.map_on ?_ List.nodup_range
    intro i hi j hj h
    rw [List.mem_range] at hi hj
    exact hdistinct i (by omega) j (by omega) h

/-! ## A little-endian host runs in a short circle -/

/-- Two increments on a little-endian host take the byte pairs `(k, k)` to
`(k + 1, k + 1)`: the first counts in the outer byte of the reversed word, the
second in the word itself, and the carries go inwards on both sides. -/
theorem blockNonce_two_little {header : Mem} {lo hi lo' hi' : UInt8}
    (h : blockNonce header = [lo, hi, hi, lo])
    (hsucc : hi'.toNat * 2 ^ 8 + lo'.toNat = hi.toNat * 2 ^ 8 + lo.toNat + 1) :
    blockNonce (blockIncNonce .little (blockIncNonce .little header)) = [lo', hi', hi', lo'] := by
  have hlo := lo.toNat_lt
  have hhi := hi.toNat_lt
  have hlo' := lo'.toNat_lt
  have hhi' := hi'.toNat_lt
  have hone : (1 : UInt32).toNat = 1 := rfl
  have h1 : blockNonce (blockIncNonce .little header) = [lo, hi, hi', lo'] := by
    rw [blockNonce_blockIncNonce, btoui_nonce h]
    rw [← uitob_word32 lo hi hi' lo']
    congr 1
    apply UInt32.toNat_inj.mp
    rw [UInt32.toNat_add, word32_toNat, word32_toNat, hone]
    omega
  rw [blockNonce_blockIncNonce, btoui_nonce h1]
  rw [← uitob_word32 lo' hi' hi' lo']
  congr 1
  apply UInt32.toNat_inj.mp
  rw [UInt32.toNat_add, word32_toNat, word32_toNat, hone]
  omega

theorem blockNonce_even_little {header : Mem} (h0 : blockNonce header = uitob 0) :
    ∀ k < 2 ^ 16, blockNonce (nthHeader .little header (2 * k)) =
      [UInt8.ofNat k, UInt8.ofNat (k / 2 ^ 8), UInt8.ofNat (k / 2 ^ 8), UInt8.ofNat k] := by
  intro k
  induction k with
  | zero => intro _; exact h0
  | succ k ih =>
      intro hk
      rw [show 2 * (k + 1) = 2 * k + 1 + 1 by ring, nthHeader_succ, nthHeader_succ]
      refine blockNonce_two_little (ih (by omega)) ?_
      simp only [UInt8.toNat_ofNat']
      omega

/-- The little-endian search is back at nonce 0 after 2¹⁷ - 1 increments. -/
theorem blockNonce_circle_little {header : Mem} (h0 : blockNonce header = uitob 0) :
    blockNonce (nthHeader .little header (2 ^ 17 - 1)) = uitob 0 := by
  have h := blockNonce_even_little h0 (2 ^ 16 - 1) (by norm_num)
  rw [show 2 ^ 17 - 1 = 2 * (2 ^ 16 - 1) + 1 by norm_num, nthHeader_succ,
    blockNonce_blockIncNonce, btoui_nonce h]
  decide

theorem not_exhaustiveSearch_little {header : Mem} (h0 : blockNonce header = uitob 0) :
    ¬ ExhaustiveSearch .little header := by
  intro hs
  have h := hs.distinct (2 ^ 17 - 1) (by norm_num) 0 (by norm_num)
    ((blockNonce_circle_little h0).trans h0.symm)
  norm_num at h

/-! ## Headers from `block_add_header` -/

theorem blockNonce_blockAddHeader (version : UInt16) (time height : UInt32) (prevHash : Mem)
    (target : UInt8) (dest : Mem) :
    blockNonce (blockAddHeader version time height prevHash target dest) = uitob 0 := by
  unfold blockNonce blockAddHeader
  rw [Mem.slice_write_disjoint (by simp)]
  exact Mem.slice_write _ _ _

/-- **The nonce search is exhaustive exactly on big-endian hosts.** -/
theorem mine_exhaustive_iff_big (o : ByteOrder) (version : UInt16) (time height : UInt32)
    (prevHash : Mem) (target : UInt8) (dest : Mem) :
    ExhaustiveSearch o (blockAddHeader version time height prevHash target dest) ↔ o = .big := by
  have h0 := blockNonce_blockAddHeader version time height prevHash target dest
  cases o with
  | big => exact ⟨fun _ => rfl, fun _ => exhaustiveSearch_big h0⟩
  | little => exact ⟨fun h => absurd h (not_exhaustiveSearch_little h0), fun h => nomatch h⟩

/-- On a little-endian host the search fails for the header of a block at
height 1 on top of an all-zero hash. -/
theorem mine_repeats_little :
    ¬ ExhaustiveSearch .little
      (blockAddHeader 1 1435969063 1 (fun _ => 0) 0 (fun _ => 0)) :=
  not_exhaustiveSearch_little (blockNonce_blockAddHeader _ _ _ _ _ _)

end Freecoin
