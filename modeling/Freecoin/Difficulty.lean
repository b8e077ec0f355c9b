import Freecoin.Blockchain
import Freecoin.Codec
import Freecoin.Miner

/-!
# mine.c: the target over a chain of blocks

`main` computes the target of a block from the header of the one before, and
`block_set_header` takes it as a `uchar`. `compute_next_target` has read four bytes
where the field has one, and which of them is left depends on the host: on a
little-endian one it is the target after all, so that between two recalculations every
block has the target of the one before; on a big-endian one it is a byte of the nonce,
so that whoever mines a block chooses the target of the next, among the nonces whose
hashes pass the test.
-/

namespace Freecoin

open Lib Relation

/-- A round of the outer loop of `main` after the block `prev`, when no rule of
`compute_next_target` applies, up to where `mine` hashes `block`. The header of `prev` is
what is stored under its hash, and that hash and its height are the latest ones. -/
inductive SteadyRound (env : Env .passed) (prev : Mem) : Mem → Prop where
  | worked {fns : TargetFns} {currTime : UInt32} {u : TargetMem} {dbs : Dbs}
      {latestHeight : UInt32} {latestHash : Mem} {b : NewBlock} {addr : UInt8}
      {workblock started block : Mem} {passes : List Pass} {entered : List Mem}
      (hheight : prev.slice posBlockHeight 4 = uitob latestHeight)
      (hhash : latestHash.slice 0 sizeSha256 = blockComputeHash env.digest prev)
      (hlatest : (latestHeader .passed u dbs latestHash).slice 0 sizeBlockHeader =
        prev.slice 0 sizeBlockHeader)
      (htestnet : ¬ TestnetRule currTime (btoui env.host (prev.shift posBlockTime)))
      (hrecalc : ¬ RecalcRule (blockGetHeight env.host prev))
      (hnext : b.height = latestHeight + 1) (hprev : b.prevHash = latestHash)
      (htarget : b.target = (computeNextTarget env fns currTime u dbs latestHash).toUInt8)
      (hstart : startBlock env.host env.digest addr b workblock = .ok started)
      (hloop : minerLoop env.host addr passes started = .ok (block, entered)) :
      SteadyRound env prev block

/-- The test of `mine` for the hash of a block; `isValid` stands for
`is_valid_blockhash(hash, target)`. -/
def Found (env : Env .passed) (isValid : Bytes → UInt8 → Bool) (block : Mem) : Prop :=
  (blockComputeHash env.digest block)[0]? = some 0 ∧
    isValid (blockComputeHash env.digest block) (block posBlockTarget) = true

/-- A round that ends with a block found. -/
def MinedRound (env : Env .passed) (isValid : Bytes → UInt8 → Bool) (prev block : Mem) : Prop :=
  SteadyRound env prev block ∧ Found env isValid block

/-! ## The fields of a block -/

theorem startBlock_frame {o : ByteOrder} {H : Digest} {addr : UInt8} {b : NewBlock} {w w' : Mem}
    (h : startBlock o H addr b w = .ok w') {i : ℕ} (hi : i < posBlockTxCount) :
    w' i = b.header w i := by
  rw [startBlock_eq] at h
  exact blockAddTx_frame h hi

/-- The refresh, the time and the nonce leave the fields from the height to the target alone. -/
theorem minerLoop_frame {o : ByteOrder} {addr : UInt8} {i : ℕ} (hlo : posBlockHeight ≤ i)
    (hhi : i < posBlockNonce) : ∀ {passes : List Pass} {w w' : Mem} {entered : List Mem},
      minerLoop o addr passes w = .ok (w', entered) → w' i = w i := by
  intro passes
  induction passes with
  | nil =>
      intro w w' entered h
      cases h
      rfl
  | cons pass rest ih =>
      intro w w' entered h
      obtain ⟨refreshed, hrefresh, h⟩ := ok_of_bind h
      obtain ⟨later, hlater, h⟩ := ok_of_bind h
      cases h
      rw [ih hlater, nthHeader_frame o _ (.inl hhi), Mem.write_after (Nat.le_trans (by simp) hlo),
        addMempoolTxs_frame (Nat.lt_trans hhi (by decide)) hrefresh]

/-- The last of the four bytes, in the order in which the host reads them. -/
theorem toUInt8_word32 (a b c d : UInt8) : (word32 a b c d).toUInt8 = d := by
  have h := bytes32_word32 a b c d
  simp only [bytes32, List.cons.injEq, and_true] at h
  exact h.2.2.2

/-- The byte that is left of what `compute_next_target` reads. -/
def inheritedByte (o : ByteOrder) (prev : Mem) : UInt8 :=
  match o with
  | .little => prev posBlockTarget
  | .big => prev (posBlockNonce + 2)

theorem toUInt8_btoui_target (o : ByteOrder) (prev : Mem) :
    (btoui o (prev.shift posBlockTarget)).toUInt8 = inheritedByte o prev := by
  cases o with
  | little =>
      rw [btoui_little, toUInt8_word32]
      rfl
  | big =>
      rw [btoui_big, toUInt8_word32]
      rfl

/-- A field of four bytes in the same header. -/
theorem btoui_of_header_eq {o : ByteOrder} {m p : Mem} {pos : ℕ}
    (h : m.slice 0 sizeBlockHeader = p.slice 0 sizeBlockHeader) (hpos : pos + 4 ≤ sizeBlockHeader) :
    btoui o (m.shift pos) = btoui o (p.shift pos) := by
  apply btoui_congr
  intro i hi
  have hbyte := Mem.slice_eq_iff.mp h (pos + i) (by omega)
  rwa [Nat.zero_add] at hbyte

/-- **A round**, by the target. -/
theorem SteadyRound.target {env : Env .passed} {prev block : Mem} (h : SteadyRound env prev block) :
    block posBlockTarget = inheritedByte env.host prev := by
  obtain ⟨-, -, hlatest, htestnet, hrecalc, -, -, htarget, hstart, hloop⟩ := h
  have hfield : ∀ pos, pos + 4 ≤ sizeBlockHeader →
      btoui env.host ((latestHeader .passed _ _ _).shift pos) = btoui env.host (prev.shift pos) :=
    fun pos hpos => btoui_of_header_eq hlatest hpos
  rw [minerLoop_frame (by decide) (by decide) hloop, startBlock_frame hstart (by decide),
    NewBlock.header, blockAddHeader_target, htarget, computeNextTarget_eq,
    hfield posBlockTime (by decide), blockGetHeight_of_header_eq hlatest,
    hfield posBlockTarget (by decide), if_neg htestnet, if_neg hrecalc, toUInt8_btoui_target]

/-- **A round**, by the height. -/
theorem SteadyRound.height {env : Env .passed} {prev block : Mem} (h : SteadyRound env prev block) :
    ∃ latestHeight, prev.slice posBlockHeight 4 = uitob latestHeight ∧
      block.slice posBlockHeight 4 = uitob (latestHeight + 1) := by
  obtain ⟨hheight, -, -, -, -, hnext, -, -, hstart, hloop⟩ := h
  refine ⟨_, hheight, ?_⟩
  rw [← hnext, ← blockAddHeader_field _ _ _ _ _ _ .height, Mem.slice_eq_iff]
  intro i hi
  have hbelow : posBlockHeight + i < posBlockNonce := by
    simp only [posBlockHeight, posBlockNonce]
    omega
  rw [minerLoop_frame (Nat.le_add_right _ _) hbelow hloop]
  exact startBlock_frame hstart (Nat.lt_trans hbelow (by decide))

/-- **A chain on a little-endian host.** -/
theorem target_inherited {env : Env .passed} (hlittle : env.host = .little)
    {isValid : Bytes → UInt8 → Bool} {prev block : Mem}
    (hrun : ReflTransGen (MinedRound env isValid) prev block) :
    block posBlockTarget = prev posBlockTarget := by
  apply run_frame (f := fun m : Mem => m posBlockTarget) _ hrun
  intro m m' h
  rw [h.1.target, hlittle]
  rfl

/-! ## Choosing the next target -/

section Choice

variable {env : Env .passed} (hbig : env.host = .big) {prev : Mem}

include hbig

theorem uitob_blockGetHeight (m : Mem) :
    m.slice posBlockHeight 4 = uitob (blockGetHeight env.host m) := by
  rw [blockGetHeight, hbig, btoui_big, uitob_word32]
  rfl

/-- The height is read as it was written. -/
theorem SteadyRound.blockGetHeight_eq {block : Mem} (h : SteadyRound env prev block) :
    blockGetHeight env.host block = blockGetHeight env.host prev + 1 := by
  obtain ⟨latestHeight, hprev, hblock⟩ := h.height
  rw [uitob_blockGetHeight hbig] at hprev hblock
  rw [bytes32_injective hprev, bytes32_injective hblock]

/-- A round that comes to the nonce `n`. -/
theorem exists_steadyRound (hrecalc : ¬ RecalcRule (blockGetHeight env.host prev)) (n : ℕ) :
    ∃ block, SteadyRound env prev block ∧ blockNonce block = uitob (UInt32.ofNat n) := by
  let zero : Mem := fun _ => 0
  let latestHash := Mem.ofBytes (blockComputeHash env.digest prev)
  let dbs : Dbs := { emptyNode with
    blocks := AList.insert (blockComputeHash env.digest prev) (prev.slice 0 sizeBlockHeader) ∅ }
  have hhash : latestHash.slice 0 sizeSha256 = blockComputeHash env.digest prev :=
    slice_ofBytes (Digest.length ..)
  have hlatest : (latestHeader .passed zeroTargetMem dbs latestHash).slice 0 sizeBlockHeader =
      prev.slice 0 sizeBlockHeader := by
    have hlookup : dbs.blocks.lookup (latestHash.slice 0 32) =
        some (prev.slice 0 sizeBlockHeader) := by
      rw [show latestHash.slice 0 32 = blockComputeHash env.digest prev from hhash]
      exact AList.lookup_insert _
    have hlength : (prev.slice 0 sizeBlockHeader).length = sizeBlockHeader := Mem.slice_length ..
    have htake : (prev.slice 0 sizeBlockHeader).take 83 = prev.slice 0 sizeBlockHeader :=
      List.take_of_length_le (Nat.le_of_eq hlength)
    rw [latestHeader_of_lookup hlookup, htake]
    exact Mem.slice_load _ hlength
  let b : NewBlock := ⟨1, 0, blockGetHeight env.host prev + 1, latestHash,
    (computeNextTarget env default testnetEpoch zeroTargetMem dbs latestHash).toUInt8,
    0, zero, zero, []⟩
  obtain ⟨started, hstart, hholds⟩ := startBlock_holds (o := env.host) (H := env.digest)
    (b := b) (w := zero) (.inl rfl : StartsWell _ _ 0 _ _)
  let entered := started.write posBlockTime (uitob 0)
  have hloop : minerLoop env.host 0 [⟨poolOf [], 0, n⟩] started =
      .ok (nthHeader env.host entered n, [entered]) := by
    rw [minerLoop, refresh_same (slots_poolOf []) hholds (.inr rfl)]
    rfl
  have hnonce : blockNonce entered = uitob 0 := by
    rw [← blockNonce_blockAddHeader b.version b.time b.height b.prevHash b.target zero, blockNonce,
      blockNonce, Mem.slice_eq_iff]
    intro i hi
    have hbelow : posBlockNonce + i < posBlockTxCount := by
      simp only [posBlockNonce, posBlockTxCount]
      omega
    exact (Mem.write_after (Nat.le_trans (by simp) (Nat.le_add_right posBlockNonce i))).trans
      (startBlock_frame hstart hbelow)
  refine ⟨nthHeader env.host entered n, .worked (uitob_blockGetHeight hbig prev) hhash hlatest ?_
    hrecalc rfl rfl rfl hstart hloop, ?_⟩
  · exact fun h => UInt32.lt_irrefl _ h.1
  · rw [hbig]
    exact blockNonce_nthHeader_big hnonce n

/-- **A chain on a big-endian host.** What the target after the next block can be is decided
by the nonces with which the next one can be found. -/
theorem target_chosen (hrecalc : ¬ RecalcRule (blockGetHeight env.host prev + 1))
    (isValid : Bytes → UInt8 → Bool) (target : UInt8) :
    (∃ block next, MinedRound env isValid prev block ∧ SteadyRound env block next ∧
      next posBlockTarget = target) ↔
    ∃ block, MinedRound env isValid prev block ∧ block (posBlockNonce + 2) = target := by
  constructor
  · rintro ⟨block, next, hmined, hnext, htarget⟩
    refine ⟨block, hmined, ?_⟩
    rw [← htarget, hnext.target, hbig]
    rfl
  · rintro ⟨block, hmined, hbyte⟩
    have hsteady : ¬ RecalcRule (blockGetHeight env.host block) := by
      rw [hmined.1.blockGetHeight_eq hbig]
      exact hrecalc
    obtain ⟨next, hnext, -⟩ := exists_steadyRound hbig hsteady 0
    refine ⟨block, next, hmined, hnext, ?_⟩
    rw [hnext.target, hbig]
    exact hbyte

end Choice

/-- A big-endian host with a hash function whose hashes all pass. -/
def easyEnv : Env .passed :=
  { sampleEnv with host := .big, digest := ⟨fun _ => List.replicate 32 0, fun _ => rfl⟩ }

end Freecoin
