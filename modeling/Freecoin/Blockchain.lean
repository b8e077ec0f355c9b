import Freecoin.Bignum
import Freecoin.Data.View

/-!
# blockchain.c: the next target

`compute_next_target` reads time, height and target from the header of the
latest block. The target field is one byte wide and is read with `btoui`,
which takes the first three bytes of the nonce along. On the recalculation
branch the new target is computed into `buffer1` and divided into `buffer2`;
since `big_div` does nothing, what is turned into a target is what the memory
of `buffer2` held.

`target_to_etarget` and `etarget_to_target` are only declared, and are
parameters here. `uint_to_bytes` and `block_get_uint`, declared nowhere, are
read as `uitob` and `btoui`.
-/

namespace Freecoin

open Lib

@[simp] def testnetEpoch : UInt32 := 1483228800
@[simp] def recalcTargetInterval : UInt32 := 144
@[simp] def secondsIn20Minutes : UInt32 := 1200
@[simp] def secondsInHalfWeek : UInt32 := 5040
@[simp] def secondsIn8Weeks : UInt32 := 80640

/-- The two functions that convert targets. -/
structure TargetFns : Type where
  /-- The memory of `etarget` afterwards. -/
  targetToEtarget : UInt32 → Mem → Mem
  etargetToTarget : Bytes → UInt32

instance : Inhabited TargetFns := ⟨⟨fun _ m => m, fun _ => 0⟩⟩

/-- What `malloc` returned for each of the buffers, and the array `divisor`. `big_mult` writes
64 bytes from `buffer1` on, which is 36 bytes long, so `buffer2` is what that buffer holds
when it is read. -/
structure TargetMem : Type where
  block : Mem
  recalcBlockHash : Mem
  recalcBlock : Mem
  etarget : Mem
  bigDiff : Mem
  divisor : Mem
  buffer1 : Mem
  buffer2 : Mem

/-- The first condition of `compute_next_target`. -/
def TestnetRule (currTime blockTime : UInt32) : Prop :=
  currTime < testnetEpoch ∧ secondsIn20Minutes ≤ currTime - blockTime

/-- The second one. -/
def RecalcRule (blockHeight : UInt32) : Prop :=
  0 < blockHeight ∧ blockHeight % recalcTargetInterval = 0

instance (currTime blockTime : UInt32) : Decidable (TestnetRule currTime blockTime) :=
  inferInstanceAs (Decidable (_ ∧ _))

instance (blockHeight : UInt32) : Decidable (RecalcRule blockHeight) :=
  inferInstanceAs (Decidable (_ ∧ _))

/-- `diff`, with its two bounds. -/
def recalcDiff (blockTime recalcBlockTime : UInt32) : UInt32 :=
  let diff := blockTime - recalcBlockTime
  if secondsIn8Weeks < diff then secondsIn8Weeks
  else if diff < secondsInHalfWeek then secondsInHalfWeek
  else diff

variable {B : Bdb} (env : Env B) (fns : TargetFns) (currTime : UInt32) (u : TargetMem) (dbs : Dbs)

/-- The header of the recalculation block. -/
def recalcHeader (blockHeight : UInt32) : Mem :=
  let recalcBlockHash :=
    (dataChainGet env dbs (blockHeight - recalcTargetInterval) u.recalcBlockHash).2
  (dataBlocksGetHeader B dbs recalcBlockHash u.recalcBlock).2

/-- The recalculation branch. -/
def recalcTarget (blockTime blockHeight blockTarget : UInt32) : UInt32 :=
  let recalcBlock := recalcHeader env u dbs blockHeight
  let recalcBlockTime := btoui env.host (recalcBlock.shift posBlockTime)
  let diff := recalcDiff blockTime recalcBlockTime
  let etarget := fns.targetToEtarget blockTarget u.etarget
  let bigDiff := u.bigDiff.write 0 (uitob diff)
  let divisor := u.divisor.write 0 (uitob 2)
  let buffer1 := bigMult etarget sizeSha256 bigDiff sizeSha256 u.buffer1
  let buffer2 := bigDiv buffer1 divisor u.buffer2
  let buffer1 := buffer1.write 0 (List.replicate sizeSha256 0xff)
  if 0 < bigCompare buffer2 buffer1 sizeSha256 then
    fns.etargetToTarget (buffer1.slice 0 sizeSha256)
  else fns.etargetToTarget (buffer2.slice 0 sizeSha256)

/-- The header of the latest block, as far as it is stored. -/
def latestHeader (B : Bdb) (u : TargetMem) (dbs : Dbs) (blockHash : Mem) : Mem :=
  (dataBlocksGetHeader B dbs blockHash u.block).2

/-- `compute_next_target(dbs, block_hash)`. -/
def computeNextTarget (blockHash : Mem) : UInt32 :=
  let block := latestHeader B u dbs blockHash
  let blockTime := btoui env.host (block.shift posBlockTime)
  let blockHeight := btoui env.host (block.shift posBlockHeight)
  let blockTarget := btoui env.host (block.shift posBlockTarget)
  if TestnetRule currTime blockTime then 0
  else if RecalcRule blockHeight then recalcTarget env fns u dbs blockTime blockHeight blockTarget
  else blockTarget

/-! ## What is returned -/

/-- The recalculation has no influence on its result. -/
theorem recalcTarget_eq (blockTime blockHeight blockTarget : UInt32) :
    recalcTarget env fns u dbs blockTime blockHeight blockTarget =
      fns.etargetToTarget (u.buffer2.slice 0 sizeSha256) := by
  unfold recalcTarget
  dsimp only
  rw [if_neg]
  · rfl
  · apply Int.not_lt.mpr
    apply bigCompareFrom_ones
    intro k hk
    apply Mem.write_in
    exact List.getElem?_replicate_of_lt hk

theorem computeNextTarget_eq (blockHash : Mem) :
    computeNextTarget env fns currTime u dbs blockHash =
      if TestnetRule currTime (btoui env.host ((latestHeader B u dbs blockHash).shift posBlockTime))
        then 0
      else if RecalcRule (blockGetHeight env.host (latestHeader B u dbs blockHash)) then
        fns.etargetToTarget (u.buffer2.slice 0 sizeSha256)
      else btoui env.host ((latestHeader B u dbs blockHash).shift posBlockTarget) := by
  unfold computeNextTarget
  dsimp only
  rw [recalcTarget_eq]
  rfl

/-! ## The four bytes read as a target -/

/-- `btoui` tells four bytes apart from any others. -/
theorem btoui_eq_iff {o : ByteOrder} {m p : Mem} : btoui o m = btoui o p ↔ ∀ i < 4, m i = p i := by
  constructor
  · intro h
    have hbytes : m 0 = p 0 ∧ m 1 = p 1 ∧ m 2 = p 2 ∧ m 3 = p 3 := by
      cases o with
      | big =>
          rw [btoui_big, btoui_big] at h
          have hlist := congrArg bytes32 h
          rw [bytes32_word32, bytes32_word32] at hlist
          simpa only [List.cons.injEq, and_true] using hlist
      | little =>
          rw [btoui_little, btoui_little] at h
          have hlist := congrArg bytes32 h
          rw [bytes32_word32, bytes32_word32] at hlist
          simp only [List.cons.injEq, and_true] at hlist
          obtain ⟨h3, h2, h1, h0⟩ := hlist
          exact ⟨h0, h1, h2, h3⟩
    obtain ⟨h0, h1, h2, h3⟩ := hbytes
    intro i hi
    interval_cases i
    · exact h0
    · exact h1
    · exact h2
    · exact h3
  · exact btoui_congr

/-- The first three bytes of the nonce are zero, and on a big-endian host the target
is too. -/
def TargetAlone (o : ByteOrder) (block : Mem) : Prop :=
  (∀ i < 3, block (posBlockNonce + i) = 0) ∧ (o = .big → block posBlockTarget = 0)

theorem btoui_target_iff {o : ByteOrder} {block : Mem} :
    (btoui o (block.shift posBlockTarget)).toNat = (block posBlockTarget).toNat ↔
      TargetAlone o block := by
  have hzero : ∀ b : UInt8, b = 0 ↔ b.toNat = 0 := fun b => UInt8.toNat_inj.symm
  have hbounds : ∀ i, (block i).toNat < 2 ^ 8 := fun i => (block i).toNat_lt
  have hnonce : (∀ i < 3, block (posBlockNonce + i) = 0) ↔
      (block 75).toNat = 0 ∧ (block 76).toNat = 0 ∧ (block 77).toNat = 0 := by
    rw [← hzero, ← hzero, ← hzero]
    constructor
    · intro h
      exact ⟨h 0 (by decide), h 1 (by decide), h 2 (by decide)⟩
    · rintro ⟨h0, h1, h2⟩ i hi
      interval_cases i
      · exact h0
      · exact h1
      · exact h2
  have h74 := hbounds 74
  have h75 := hbounds 75
  have h76 := hbounds 76
  have h77 := hbounds 77
  rw [TargetAlone, hnonce]
  cases o with
  | big =>
      rw [btoui_big, word32_toNat, hzero]
      simp only [Mem.shift, posBlockTarget, true_implies, Nat.reduceAdd]
      omega
  | little =>
      rw [btoui_little, word32_toNat]
      simp only [Mem.shift, posBlockTarget, reduceCtorEq, false_implies, and_true, Nat.reduceAdd]
      omega

/-! ## Two runs -/

/-- Two headers agree on time, height and target. -/
structure SameTargetFields (block block' : Mem) : Prop where
  time : block.slice posBlockTime 4 = block'.slice posBlockTime 4
  height : block.slice posBlockHeight 4 = block'.slice posBlockHeight 4
  target : block posBlockTarget = block' posBlockTarget

theorem btoui_of_slice_eq {o : ByteOrder} {m p : Mem} {pos : ℕ}
    (h : m.slice pos 4 = p.slice pos 4) : btoui o (m.shift pos) = btoui o (p.shift pos) :=
  btoui_congr (Mem.slice_eq_iff.mp h)

/-- The target field being the same, the nonces decide. -/
theorem btoui_target_eq_iff {o : ByteOrder} {block block' : Mem}
    (h : block posBlockTarget = block' posBlockTarget) :
    btoui o (block.shift posBlockTarget) = btoui o (block'.shift posBlockTarget) ↔
      block.slice posBlockNonce 3 = block'.slice posBlockNonce 3 := by
  rw [btoui_eq_iff, Mem.slice_eq_iff]
  constructor
  · intro hall i hi
    have hbyte := hall (i + 1) (Nat.succ_lt_succ hi)
    simp only [Mem.shift, posBlockTarget, posBlockNonce] at hbyte ⊢
    rwa [Nat.add_comm i, ← Nat.add_assoc] at hbyte
  · intro hnonce i hi
    cases i with
    | zero => exact h
    | succ i =>
        have hbyte := hnonce i (Nat.lt_of_succ_lt_succ hi)
        simp only [Mem.shift, posBlockTarget, posBlockNonce] at hbyte ⊢
        rwa [Nat.add_comm i, ← Nat.add_assoc]

/-- Some function tells two byte strings apart. -/
theorem forall_targetFns_iff {b b' : Bytes} :
    (∀ fns : TargetFns, fns.etargetToTarget b = fns.etargetToTarget b') ↔ b = b' := by
  constructor
  · intro h
    by_contra hne
    have htold := h ⟨fun _ m => m, fun x => if x = b then 0 else 1⟩
    dsimp only at htold
    rw [if_pos rfl, if_neg (Ne.symm hne)] at htold
    exact absurd htold (by decide)
  · rintro rfl fns
    rfl

/-- **The next target.** Two runs at the same time, on headers with the same time,
height and target, return the same value whatever the conversions if and only if
the testnet rule applies, or the recalculation rule applies and `buffer2` held
the same bytes, or the recalculation rule does not apply and the first three
bytes of the nonces agree. Where neither rule applies the value is the byte at
`POS_BLOCK_TARGET` if and only if these three bytes are zero, and on a
big-endian host the byte itself is. -/
theorem computeNextTarget_iff (env : Env B) (currTime : UInt32) (u u' : TargetMem) (dbs dbs' : Dbs)
    (blockHash blockHash' : Mem)
    (hfields : SameTargetFields (latestHeader B u dbs blockHash)
      (latestHeader B u' dbs' blockHash')) :
    ((∀ fns, computeNextTarget env fns currTime u dbs blockHash =
        computeNextTarget env fns currTime u' dbs' blockHash') ↔
      TestnetRule currTime (btoui env.host ((latestHeader B u dbs blockHash).shift posBlockTime)) ∨
      (RecalcRule (blockGetHeight env.host (latestHeader B u dbs blockHash)) ∧
        u.buffer2.slice 0 sizeSha256 = u'.buffer2.slice 0 sizeSha256) ∨
      (¬ RecalcRule (blockGetHeight env.host (latestHeader B u dbs blockHash)) ∧
        (latestHeader B u dbs blockHash).slice posBlockNonce 3 =
          (latestHeader B u' dbs' blockHash').slice posBlockNonce 3)) ∧
    (¬ TestnetRule currTime
        (btoui env.host ((latestHeader B u dbs blockHash).shift posBlockTime)) →
      ¬ RecalcRule (blockGetHeight env.host (latestHeader B u dbs blockHash)) →
      ∀ fns, (computeNextTarget env fns currTime u dbs blockHash).toNat =
          (latestHeader B u dbs blockHash posBlockTarget).toNat ↔
        TargetAlone env.host (latestHeader B u dbs blockHash)) := by
  have htime := btoui_of_slice_eq (o := env.host) hfields.time
  have hheight : blockGetHeight env.host (latestHeader B u dbs blockHash) =
      blockGetHeight env.host (latestHeader B u' dbs' blockHash') :=
    btoui_of_slice_eq hfields.height
  simp only [computeNextTarget_eq]
  rw [← htime, ← hheight]
  constructor
  · by_cases htestnet : TestnetRule currTime
      (btoui env.host ((latestHeader B u dbs blockHash).shift posBlockTime))
    · simp only [if_pos htestnet, implies_true]
      exact ⟨fun _ => .inl htestnet, fun _ => trivial⟩
    · by_cases hrecalc : RecalcRule (blockGetHeight env.host (latestHeader B u dbs blockHash))
      · simp only [if_neg htestnet, if_pos hrecalc]
        rw [forall_targetFns_iff]
        simp only [htestnet, hrecalc, false_or, true_and, not_true_eq_false, false_and, or_false]
      · simp only [if_neg htestnet, if_neg hrecalc, btoui_target_eq_iff hfields.target,
          forall_const]
        simp only [htestnet, hrecalc, false_or, false_and, not_false_eq_true, true_and]
  · intro htestnet hrecalc fns
    rw [if_neg htestnet, if_neg hrecalc]
    exact btoui_target_iff

theorem latestHeader_of_lookup {u : TargetMem} {dbs : Dbs} {blockHash : Mem} {r : Bytes}
    (h : dbs.blocks.lookup (blockHash.slice 0 32) = some r) :
    latestHeader .passed u dbs blockHash = u.block.load (r.take 83) := by
  unfold latestHeader
  rcases dataBlocksGetHeader_cases dbs blockHash u.block with ⟨r', hr, hget⟩ | ⟨hnone, -⟩
  · rw [h] at hr
    cases hr
    rw [hget]
  · rw [h] at hnone
    cases hnone

theorem dataBlocksGetHeader_of_none {dbs : Dbs} {blockHash dest : Mem}
    (h : dbs.blocks.lookup (blockHash.slice 0 32) = none) :
    dataBlocksGetHeader .passed dbs blockHash dest = (false, dest) := by
  rcases dataBlocksGetHeader_cases dbs blockHash dest with ⟨r, hr, -⟩ | ⟨-, hget⟩
  · rw [h] at hr
    cases hr
  · exact hget

/-! ## Two nonces -/

/-- A header of height 0 that is zero but for the first byte of its nonce. -/
def nonceBlock (v : UInt8) : Mem := Mem.ofBytes (List.replicate 75 0 ++ [v] ++ List.replicate 7 0)

def nonceHash (v : UInt8) : Mem := Mem.ofBytes (blockComputeHash sha256 (nonceBlock v))

/-- A node that has stored it. -/
def nonceNode (v : UInt8) : Dbs :=
  { emptyNode with
    blocks := AList.insert (blockComputeHash sha256 (nonceBlock v)) ((nonceBlock v).slice 0 83) ∅ }

/-- Memory that holds zeros. -/
def zeroTargetMem : TargetMem :=
  ⟨fun _ => 0, fun _ => 0, fun _ => 0, fun _ => 0, fun _ => 0, fun _ => 0, fun _ => 0, fun _ => 0⟩

theorem nonceNode_lookup (v : UInt8) :
    (nonceNode v).blocks.lookup ((nonceHash v).slice 0 32) = some ((nonceBlock v).slice 0 83) := by
  have hkey : (nonceHash v).slice 0 32 = blockComputeHash sha256 (nonceBlock v) :=
    slice_ofBytes (blockComputeHash_length ..)
  rw [hkey, nonceNode]
  exact AList.lookup_insert _

theorem nonceNode_header (v : UInt8) :
    latestHeader .passed zeroTargetMem (nonceNode v) (nonceHash v) =
      Mem.ofBytes ((nonceBlock v).slice 0 83) := by
  rw [latestHeader_of_lookup (nonceNode_lookup v),
    List.take_of_length_le (Nat.le_of_eq (Mem.slice_length ..))]
  rfl

theorem nonceNode_fields : SameTargetFields
    (latestHeader .passed zeroTargetMem (nonceNode 0) (nonceHash 0))
    (latestHeader .passed zeroTargetMem (nonceNode 1) (nonceHash 1)) := by
  rw [nonceNode_header, nonceNode_header]
  exact ⟨by decide, by decide, by decide⟩

/-- The chain is empty, and no block is stored under the hash that is zero. -/
theorem nonceNode_recalcHeader {v : UInt8}
    (hv : blockComputeHash sha256 (nonceBlock v) ≠ List.replicate 32 0) (h : UInt32) :
    recalcHeader sampleEnv zeroTargetMem (nonceNode v) h = fun _ => 0 := by
  have hhash : (dataChainGet sampleEnv (nonceNode v) (h - recalcTargetInterval)
      zeroTargetMem.recalcBlockHash).2 = fun _ => 0 := by
    have hnone : (nonceNode v).chain.lookup (Bdb.passed.keyBytes
        (newDbt (uintMem sampleEnv.host (h - recalcTargetInterval)) 4)) = none :=
      AList.lookup_empty _
    rw [dataChainGet, dbGet, hnone]
    rfl
  have hlookup : (nonceNode v).blocks.lookup (Mem.slice (fun _ => 0) 0 32) = none := by
    have hzero : Mem.slice (fun _ => 0) 0 32 = List.replicate 32 0 := by decide
    rw [nonceNode, hzero, AList.lookup_insert_ne (Ne.symm hv)]
    exact AList.lookup_empty _
  rw [recalcHeader, hhash, dataBlocksGetHeader_of_none hlookup]
  rfl

/-- Neither rule applies to them. -/
theorem nonceNode_noRule (v : UInt8) :
    (¬ TestnetRule testnetEpoch (btoui sampleEnv.host
      ((latestHeader .passed zeroTargetMem (nonceNode v) (nonceHash v)).shift posBlockTime))) ∧
    ¬ RecalcRule (blockGetHeight sampleEnv.host
      (latestHeader .passed zeroTargetMem (nonceNode v) (nonceHash v))) := by
  have hheight : blockGetHeight sampleEnv.host (nonceBlock v) = 0 := by
    show btoui .little ((nonceBlock v).shift posBlockHeight) = 0
    rw [btoui_little]
    show word32 0 0 0 0 = 0
    decide
  rw [nonceNode_header,
    blockGetHeight_of_header_eq (header_ofBytes_slice (nonceBlock v) (Nat.le_refl 83)), hheight]
  exact ⟨fun h => UInt32.lt_irrefl _ h.1, fun h => UInt32.lt_irrefl _ h.1⟩

theorem nonceNode_nonce_ne :
    (latestHeader .passed zeroTargetMem (nonceNode 0) (nonceHash 0)).slice posBlockNonce 3 ≠
      (latestHeader .passed zeroTargetMem (nonceNode 1) (nonceHash 1)).slice posBlockNonce 3 := by
  rw [nonceNode_header, nonceNode_header]
  decide

/-- The two headers give different targets. -/
theorem computeNextTarget_nonce : ¬ ∀ fns,
    computeNextTarget sampleEnv fns testnetEpoch zeroTargetMem (nonceNode 0) (nonceHash 0) =
      computeNextTarget sampleEnv fns testnetEpoch zeroTargetMem (nonceNode 1) (nonceHash 1) := by
  obtain ⟨htestnet, hrecalc⟩ := nonceNode_noRule 0
  rw [(computeNextTarget_iff sampleEnv testnetEpoch zeroTargetMem zeroTargetMem _ _ _ _
    nonceNode_fields).1]
  rintro (h | ⟨h, -⟩ | ⟨-, h⟩)
  · exact htestnet h
  · exact hrecalc h
  · exact nonceNode_nonce_ne h

/-- Headers that differ in the nonce alone, over the same chain, at the same time and
in the same memory, have the next targets 0 and 256. -/
theorem next_target_reads_nonce :
    ¬ ∀ (env : Env .passed) (fns : TargetFns) (currTime : UInt32) (u : TargetMem) (dbs dbs' : Dbs)
      (blockHash blockHash' : Mem),
      SameTargetFields (latestHeader .passed u dbs blockHash)
        (latestHeader .passed u dbs' blockHash') →
      dbs.chain = dbs'.chain → (∀ h, recalcHeader env u dbs h = recalcHeader env u dbs' h) →
      computeNextTarget env fns currTime u dbs blockHash =
        computeNextTarget env fns currTime u dbs' blockHash' := by
  intro hall
  have hzero : blockComputeHash sha256 (nonceBlock 0) ≠ List.replicate 32 0 := by decide +kernel
  have hone : blockComputeHash sha256 (nonceBlock 1) ≠ List.replicate 32 0 := by decide +kernel
  have hsame := hall sampleEnv default testnetEpoch zeroTargetMem (nonceNode 0) (nonceNode 1)
    (nonceHash 0) (nonceHash 1) nonceNode_fields rfl (by
      intro h
      rw [nonceNode_recalcHeader hzero, nonceNode_recalcHeader hone])
  obtain ⟨htestnet, hrecalc⟩ := nonceNode_noRule 0
  obtain ⟨htestnet', hrecalc'⟩ := nonceNode_noRule 1
  rw [computeNextTarget_eq, computeNextTarget_eq, if_neg htestnet, if_neg hrecalc,
    if_neg htestnet', if_neg hrecalc', btoui_target_eq_iff nonceNode_fields.target] at hsame
  exact nonceNode_nonce_ne hsame

end Freecoin
