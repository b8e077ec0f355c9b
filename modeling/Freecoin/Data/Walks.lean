import Freecoin.Body
import Freecoin.Data.View
import Freecoin.Merkle

/-!
# Four walks over one body

`block_compute_size`, `compute_merkle_root`, `data_blocks_add` and
`data_blocks_revert` each walk the transactions of a block with a cursor of
their own. The last three count the passes by the decoded count field. The
first counts them by the low byte of the address of that field, so it takes
the same steps as the others exactly if this byte is the number of
transactions.
-/

namespace Freecoin

open Lib

/-! In `for (int i=0; i<tx_count; i++)` the counter is compared with a `uchar` in the
first loop and with a `uint` in the others; below 2³¹ both make as many passes
as the count says. -/

/-- The loop of `block_compute_size(block)`; see `blockComputeSize` for `addr`. -/
def computeSizeLoop (o : ByteOrder) (addr : UInt8) (block : Mem) : List UInt32 × UInt32 :=
  cursorLoop o block addr.toNat 83

/-- The leaf loop of `compute_merkle_root(txs, tx_count, out)`. -/
def merkleLeafLoop (o : ByteOrder) (txs : Mem) (txCount : UInt32) : List UInt32 × UInt32 :=
  cursorLoop o txs txCount.toNat 0

/-- The loop of `data_blocks_add(dbs, block)`. -/
def blocksAddLoop (o : ByteOrder) (block : Mem) : List UInt32 × UInt32 :=
  cursorLoop o block (blockGetTxCount o block).toNat 83

/-- The loop over `curr_block` that `data_blocks_revert` has twice. -/
def blocksRevertLoop (o : ByteOrder) (currBlock : Mem) : List UInt32 × UInt32 :=
  cursorLoop o currBlock (blockGetTxCount o currBlock).toNat 83

/-! These are the walks of the functions: the size is where the first one ends, the leaves
are hashed under the second, and the others visit the transactions that are indexed and
taken out of the index again. -/

theorem computeSizeLoop_end {o : ByteOrder} {addr : UInt8} {block : Mem}
    (h : blockComputeSize o addr block < 2 ^ 32) :
    (computeSizeLoop o addr block).2.toNat = blockComputeSize o addr block := by
  have hwalk := congrArg Prod.snd (cursorLoop_eq o block addr.toNat 83 h)
  rw [computeSizeLoop, show (83 : UInt32) = UInt32.ofNat 83 from rfl, hwalk]
  exact UInt32.toNat_ofNat_of_lt' h

theorem leafHashes_merkleLeafLoop (o : ByteOrder) (H : Digest) (txs : Mem) (txCount : UInt32) :
    leafHashes o H txs txCount.toNat =
      (merkleLeafLoop o txs txCount).1.map fun c => H.sum (txBytes o (txs.shift c.toNat)) :=
  rfl

theorem blockTxs_blocksAddLoop {o : ByteOrder} {block : Mem}
    (h : txEnd o block (blockGetTxCount o block).toNat posBlockBody < 2 ^ 32) :
    blockTxs o block = (blocksAddLoop o block).1.map fun c => block.shift c.toNat :=
  (cursorLoop_map_shift (f := id) h).symm

theorem blockTxs_blocksRevertLoop {o : ByteOrder} {currBlock : Mem}
    (h : txEnd o currBlock (blockGetTxCount o currBlock).toNat posBlockBody < 2 ^ 32) :
    blockTxs o currBlock = (blocksRevertLoop o currBlock).1.map fun c => currBlock.shift c.toNat :=
  blockTxs_blocksAddLoop h

/-- The walk over transactions that lie end to end from `pos` on. -/
def bodyWalk {o : ByteOrder} (pos : ℕ) (ts : List (SerialTx o)) : List UInt32 × UInt32 :=
  ((txOffsets pos ts).map UInt32.ofNat, UInt32.ofNat (pos + (txsBytes ts).length))

theorem cursorLoop_laidOut {o : ByteOrder} {m : Mem} {pos : ℕ} {ts : List (SerialTx o)}
    (h : LaidOut m pos ts) (hend : pos + (txsBytes ts).length < 2 ^ 32) :
    cursorLoop o m ts.length (UInt32.ofNat pos) = bodyWalk pos ts := by
  obtain ⟨hvisits, hstop⟩ := h.walk
  rw [cursorLoop_eq o m ts.length pos (hstop ▸ hend), hvisits, hstop]
  rfl

/-- The four walks take the same steps, and the size of the block and the record that
is stored are those of the whole block. -/
structure WalksAgree (env : Env .passed) (addr : UInt8) (dbs : Dbs) (block : Mem)
    (ts : List (SerialTx env.host)) : Prop where
  computeSize : computeSizeLoop env.host addr block = bodyWalk posBlockBody ts
  merkleLeaf : merkleLeafLoop env.host (block.shift posBlockBody) (blockGetTxCount env.host block) =
    bodyWalk 0 ts
  blocksAdd : blocksAddLoop env.host block = bodyWalk posBlockBody ts
  blocksRevert : blocksRevertLoop env.host block = bodyWalk posBlockBody ts
  size : blockComputeSize env.host addr block = sizeBlockHeader + (txsBytes ts).length
  stored : (dataBlocksAdd env addr dbs block).blocks.lookup (blockComputeHash env.digest block) =
    some (block.slice 0 (sizeBlockHeader + (txsBytes ts).length))

/-- **Walks.** For a block that fits, with its transactions end to end and as many of
them as the count field says, the four walks agree if and only if the low byte
of the address of the count field is the number of transactions. -/
theorem walksAgree_iff (env : Env .passed) (addr : UInt8) (dbs : Dbs) (block : Mem)
    (ts : List (SerialTx env.host)) (hbody : LaidOut block posBlockBody ts)
    (hcount : (blockGetTxCount env.host block).toNat = ts.length)
    (hfits : sizeBlockHeader + (txsBytes ts).length ≤ maxBlockSize) :
    WalksAgree env addr dbs block ts ↔ addr.toNat = ts.length := by
  have hend : posBlockBody + (txsBytes ts).length < 2 ^ 32 :=
    Nat.lt_of_le_of_lt hfits (by decide)
  have hloop : cursorLoop env.host block ts.length 83 = bodyWalk posBlockBody ts :=
    cursorLoop_laidOut hbody hend
  constructor
  · intro hagree
    have hpasses := congrArg (fun w => w.1.length) hagree.computeSize
    dsimp only [computeSizeLoop, bodyWalk] at hpasses
    rwa [cursorLoop_length, List.length_map, txOffsets_length] at hpasses
  · intro haddr
    have hsize : blockComputeSize env.host addr block =
        sizeBlockHeader + (txsBytes ts).length := by
      rw [blockComputeSize, haddr]
      exact hbody.walk.2
    refine ⟨?_, ?_, ?_, ?_, hsize, ?_⟩
    · rw [computeSizeLoop, haddr, hloop]
    · rw [merkleLeafLoop, hcount]
      have hle := Nat.add_le_add_right (Nat.zero_le posBlockBody) (txsBytes ts).length
      exact cursorLoop_laidOut hbody.shift (Nat.lt_of_le_of_lt hle hend)
    · rw [blocksAddLoop, hcount, hloop]
    · rw [blocksRevertLoop, hcount, hloop]
    · rw [dataBlocksAdd_passed, AList.lookup_insert, blockRecord, hsize]

/-- A block with the three transactions, as a little-endian host counts them. -/
def threeTxBlock : Mem :=
  Mem.write (fun i => if i = 79 then 3 else 0) posBlockBody (txsBytes (threeTxs .little))

theorem threeTxBlock_laidOut : LaidOut threeTxBlock posBlockBody (threeTxs .little) :=
  Mem.slice_write ..

theorem threeTxBlock_count : (blockGetTxCount .little threeTxBlock).toNat = 3 := by
  have hfield : blockGetTxCount .little threeTxBlock =
      blockGetTxCount .little fun i => if i = 79 then 3 else 0 := by
    refine btoui_congr fun i hi => ?_
    rw [threeTxBlock]
    exact Mem.write_before (txsBytes _) (show 79 + i < posBlockBody by
      simp only [posBlockBody, sizeBlockHeader]
      omega)
  rw [hfield]
  decide

theorem threeTxs_fits (o : ByteOrder) :
    sizeBlockHeader + (txsBytes (threeTxs o)).length ≤ maxBlockSize := by
  rw [txsBytes_threeTxs]
  decide

theorem childRecord_laidOut : LaidOut (Mem.ofBytes childRecord) posBlockBody [zeroSerialTx] := by
  unfold LaidOut
  decide

/-- For this block the address byte happens to be 3. -/
theorem walksAgree_threeTxs :
    WalksAgree sampleEnv 3 genesisNode threeTxBlock (threeTxs sampleEnv.host) :=
  (walksAgree_iff sampleEnv 3 genesisNode threeTxBlock (threeTxs sampleEnv.host)
    threeTxBlock_laidOut threeTxBlock_count (threeTxs_fits _)).mpr rfl

/-- For an address byte of 0 a block is stored without its transaction. -/
theorem childRecord_stored_short :
    ¬ ∀ (env : Env .passed) (addr : UInt8) (dbs : Dbs) (block : Mem)
      (ts : List (SerialTx env.host)), LaidOut block posBlockBody ts →
      (blockGetTxCount env.host block).toNat = ts.length →
      sizeBlockHeader + (txsBytes ts).length ≤ maxBlockSize →
      WalksAgree env addr dbs block ts := by
  intro hall
  have hagree := hall sampleEnv 0 genesisNode (Mem.ofBytes childRecord) [zeroSerialTx]
    childRecord_laidOut (by decide) (by decide)
  have hsize : 83 = 93 := hagree.size
  exact absurd hsize (by decide)

end Freecoin
