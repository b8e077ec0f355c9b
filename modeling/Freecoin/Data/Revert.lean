import Freecoin.Data.Store
import Freecoin.Lib.Run

/-!
# data.c: `data_blocks_revert`

Two loops over one block buffer. The first walks the old branch down from the
chain height and takes its transactions out of the index, the second walks
the new branch back from its last block by `prev_hash` and files its
transactions. The second loop throws the result of `data_blocks_get` away:
when a block is missing it goes on with what the buffer holds.

`RevertEdit` lists the edits of the databases that the two loops consist of,
and `dataBlocksRevert_edits` says that a call is a sequence of these. Facts
about a reorganisation are proved edit by edit.
-/

namespace Freecoin

open Lib Relation

/-- The memory that a call of `data_blocks_revert` is handed uninitialised. The
families are indexed by the height of an old block, or by the number of
passes through the second loop. -/
structure RevertMem : Type where
  height : HeightMem
  commonBlock : Mem
  currBlock : Mem
  currBlockHash : Mem
  /-- `tx.data` and the entry itself, for each transaction of an old block. -/
  entry : ℕ → ℕ → EntryMem
  limboAdd : ℕ → Mem
  limboDel : ℕ → Mem
  chainHeader : ℕ → Mem

/-- Memory that happens to be zero. -/
def RevertMem.zero : RevertMem where
  height := ⟨0, fun _ => 0⟩
  commonBlock := fun _ => 0
  currBlock := fun _ => 0
  currBlockHash := fun _ => 0
  entry := fun _ _ => ⟨fun _ => 0, []⟩
  limboAdd := fun _ _ => 0
  limboDel := fun _ _ => 0
  chainHeader := fun _ _ => 0

/-- The databases and the two buffers that the loops share. -/
structure RevertState : Type where
  dbs : Dbs
  currBlock : Mem
  currBlockHash : Mem

variable {B : Bdb} (env : Env B)

/-- The transactions of an old block, from the `j`-th on. -/
def oldTxs (u : ℕ → EntryMem) : List Mem → ℕ → Dbs → Except Fault Dbs
  | [], _, dbs => .ok dbs
  | tx :: rest, j, dbs => do
      let dbs := dataTxsDel B dbs (txComputeHash env.host env.digest tx)
      let mempool ← dataMempoolAdd env.host env.digest (u j) dbs.mempool tx
      oldTxs u rest (j + 1) { dbs with mempool := mempool }

/-- Old block processing, `n` blocks down to the height above `common`; `false`
when a block is missing and the call returns. -/
def oldBlocks (u : RevertMem) (common : ℕ) :
    ℕ → RevertState → Except Fault (Bool × RevertState)
  | 0, s => .ok (true, s)
  | n + 1, s => do
      let i := common + (n + 1)
      let hash := (dataChainGet env s.dbs (UInt32.ofNat i) s.currBlockHash).2
      let got := dataBlocksGet B s.dbs hash s.currBlock
      if got.1 then
        let dbs ← oldTxs env (u.entry i) (blockTxs env.host got.2) 0 s.dbs
        oldBlocks u common n ⟨dataLimboSafeAdd env (u.limboAdd i) dbs got.2, got.2, hash⟩
      else return (false, ⟨s.dbs, got.2, hash⟩)

/-- The transactions of a new block. `data_txs_add` is called without its last
argument, the hash of the block that holds the transaction. -/
def newTxs (blockHash : Bytes) : List Mem → Dbs → Except Fault Dbs
  | [], dbs => .ok dbs
  | tx :: rest, dbs => do
      let txHash := txComputeHash env.host env.digest tx
      let dbs := dataTxsAdd B dbs txHash blockHash
      let deleted ← dataMempoolDel dbs.mempool txHash
      newTxs blockHash rest { dbs with mempool := deleted.2 }

/-- New block processing, from pass `k` on: `while (1)` until the block in the
buffer has the height of the common block. -/
def newBlocks (u : RevertMem) (common : UInt32) :
    ℕ → ℕ → RevertState → Except Fault RevertState
  | 0, _, _ => .error .outOfFuel
  | fuel + 1, k, s => do
      let block := (dataBlocksGet B s.dbs s.currBlockHash s.currBlock).2
      if blockGetHeight env.host block = common then return { s with currBlock := block }
      let dbs ← newTxs env (s.currBlockHash.slice 0 sizeSha256) (blockTxs env.host block) s.dbs
      let dbs := dataLimboDel env (u.limboDel k) dbs block
      let dbs := dataChainSafeSet env (u.chainHeader k) dbs block
      newBlocks u common fuel (k + 1)
        ⟨dbs, block, s.currBlockHash.write 0 (blockGetPrevHash block)⟩

/-- `data_blocks_revert(dbs, common_block_hash, new_latest_block_hash)`: whether it
got to its end, and the databases. -/
def dataBlocksRevert (u : RevertMem) (fuel : ℕ) (dbs : Dbs) (commonBlockHash newLatest : Mem) :
    Except Fault (Bool × Dbs) := do
  let initialHeight := dataChainGetHeight env u.height dbs
  let got := dataBlocksGetHeader B dbs commonBlockHash u.commonBlock
  if got.1 then
    let commonHeight := blockGetHeight env.host got.2
    let old ← oldBlocks env u commonHeight.toNat (initialHeight.toNat - commonHeight.toNat)
      ⟨dbs, u.currBlock, u.currBlockHash⟩
    if old.1 then
      let hash := old.2.currBlockHash.write 0 (newLatest.slice 0 sizeSha256)
      let s ← newBlocks env u commonHeight fuel 0 ⟨old.2.dbs, old.2.currBlock, hash⟩
      return (true, s.dbs)
    else return (false, old.2.dbs)
  else return (false, dbs)

/-! ## A call as a sequence of edits -/

/-- What the block buffer can hold: the memory it was allocated with, with
records of the blocks database read on top of one another. -/
inductive BlockBuffer (u : RevertMem) (blocks : Db) : Mem → Prop where
  | uninit : BlockBuffer u blocks u.currBlock
  | read {block : Mem} {key record : Bytes} (hblock : BlockBuffer u blocks block)
      (hrecord : blocks.lookup key = some record) : BlockBuffer u blocks (block.load record)

section Passed

variable (env : Env .passed)

/-- One edit of the databases by `data_blocks_revert`, when the blocks database
is `blocks`. -/
inductive RevertEdit (u : RevertMem) (blocks : Db) (s : Dbs) : Dbs → Prop where
  | txsDel (t : Bytes) : RevertEdit u blocks s { s with txs := s.txs.erase t }
  | mempoolAdd (i j : ℕ) (tx : Mem) {p : Mempool}
      (h : dataMempoolAdd env.host env.digest (u.entry i j) s.mempool tx = .ok p) :
      RevertEdit u blocks s { s with mempool := p }
  | limboAdd (i : ℕ) {block : Mem} (hblock : BlockBuffer u blocks block) :
      RevertEdit u blocks s (dataLimboSafeAdd env (u.limboAdd i) s block)
  | txsAdd {block : Mem} (hblock : BlockBuffer u blocks block) {t : Bytes}
      (ht : t ∈ blockTxHashes env.host env.digest block) (x : Bytes) :
      RevertEdit u blocks s { s with txs := s.txs.insert t x }
  | mempoolDel (t : Bytes) {r : Option MTx} {p : Mempool}
      (h : dataMempoolDel s.mempool t = .ok (r, p)) :
      RevertEdit u blocks s { s with mempool := p }
  | limboDel (k : ℕ) {block : Mem} (hblock : BlockBuffer u blocks block) :
      RevertEdit u blocks s (dataLimboDel env (u.limboDel k) s block)
  | chainSafeSet (k : ℕ) {block : Mem} (hblock : BlockBuffer u blocks block) :
      RevertEdit u blocks s (dataChainSafeSet env (u.chainHeader k) s block)

variable {env} {u : RevertMem} {blocks : Db}

theorem RevertEdit.blocks_eq {s s' : Dbs} (h : RevertEdit env u blocks s s') :
    s'.blocks = s.blocks := by
  cases h with
  | chainSafeSet k _ =>
      obtain ⟨chain, hset⟩ := dataChainSafeSet_frame env (u.chainHeader k) s _
      rw [hset]
  | _ => rfl

/-- **No edit changes the chain** as `data_chain_get` sees it. -/
theorem RevertEdit.chainGet_eq {s s' : Dbs} (h : RevertEdit env u blocks s s') :
    dataChainGet env s' = dataChainGet env s := by
  cases h with
  | chainSafeSet k _ => exact dataChainGet_frozen env _ s _
  | _ => rfl

/-- What a read leaves in the block buffer is a block buffer again. -/
theorem BlockBuffer.get (dbs : Dbs) {block : Mem} (h : BlockBuffer u dbs.blocks block)
    (hash : Mem) : BlockBuffer u dbs.blocks (dataBlocksGet .passed dbs hash block).2 := by
  rcases dataBlocksGet_cases dbs hash block with ⟨r, hr, _, hget⟩ | ⟨_, hget⟩
  · rw [hget]
    exact h.read hr
  · rw [hget]
    exact h

theorem oldTxs_edits (blocks : Db) {i : ℕ} {txs : List Mem} :
    ∀ {j : ℕ} {s s' : Dbs}, oldTxs env (u.entry i) txs j s = .ok s' →
      ReflTransGen (RevertEdit env u blocks) s s' := by
  induction txs with
  | nil =>
      intro j s s' h
      cases h
      exact .refl
  | cons tx rest ih =>
      intro j s s' h
      obtain ⟨p, hadd, hrest⟩ := ok_of_bind h
      have hdel : RevertEdit env u blocks s
          (dataTxsDel .passed s (txComputeHash env.host env.digest tx)) := by
        rw [dataTxsDel_passed s (txComputeHash_length ..)]
        exact .txsDel _
      exact .head hdel (.head (.mempoolAdd i j tx hadd) (ih hrest))

theorem newTxs_edits {block : Mem} (hblock : BlockBuffer u blocks block) {blockHash : Bytes}
    (hlen : blockHash.length = 32) {txs : List Mem} :
    ∀ {s s' : Dbs}, (∀ tx ∈ txs, tx ∈ blockTxs env.host block) →
      newTxs env blockHash txs s = .ok s' → ReflTransGen (RevertEdit env u blocks) s s' := by
  induction txs with
  | nil =>
      intro s s' _ h
      cases h
      exact .refl
  | cons tx rest ih =>
      intro s s' hmem h
      obtain ⟨⟨r, p⟩, hdel, hrest⟩ := ok_of_bind h
      have ht : txComputeHash env.host env.digest tx ∈ blockTxHashes env.host env.digest block :=
        List.mem_map_of_mem (hmem tx (List.mem_cons_self ..))
      have hadd : RevertEdit env u blocks s
          (dataTxsAdd .passed s (txComputeHash env.host env.digest tx) blockHash) := by
        rw [dataTxsAdd_passed s (txComputeHash_length ..) hlen]
        exact .txsAdd hblock ht _
      exact .head hadd (.head (.mempoolDel _ hdel)
        (ih (fun tx' h' => hmem tx' (List.mem_cons_of_mem _ h')) hrest))

theorem edits_blocks_eq {s s' : Dbs} (h : ReflTransGen (RevertEdit env u blocks) s s') :
    s'.blocks = s.blocks :=
  run_frame (fun _ _ hedit => hedit.blocks_eq) h

/-- Old block processing is a sequence of edits, and leaves a block buffer. -/
theorem oldBlocks_edits {common n : ℕ} :
    ∀ {s s' : RevertState} {done : Bool}, oldBlocks env u common n s = .ok (done, s') →
      s.dbs.blocks = blocks → BlockBuffer u blocks s.currBlock →
      ReflTransGen (RevertEdit env u blocks) s.dbs s'.dbs ∧ BlockBuffer u blocks s'.currBlock := by
  induction n with
  | zero =>
      intro s s' done h _ hbuf
      cases h
      exact ⟨.refl, hbuf⟩
  | succ n ih =>
      intro s s' done h hblocks hbuf
      subst hblocks
      have hbuf' := hbuf.get s.dbs (dataChainGet env s.dbs (UInt32.ofNat (common + (n + 1)))
        s.currBlockHash).2
      rw [oldBlocks] at h
      split at h
      · obtain ⟨dbs, htxs, hrest⟩ := ok_of_bind h
        have hedits := oldTxs_edits s.dbs.blocks htxs
        have hblocks := edits_blocks_eq hedits
        obtain ⟨hloop, hlast⟩ := ih hrest hblocks hbuf'
        exact ⟨hedits.trans (.head (.limboAdd _ hbuf') hloop), hlast⟩
      · cases h
        exact ⟨.refl, hbuf'⟩

/-- New block processing is a sequence of edits. -/
theorem newBlocks_edits {common : UInt32} {fuel : ℕ} :
    ∀ {k : ℕ} {s s' : RevertState}, newBlocks env u common fuel k s = .ok s' →
      s.dbs.blocks = blocks → BlockBuffer u blocks s.currBlock →
      ReflTransGen (RevertEdit env u blocks) s.dbs s'.dbs := by
  induction fuel with
  | zero =>
      intro k s s' h
      cases h
  | succ fuel ih =>
      intro k s s' h hblocks hbuf
      subst hblocks
      have hbuf' := hbuf.get s.dbs s.currBlockHash
      rw [newBlocks] at h
      generalize (dataBlocksGet .passed s.dbs s.currBlockHash s.currBlock).2 = block at h hbuf'
      split at h
      · cases h
        exact .refl
      · obtain ⟨dbs, htxs, hrest⟩ := ok_of_bind h
        have hedits := newTxs_edits hbuf' (Mem.slice_length ..) (fun tx htx => htx) htxs
        have hdel : RevertEdit env u s.dbs.blocks dbs
            (dataLimboDel env (u.limboDel k) dbs block) := .limboDel k hbuf'
        have hset : RevertEdit env u s.dbs.blocks (dataLimboDel env (u.limboDel k) dbs block) _ :=
          .chainSafeSet k hbuf'
        have hblocks := hset.blocks_eq.trans (hdel.blocks_eq.trans (edits_blocks_eq hedits))
        exact hedits.trans (.head hdel (.head hset (ih hrest hblocks hbuf')))

/-- **Every call of `data_blocks_revert` is a sequence of edits.** -/
theorem dataBlocksRevert_edits {fuel : ℕ} {s s' : Dbs} {common newLatest : Mem} {done : Bool}
    (h : dataBlocksRevert env u fuel s common newLatest = .ok (done, s')) :
    ReflTransGen (RevertEdit env u s.blocks) s s' := by
  rw [dataBlocksRevert] at h
  split at h
  · obtain ⟨⟨found, old⟩, hold, hrest⟩ := ok_of_bind h
    obtain ⟨hedits, hbuf⟩ := oldBlocks_edits hold rfl .uninit
    cases found with
    | true =>
        obtain ⟨new, hnew, hret⟩ := ok_of_bind hrest
        cases hret
        have hloop := newBlocks_edits hnew (edits_blocks_eq hedits) hbuf
        exact hedits.trans hloop
    | false =>
        cases hrest
        exact hedits
  · cases h
    exact .refl

/-- A reorganisation never changes what `data_chain_get` returns. -/
theorem dataBlocksRevert_chainGet {fuel : ℕ} {s s' : Dbs} {common newLatest : Mem} {done : Bool}
    (h : dataBlocksRevert env u fuel s common newLatest = .ok (done, s')) :
    dataChainGet env s' = dataChainGet env s :=
  run_frame (fun _ _ hedit => hedit.chainGet_eq) (dataBlocksRevert_edits h)

end Passed

end Freecoin
