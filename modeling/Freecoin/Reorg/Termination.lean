import Freecoin.Reorg.Walk

/-!
# When a reorganisation ends

The second loop of `data_blocks_revert` follows `prev_hash` until the block in
the buffer has the height of the common block. It looks at the status of a
read that is long past instead of the one it has just made, so it does not
notice a missing block: the buffer keeps the block before it, whose parent is
then looked for again, and again. The loop ends when the walk comes to the
common height, or when the process dies at an empty slot of the mempool.
-/

namespace Freecoin

open Lib

/-- The transactions of the blocks in the buffer before pass `n`. -/
def Buffers.hashes (env : Env .passed) (dbs : Dbs) (b : Buffers) (n : ℕ) : List Bytes :=
  (List.range n).flatMap fun k => blockTxHashes env.host env.digest (b.block dbs k)

theorem Buffers.hashes_succ (env : Env .passed) (dbs : Dbs) (b : Buffers) (n : ℕ) :
    b.hashes env dbs (n + 1) =
      blockTxHashes env.host env.digest (b.block dbs 0) ++ (b.next dbs).hashes env dbs n := by
  unfold Buffers.hashes
  rw [List.range_succ_eq_map, List.flatMap_cons, List.flatMap_map]
  simp only [Buffers.block_succ]

variable {env : Env .passed}

/-- The transactions of one new block, database by database. -/
theorem newTxs_eq {blockHash : Bytes} (hlen : blockHash.length = 32) {txs : List Mem} :
    ∀ {dbs : Dbs}, newTxs env blockHash txs dbs =
      (mempoolDels (txs.map (txComputeHash env.host env.digest)) dbs.mempool).map fun p =>
        { dbs with
          txs := (txs.map (txComputeHash env.host env.digest)).foldl
            (fun m t => m.insert t blockHash) dbs.txs
          mempool := p } := by
  induction txs with
  | nil => intro dbs; rfl
  | cons tx rest ih =>
      intro dbs
      rw [newTxs, List.map_cons, mempoolDels, dataTxsAdd_passed dbs (txComputeHash_length ..) hlen]
      dsimp only
      cases dataMempoolDel dbs.mempool (txComputeHash env.host env.digest tx) with
      | error e => rfl
      | ok deleted => exact ih

/-- The walk has come to a block of the common height in pass `n`, or a mempool call
before that has failed. -/
def Buffers.StopsAt (env : Env .passed) (dbs : Dbs) (common : UInt32) (b : Buffers) (p : Mempool)
    (n : ℕ) : Prop :=
  blockGetHeight env.host (b.block dbs n) = common ∨
    mempoolDels (b.hashes env dbs n) p = .error .badPointer

/-- What is left by one pass of the second loop that gets to its end. -/
def passState (env : Env .passed) (u : RevertMem) (k : ℕ) (dbs : Dbs) (b : Buffers)
    (s : RevertState) (p : Mempool) : RevertState :=
  let block := b.block dbs 0
  let filed : Dbs :=
    { s.dbs with
      txs := (blockTxHashes env.host env.digest block).foldl
        (fun m t => m.insert t (s.currBlockHash.slice 0 sizeSha256)) s.dbs.txs
      mempool := p }
  ⟨dataChainSafeSet env (u.chainHeader k) (dataLimboDel env (u.limboDel k) filed block) block,
    (b.next dbs).currBlock, (b.next dbs).currBlockHash⟩

section Pass

variable {u : RevertMem} {dbs : Dbs} {common : UInt32} {s : RevertState} {b : Buffers}
  (hreads : SameReads env s.dbs dbs) (hb : b = ⟨s.currBlock, s.currBlockHash⟩)

include hreads hb

/-- The second loop, one pass at a time. -/
theorem newBlocks_succ (fuel k : ℕ) :
    newBlocks env u common (fuel + 1) k s =
      if blockGetHeight env.host (b.block dbs 0) = common then
        .ok { s with currBlock := b.block dbs 0 }
      else
        mempoolDels (blockTxHashes env.host env.digest (b.block dbs 0)) s.dbs.mempool >>= fun p =>
          newBlocks env u common fuel (k + 1) (passState env u k dbs b s p) := by
  subst hb
  rw [newBlocks, hreads.get]
  have hblock : (dataBlocksGet .passed dbs s.currBlockHash s.currBlock).2 =
      Buffers.block dbs ⟨s.currBlock, s.currBlockHash⟩ 0 := rfl
  rw [hblock]
  dsimp only
  split
  · rfl
  · have hlen : (s.currBlockHash.slice 0 sizeSha256).length = 32 := Mem.slice_length ..
    rw [newTxs_eq hlen]
    show (Except.map _ (mempoolDels (blockTxHashes env.host env.digest
      (Buffers.block dbs ⟨s.currBlock, s.currBlockHash⟩ 0)) s.dbs.mempool) >>= _) = _
    cases mempoolDels (blockTxHashes env.host env.digest
      (Buffers.block dbs ⟨s.currBlock, s.currBlockHash⟩ 0)) s.dbs.mempool with
    | error e => rfl
    | ok p => rfl

omit hb in
/-- A pass keeps the reads, and leaves the mempool as the deletions do. -/
theorem passState_keeps (k : ℕ) (p : Mempool) :
    SameReads env (passState env u k dbs b s p).dbs dbs ∧
      (passState env u k dbs b s p).dbs.mempool = p := by
  have hfiled : SameReads env { s.dbs with
      txs := (blockTxHashes env.host env.digest (b.block dbs 0)).foldl
        (fun m t => m.insert t (s.currBlockHash.slice 0 sizeSha256)) s.dbs.txs
      mempool := p } dbs :=
    ⟨hreads.blocks, hreads.chain⟩
  refine ⟨hfiled.filed _ _ _, ?_⟩
  obtain ⟨chain, hset⟩ := dataChainSafeSet_frame env (u.chainHeader k)
    (dataLimboDel env (u.limboDel k) _ (b.block dbs 0)) (b.block dbs 0)
  exact congrArg Dbs.mempool hset

end Pass

/-! ## The second loop -/

/-- The walk stops at the common height or at a mempool call that fails, and then so
does the loop. -/
theorem newBlocks_stops {u : RevertMem} {dbs : Dbs} {common : UInt32} {n : ℕ} :
    ∀ {k : ℕ} {s : RevertState} {b : Buffers}, SameReads env s.dbs dbs →
      b = ⟨s.currBlock, s.currBlockHash⟩ → b.StopsAt env dbs common s.dbs.mempool n →
      newBlocks env u common (n + 1) k s ≠ .error .outOfFuel := by
  induction n with
  | zero =>
      rintro k s b hreads hb (hheight | hdels)
      · rw [newBlocks_succ hreads hb, if_pos hheight]
        exact fun h => nomatch h
      · cases hdels
  | succ n ih =>
      intro k s b hreads hb hstops
      rw [newBlocks_succ hreads hb]
      split
      · exact fun h => nomatch h
      · cases hdels : mempoolDels (blockTxHashes env.host env.digest (b.block dbs 0))
          s.dbs.mempool with
        | error e =>
            have hkind := (mempoolDels_fails (P := (· = .badPointer)) rfl _ _).kind e hdels
            subst hkind
            exact fun h => nomatch h
        | ok p =>
            obtain ⟨hreads', hmempool⟩ := passState_keeps (u := u) (b := b) hreads k p
            refine ih hreads' rfl ?_
            rw [hmempool]
            rcases hstops with hheight | hfail
            · exact .inl (Buffers.block_succ dbs b n ▸ hheight)
            · rw [Buffers.hashes_succ, mempoolDels_append, hdels] at hfail
              exact .inr hfail

/-- The loop stops only then. -/
theorem stopsAt_of_newBlocks {u : RevertMem} {dbs : Dbs} {common : UInt32} {fuel : ℕ} :
    ∀ {k : ℕ} {s : RevertState} {b : Buffers}, SameReads env s.dbs dbs →
      b = ⟨s.currBlock, s.currBlockHash⟩ → newBlocks env u common fuel k s ≠ .error .outOfFuel →
      ∃ n, b.StopsAt env dbs common s.dbs.mempool n := by
  induction fuel with
  | zero =>
      intro k s b _ _ h
      exact absurd rfl h
  | succ fuel ih =>
      intro k s b hreads hb h
      rw [newBlocks_succ hreads hb] at h
      split at h
      · rename_i hheight
        exact ⟨0, .inl hheight⟩
      · cases hdels : mempoolDels (blockTxHashes env.host env.digest (b.block dbs 0))
          s.dbs.mempool with
        | error e =>
            have hkind := (mempoolDels_fails (P := (· = .badPointer)) rfl _ _).kind e hdels
            refine ⟨1, .inr ?_⟩
            rw [Buffers.hashes_succ, mempoolDels_append, hdels, hkind]
            rfl
        | ok p =>
            rw [hdels] at h
            obtain ⟨hreads', hmempool⟩ := passState_keeps (u := u) (b := b) hreads k p
            obtain ⟨n, hstops⟩ := ih hreads' rfl h
            refine ⟨n + 1, ?_⟩
            rw [hmempool] at hstops
            rcases hstops with hheight | hfail
            · exact .inl ((Buffers.block_succ dbs b n).symm ▸ hheight)
            · refine .inr ?_
              rw [Buffers.hashes_succ, mempoolDels_append, hdels]
              exact hfail

theorem newBlocks_stops_iff {u : RevertMem} {dbs : Dbs} {common : UInt32} {k : ℕ} {s : RevertState}
    (hreads : SameReads env s.dbs dbs) :
    (∃ fuel, newBlocks env u common fuel k s ≠ .error .outOfFuel) ↔
      ∃ n, Buffers.StopsAt env dbs common ⟨s.currBlock, s.currBlockHash⟩ s.dbs.mempool n := by
  constructor
  · rintro ⟨fuel, h⟩
    exact stopsAt_of_newBlocks hreads rfl h
  · rintro ⟨n, h⟩
    exact ⟨n + 1, newBlocks_stops hreads rfl h⟩

/-! ## A call -/

/-- A call that gets to its second loop. -/
theorem dataBlocksRevert_loop_iff {u : RevertMem} {dbs : Dbs} {common newLatest : Mem} {p : Mempool}
    (hheader : (dataBlocksGetHeader .passed dbs common u.commonBlock).1 = true)
    (hfound : (revertOldWalk env u dbs common).found = true)
    (hadds : mempoolAdds env.host env.digest
      (oldEntries env u (revertOldWalk env u dbs common).blocks) dbs.mempool = .ok p) :
    (∃ fuel, dataBlocksRevert env u fuel dbs common newLatest ≠ .error .outOfFuel) ↔
      ∃ n, (revertBuffers env u dbs common newLatest).StopsAt env dbs
        (commonHeight env u dbs common) p n := by
  obtain ⟨filed, hfiled, hmempool⟩ : ∃ filed, fileOld env u (revertOldWalk env u dbs common).blocks
      dbs = .ok filed ∧ filed.mempool = p := by
    rw [fileOld_eq, hadds]
    exact ⟨_, rfl, rfl⟩
  have hloop : (∃ fuel, newBlocks env u (commonHeight env u dbs common) fuel 0
      ⟨filed, (revertBuffers env u dbs common newLatest).currBlock,
        (revertBuffers env u dbs common newLatest).currBlockHash⟩ ≠ .error .outOfFuel) ↔
      ∃ n, (revertBuffers env u dbs common newLatest).StopsAt env dbs
        (commonHeight env u dbs common) filed.mempool n :=
    newBlocks_stops_iff (fileOld_sameReads hfiled)
  rw [hmempool] at hloop
  refine Iff.trans (exists_congr fun fuel => ?_) hloop
  rw [dataBlocksRevert_eq, if_pos hheader, hfiled]
  show ((if (revertOldWalk env u dbs common).found then _ else _) ≠ _) ↔ _
  rw [if_pos hfound]
  exact not_congr (bind_pure_eq_error_iff _ _ _)

/-- **Termination.** A call of `data_blocks_revert` ends, for some number of passes of
its second loop, if and only if it gets no further than the reads (the header of
the common block or an old block is not stored), or the walk back from the new
tip comes to a block of the common height, or the process dies at an empty slot
of the mempool. -/
theorem dataBlocksRevert_terminates_iff (env : Env .passed) (u : RevertMem) (dbs : Dbs)
    (common newLatest : Mem) :
    (∃ fuel, dataBlocksRevert env u fuel dbs common newLatest ≠ .error .outOfFuel) ↔
      (dataBlocksGetHeader .passed dbs common u.commonBlock).1 = false ∨
      (revertOldWalk env u dbs common).found = false ∨
      (∃ n, blockGetHeight env.host ((revertBuffers env u dbs common newLatest).block dbs n) =
        commonHeight env u dbs common) ∨
      ∃ n, (mempoolAdds env.host env.digest
          (oldEntries env u (revertOldWalk env u dbs common).blocks) dbs.mempool >>=
        mempoolDels ((revertBuffers env u dbs common newLatest).hashes env dbs n)) =
          .error .badPointer := by
  cases hheader : (dataBlocksGetHeader .passed dbs common u.commonBlock).1 with
  | false =>
      refine iff_of_true ⟨0, ?_⟩ (.inl rfl)
      rw [dataBlocksRevert_eq, hheader]
      exact (nomatch ·)
  | true =>
      cases hadds : mempoolAdds env.host env.digest
        (oldEntries env u (revertOldWalk env u dbs common).blocks) dbs.mempool with
      | error e =>
          have hkind := (mempoolAdds_fails (P := (· = .badPointer)) rfl _ _ _ _).kind e hadds
          subst hkind
          refine iff_of_true ⟨0, ?_⟩ (.inr (.inr (.inr ⟨0, rfl⟩)))
          rw [dataBlocksRevert_eq, hheader, fileOld_eq, hadds]
          exact (nomatch ·)
      | ok p =>
          cases hfound : (revertOldWalk env u dbs common).found with
          | false =>
              refine iff_of_true ⟨0, ?_⟩ (.inr (.inl rfl))
              rw [dataBlocksRevert_eq, hheader, fileOld_eq, hadds, hfound]
              exact (nomatch ·)
          | true =>
              rw [dataBlocksRevert_loop_iff hheader hfound hadds]
              simp only [Bool.true_eq_false, false_or, ← exists_or]
              rfl

/-! ## A missing parent -/

theorem Buffers.next_hash (dbs : Dbs) (b : Buffers) :
    (b.next dbs).currBlockHash.slice 0 32 = blockGetPrevHash (b.next dbs).currBlock := by
  have hlen : (blockGetPrevHash (b.next dbs).currBlock).length = 32 := Mem.slice_length ..
  show (b.currBlockHash.write 0 (blockGetPrevHash (b.next dbs).currBlock)).slice 0 32 = _
  exact Mem.slice_write_of_length hlen

/-- Once the parent of the block in the buffer is not stored, the buffer does not
change any more. -/
theorem Buffers.block_stuck {dbs : Dbs} {b : Buffers}
    (hmissing : dbs.blocks.lookup (blockGetPrevHash (b.block dbs 0)) = none) (n : ℕ) :
    b.block dbs n = b.block dbs 0 := by
  have hstuck : ((Buffers.next dbs)^[n + 1] b).currBlock = b.block dbs 0 ∧
      ((Buffers.next dbs)^[n + 1] b).currBlockHash.slice 0 32 =
        blockGetPrevHash (b.block dbs 0) := by
    induction n with
    | zero => exact ⟨rfl, Buffers.next_hash dbs b⟩
    | succ n ih =>
        obtain ⟨hblock, hhash⟩ := ih
        rw [Function.iterate_succ_apply']
        generalize (Buffers.next dbs)^[n + 1] b = c at hblock hhash ⊢
        have hget : (dataBlocksGet .passed dbs c.currBlockHash c.currBlock).2 = c.currBlock := by
          rcases dataBlocksGet_cases dbs c.currBlockHash c.currBlock with ⟨r, hr, -⟩ | ⟨-, hget⟩
          · rw [hhash, hmissing] at hr
            cases hr
          · rw [hget]
        have hnext : (c.next dbs).currBlock = b.block dbs 0 := hget.trans hblock
        refine ⟨hnext, ?_⟩
        rw [← hnext]
        exact Buffers.next_hash dbs c
  exact hstuck.1

/-- The buffers of the second loop when `forkNode` is to go back from the child of
`genesis` to `genesis`. -/
def backBuffers : Buffers :=
  revertBuffers sampleEnv .zero forkNode (Mem.ofBytes childHash) (Mem.ofBytes genesisHash)

/-- The common block is above the new tip, so the first loop does nothing. -/
theorem forkNode_back_start :
    (dataBlocksGetHeader .passed forkNode (Mem.ofBytes childHash) RevertMem.zero.commonBlock).1 =
      true ∧
    commonHeight sampleEnv .zero forkNode (Mem.ofBytes childHash) = 1 ∧
    (revertOldWalk sampleEnv .zero forkNode (Mem.ofBytes childHash)).found = true ∧
    (revertOldWalk sampleEnv .zero forkNode (Mem.ofBytes childHash)).blocks.length = 0 := by
  decide +kernel

/-- The second loop reads `genesis`, which has no parent. -/
theorem forkNode_back_first :
    blockGetHeight .little (backBuffers.block forkNode 0) = 0 ∧
    (txCursors .little (backBuffers.block forkNode 0)
      (blockGetTxCount .little (backBuffers.block forkNode 0)).toNat posBlockBody).length = 0 ∧
    (forkNode.blocks.lookup (blockGetPrevHash (backBuffers.block forkNode 0))).isNone = true := by
  decide +kernel

/-- It reads it again and again. -/
theorem forkNode_never_back :
    ¬ ∀ (env : Env .passed) (u : RevertMem) (dbs : Dbs) (common newLatest : Mem),
      ∃ fuel, dataBlocksRevert env u fuel dbs common newLatest ≠ .error .outOfFuel := by
  intro hall
  obtain ⟨hheader, hheight, hfound, hblocks⟩ := forkNode_back_start
  obtain ⟨hzero, htxs, hparent⟩ := forkNode_back_first
  have hadds : mempoolAdds sampleEnv.host sampleEnv.digest (oldEntries sampleEnv .zero
      (revertOldWalk sampleEnv .zero forkNode (Mem.ofBytes childHash)).blocks) forkNode.mempool =
        .ok forkNode.mempool := by
    rw [List.length_eq_zero_iff.mp hblocks]
    rfl
  have hstuck := Buffers.block_stuck (Option.isNone_iff_eq_none.mp hparent)
  have hnotxs : blockTxHashes .little sampleEnv.digest (backBuffers.block forkNode 0) = [] := by
    rw [blockTxHashes, blockTxs, List.length_eq_zero_iff.mp htxs]
    rfl
  have hends := hall sampleEnv .zero forkNode (Mem.ofBytes childHash) (Mem.ofBytes genesisHash)
  obtain ⟨n, hstops⟩ := (dataBlocksRevert_loop_iff hheader hfound hadds).mp hends
  rcases hstops with hcommon | hdels
  · have hstill : blockGetHeight .little (backBuffers.block forkNode n) = 1 := hcommon.trans hheight
    rw [hstuck, hzero] at hstill
    exact absurd hstill (by decide)
  · have hnone : backBuffers.hashes sampleEnv forkNode n = [] := by
      refine List.flatMap_eq_nil_iff.mpr fun k _ => ?_
      rw [hstuck]
      exact hnotxs
    have hdone : mempoolDels (backBuffers.hashes sampleEnv forkNode n) forkNode.mempool =
        .ok forkNode.mempool := by
      rw [hnone]
      rfl
    exact nomatch hdone.symm.trans hdels

end Freecoin
