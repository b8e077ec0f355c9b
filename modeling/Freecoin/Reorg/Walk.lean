import Freecoin.Reorg.Conservation

/-!
# What a reorganisation reads and what it files

`data_blocks_revert` reads the blocks database and the chain, and changes
neither as far as it reads them. So the blocks that its two loops come across
are fixed before the call: `oldWalk` and `Buffers.next` read them without
touching anything. What the loops do to the databases is then to file one of
these blocks after the other, and each database sees its own part of that:
`fileOld_eq` gives all of the first loop at once.
-/

namespace Freecoin

open Lib Relation

variable (env : Env .passed)

/-! ## The reads -/

/-- What the first loop reads: the old blocks with their heights, as far as they are
stored, whether all of them are, and the two buffers at its end. -/
structure OldWalk : Type where
  blocks : List (ℕ × Mem)
  found : Bool
  currBlock : Mem
  currBlockHash : Mem

/-- The reads of the first loop, `n` blocks down to the height above `common`. -/
def oldWalk (dbs : Dbs) (common : ℕ) : ℕ → Mem → Mem → OldWalk
  | 0, block, hash => ⟨[], true, block, hash⟩
  | n + 1, block, hash =>
      let i := common + (n + 1)
      let hash := (dataChainGet env dbs (UInt32.ofNat i) hash).2
      let got := dataBlocksGet .passed dbs hash block
      if got.1 then
        let rest := oldWalk dbs common n got.2 hash
        { rest with blocks := (i, got.2) :: rest.blocks }
      else ⟨[], false, got.2, hash⟩

/-- The first loop of a call. -/
def revertOldWalk (u : RevertMem) (dbs : Dbs) (common : Mem) : OldWalk :=
  oldWalk env dbs (commonHeight env u dbs common).toNat
    ((dataChainGetHeight env u.height dbs).toNat - (commonHeight env u dbs common).toNat)
    u.currBlock u.currBlockHash

/-- The buffers of the second loop. -/
structure Buffers : Type where
  currBlock : Mem
  currBlockHash : Mem

/-- One pass: the block of that hash is read, if it is stored, and the hash of its
parent taken from the buffer. -/
def Buffers.next (dbs : Dbs) (b : Buffers) : Buffers :=
  let block := (dataBlocksGet .passed dbs b.currBlockHash b.currBlock).2
  ⟨block, b.currBlockHash.write 0 (blockGetPrevHash block)⟩

/-- The block that is in the buffer in pass `n`. -/
def Buffers.block (dbs : Dbs) (b : Buffers) (n : ℕ) : Mem :=
  ((Buffers.next dbs)^[n + 1] b).currBlock

/-- The buffers with which the second loop of a call starts. -/
def revertBuffers (u : RevertMem) (dbs : Dbs) (common newLatest : Mem) : Buffers :=
  ⟨(revertOldWalk env u dbs common).currBlock,
    (revertOldWalk env u dbs common).currBlockHash.write 0 (newLatest.slice 0 sizeSha256)⟩

theorem Buffers.block_succ (dbs : Dbs) (b : Buffers) (n : ℕ) :
    b.block dbs (n + 1) = (b.next dbs).block dbs n :=
  congrArg Buffers.currBlock (Function.iterate_succ_apply _ _ _)

/-! ## The mempool calls -/

/-- One `data_mempool_add` after another. -/
def mempoolAdds (o : ByteOrder) (H : Digest) : List (EntryMem × Mem) → Mempool →
    Except Fault Mempool
  | [], p => .ok p
  | (u, tx) :: rest, p => do
      let p ← dataMempoolAdd o H u p tx
      mempoolAdds o H rest p

/-- One `data_mempool_del` after another. -/
def mempoolDels : List Bytes → Mempool → Except Fault Mempool
  | [], p => .ok p
  | hash :: rest, p => do
      let deleted ← dataMempoolDel p hash
      mempoolDels rest deleted.2

theorem mempoolAdds_append {o : ByteOrder} {H : Digest} {later : List (EntryMem × Mem)} :
    ∀ (entries : List (EntryMem × Mem)) (p : Mempool),
      mempoolAdds o H (entries ++ later) p =
        mempoolAdds o H entries p >>= mempoolAdds o H later := by
  intro entries
  induction entries with
  | nil => intro p; rfl
  | cons entry rest ih =>
      intro p
      obtain ⟨u, tx⟩ := entry
      rw [List.cons_append, mempoolAdds, mempoolAdds, bind_assoc]
      exact bind_congr fun p' => ih p'

theorem mempoolDels_append {later : List Bytes} : ∀ (hashes : List Bytes) (p : Mempool),
    mempoolDels (hashes ++ later) p = mempoolDels hashes p >>= mempoolDels later := by
  intro hashes
  induction hashes with
  | nil => intro p; rfl
  | cons hash rest ih =>
      intro p
      rw [List.cons_append, mempoolDels, mempoolDels, bind_assoc]
      exact bind_congr fun deleted => ih deleted.2

theorem mempoolAdds_fails {P : Fault → Prop} (hP : P .badPointer) (o : ByteOrder) (H : Digest) :
    ∀ entries p, FailsOnly P (mempoolAdds o H entries p) := by
  intro entries
  induction entries with
  | nil => intro p; exact .ok p
  | cons entry rest ih =>
      intro p
      exact (dataMempoolAdd_fails hP ..).bind ih

theorem mempoolDels_fails {P : Fault → Prop} (hP : P .badPointer) :
    ∀ hashes p, FailsOnly P (mempoolDels hashes p) := by
  intro hashes
  induction hashes with
  | nil => intro p; exact .ok p
  | cons hash rest ih =>
      intro p
      exact (dataMempoolDel_fails hP ..).bind fun deleted => ih deleted.2

/-! ## The first loop -/

/-- The entries that the transactions of a block are added with, from the `j`-th on. -/
def txEntries (u : ℕ → EntryMem) : List Mem → ℕ → List (EntryMem × Mem)
  | [], _ => []
  | tx :: rest, j => (u j, tx) :: txEntries u rest (j + 1)

/-- The entries of all old blocks. -/
def oldEntries (u : RevertMem) (blocks : List (ℕ × Mem)) : List (EntryMem × Mem) :=
  blocks.flatMap fun b => txEntries (u.entry b.1) (blockTxs env.host b.2) 0

/-- The hashes of their transactions. -/
def oldHashes (blocks : List (ℕ × Mem)) : List Bytes :=
  blocks.flatMap fun b => blockTxHashes env.host env.digest b.2

/-- The old blocks added to limbo, one after the other. -/
def limboAdds (u : RevertMem) (blocks : List (ℕ × Mem)) (dbs : Dbs) : Dbs :=
  blocks.foldl (fun dbs b => dataLimboSafeAdd env (u.limboAdd b.1) dbs b.2) dbs

/-- What the first loop does with the blocks it reads. -/
def fileOld (u : RevertMem) : List (ℕ × Mem) → Dbs → Except Fault Dbs
  | [], dbs => .ok dbs
  | (i, block) :: rest, dbs => do
      let dbs ← oldTxs env (u.entry i) (blockTxs env.host block) 0 dbs
      fileOld u rest (dataLimboSafeAdd env (u.limboAdd i) dbs block)

variable {env}

/-- **The first loop** reads `oldWalk` and files it. -/
theorem oldBlocks_eq {u : RevertMem} {dbs : Dbs} {common n : ℕ} :
    ∀ {s : RevertState}, SameReads env s.dbs dbs → oldBlocks env u common n s =
      (fileOld env u (oldWalk env dbs common n s.currBlock s.currBlockHash).blocks s.dbs).map
        fun dbs' => ((oldWalk env dbs common n s.currBlock s.currBlockHash).found,
          ⟨dbs', (oldWalk env dbs common n s.currBlock s.currBlockHash).currBlock,
            (oldWalk env dbs common n s.currBlock s.currBlockHash).currBlockHash⟩) := by
  induction n with
  | zero => intro s _; rfl
  | succ n ih =>
      intro s hreads
      rw [oldBlocks, hreads.chain, hreads.get, oldWalk]
      generalize (dataChainGet env dbs (UInt32.ofNat (common + (n + 1))) s.currBlockHash).2 = hash
      generalize dataBlocksGet .passed dbs hash s.currBlock = got
      obtain ⟨ret, block⟩ := got
      cases ret with
      | false => rfl
      | true =>
          simp only [if_true, fileOld]
          cases htxs : oldTxs env (u.entry (common + (n + 1))) (blockTxs env.host block) 0
            s.dbs with
          | error e => rfl
          | ok mid =>
              have hmid := hreads.edits (oldTxs_edits dbs.blocks htxs)
              have hreads' : SameReads env
                  (dataLimboSafeAdd env (u.limboAdd (common + (n + 1))) mid block) dbs :=
                ⟨hmid.blocks, hmid.chain⟩
              exact ih (s := ⟨_, block, hash⟩) hreads'

/-- The transactions of one old block, database by database. -/
theorem oldTxs_eq {u : ℕ → EntryMem} {txs : List Mem} : ∀ {j : ℕ} {dbs : Dbs},
    oldTxs env u txs j dbs =
      (mempoolAdds env.host env.digest (txEntries u txs j) dbs.mempool).map fun p =>
        { dbs with
          txs := (txs.map (txComputeHash env.host env.digest)).foldl (fun m t => m.erase t) dbs.txs
          mempool := p } := by
  induction txs with
  | nil => intro j dbs; rfl
  | cons tx rest ih =>
      intro j dbs
      rw [oldTxs, txEntries, mempoolAdds, dataTxsDel_passed dbs (txComputeHash_length ..)]
      dsimp only
      cases dataMempoolAdd env.host env.digest (u j) dbs.mempool tx with
      | error e => rfl
      | ok p => exact ih

theorem oldEntries_cons (u : RevertMem) (b : ℕ × Mem) (rest : List (ℕ × Mem)) :
    oldEntries env u (b :: rest) =
      txEntries (u.entry b.1) (blockTxs env.host b.2) 0 ++ oldEntries env u rest :=
  List.flatMap_cons

theorem oldHashes_cons (b : ℕ × Mem) (rest : List (ℕ × Mem)) :
    oldHashes env (b :: rest) = blockTxHashes env.host env.digest b.2 ++ oldHashes env rest :=
  List.flatMap_cons

/-- What limbo becomes depends on limbo alone. -/
theorem limboAdds_limbo {u : RevertMem} {blocks : List (ℕ × Mem)} : ∀ {dbs dbs' : Dbs},
    dbs.limbo = dbs'.limbo →
      (limboAdds env u blocks dbs).limbo = (limboAdds env u blocks dbs').limbo := by
  induction blocks with
  | nil => intro dbs dbs' h; exact h
  | cons b rest ih =>
      intro dbs dbs' h
      refine ih ?_
      simp only [dataLimboSafeAdd, dataLimboEdit, h]

/-- **What the first loop files.** The index loses the transactions of the blocks, the
mempool is offered them, and limbo the blocks. -/
theorem fileOld_eq {u : RevertMem} {blocks : List (ℕ × Mem)} : ∀ {dbs : Dbs},
    fileOld env u blocks dbs =
      (mempoolAdds env.host env.digest (oldEntries env u blocks) dbs.mempool).map fun p =>
        { dbs with
          txs := (oldHashes env blocks).foldl (fun m t => m.erase t) dbs.txs
          limbo := (limboAdds env u blocks dbs).limbo
          mempool := p } := by
  induction blocks with
  | nil => intro dbs; rfl
  | cons b rest ih =>
      intro dbs
      obtain ⟨i, block⟩ := b
      rw [fileOld, oldTxs_eq, oldEntries_cons, mempoolAdds_append]
      cases mempoolAdds env.host env.digest (txEntries (u.entry i) (blockTxs env.host block) 0)
        dbs.mempool with
      | error e => rfl
      | ok p =>
          have hlimbo : (limboAdds env u rest (dataLimboSafeAdd env (u.limboAdd i) { dbs with
              txs := ((blockTxs env.host block).map (txComputeHash env.host env.digest)).foldl
                (fun m t => m.erase t) dbs.txs, mempool := p } block)).limbo =
              (limboAdds env u rest (dataLimboSafeAdd env (u.limboAdd i) dbs block)).limbo :=
            limboAdds_limbo rfl
          refine Eq.trans ih ?_
          rw [hlimbo, oldHashes_cons, List.foldl_append]
          rfl

/-! ## A call -/

/-- **A call**, with its reads and what it files kept apart. -/
theorem dataBlocksRevert_eq (u : RevertMem) (fuel : ℕ) (dbs : Dbs) (common newLatest : Mem) :
    dataBlocksRevert env u fuel dbs common newLatest =
      if (dataBlocksGetHeader .passed dbs common u.commonBlock).1 then do
        let filed ← fileOld env u (revertOldWalk env u dbs common).blocks dbs
        if (revertOldWalk env u dbs common).found then do
          let s ← newBlocks env u (commonHeight env u dbs common) fuel 0
            ⟨filed, (revertBuffers env u dbs common newLatest).currBlock,
              (revertBuffers env u dbs common newLatest).currBlockHash⟩
          return (true, s.dbs)
        else return (false, filed)
      else .ok (false, dbs) := by
  rw [dataBlocksRevert]
  dsimp only
  rw [oldBlocks_eq (.refl dbs)]
  split
  · show (Except.map _ (fileOld env u (revertOldWalk env u dbs common).blocks dbs) >>= _) = _
    cases fileOld env u (revertOldWalk env u dbs common).blocks dbs with
    | error e => rfl
    | ok filed => rfl
  · rfl

/-- What is filed by the first loop leaves the reads alone. -/
theorem fileOld_sameReads {u : RevertMem} {blocks : List (ℕ × Mem)} {dbs filed : Dbs}
    (h : fileOld env u blocks dbs = .ok filed) : SameReads env filed dbs := by
  rw [fileOld_eq] at h
  obtain ⟨p, -, rfl⟩ := ok_of_map h
  exact ⟨rfl, rfl⟩

end Freecoin
