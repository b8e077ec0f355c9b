import Freecoin.Data.Limbo
import Freecoin.Reorg.Walk

/-!
# Reorganisations that fail

`data_blocks_revert` returns early when a block is missing, but by then the
old blocks before it have been filed: their transactions are out of the index
and in the mempool, and limbo has been offered the blocks. Nothing is put
back. (A block that is missing in the second loop is not noticed at all; see
`Termination`.)
-/

namespace Freecoin

open Lib

/-- The stores that a call edits hold the same in both states. -/
structure SameStores (dbs dbs' : Dbs) : Prop where
  chain : ∀ key, dbs'.chain.lookup key = dbs.chain.lookup key
  limbo : ∀ key, dbs'.limbo.lookup key = dbs.limbo.lookup key
  txs : ∀ key, dbs'.txs.lookup key = dbs.txs.lookup key
  mempool : dbs'.mempool = dbs.mempool

theorem SameStores.refl (dbs : Dbs) : SameStores dbs dbs :=
  ⟨fun _ => rfl, fun _ => rfl, fun _ => rfl, rfl⟩

/-- The last of the blocks that have height `h`. -/
def lastOfHeight (env : Env .passed) (h : UInt32) (blocks : List (ℕ × Mem)) : Option (ℕ × Mem) :=
  (blocks.filter fun b => blockGetHeight env.host b.2 = h).getLast?

/-- Before these blocks are filed, no transaction of theirs is in the index, the mempool
has them all, and every level they belong to has a record: one that fits its
buffer, or one that memory happens to show behind the last of these buffers. -/
structure LeavesNoTrace (env : Env .passed) (u : RevertMem) (dbs : Dbs) (blocks : List (ℕ × Mem)) :
    Prop where
  unindexed : ∀ t ∈ oldHashes env blocks, dbs.txs.lookup t = none
  known : ∀ t ∈ oldHashes env blocks, dataMempoolExists dbs.mempool t = .ok true
  levels : ∀ h b, lastOfHeight env h blocks = some b →
    ∃ r, dbs.limbo.lookup (hostBytes32 env.host h) = some r ∧ r ≠ [] ∧
      (r.length ≤ limboBufferSize env ∨
        (offeredLevel env (u.limboAdd b.1) (blockComputeHash env.digest b.2)).slice 0 r.length = r)

/-! ## The index -/

theorem lookup_foldl_erase (ts : List Bytes) (key : Bytes) : ∀ (m : Db),
    (ts.foldl (fun m t => m.erase t) m).lookup key = if key ∈ ts then none else m.lookup key := by
  induction ts with
  | nil => intro m; rfl
  | cons t ts ih =>
      intro m
      rw [List.foldl_cons, ih]
      by_cases hkey : key = t
      · subst hkey
        rw [AList.lookup_erase, ite_self, if_pos (List.mem_cons_self ..)]
      · rw [AList.lookup_erase_ne hkey]
        simp only [List.mem_cons, hkey, false_or]

/-- Deletions change nothing if there is nothing to delete. -/
theorem foldl_erase_same_iff {ts : List Bytes} {m : Db} :
    (∀ key, (ts.foldl (fun m t => m.erase t) m).lookup key = m.lookup key) ↔
      ∀ t ∈ ts, m.lookup t = none := by
  simp only [lookup_foldl_erase]
  constructor
  · intro h t ht
    have hsame := h t
    rw [if_pos ht] at hsame
    exact hsame.symm
  · intro h key
    split
    · rename_i hmem
      exact (h key hmem).symm
    · rfl

/-! ## The mempool -/

theorem dataMempoolAdd_known {o : ByteOrder} {H : Digest} (u : EntryMem) {p : Mempool} {tx : Mem}
    (h : dataMempoolExists p (txComputeHash o H tx) = .ok true) :
    dataMempoolAdd o H u p tx = .ok p := by
  unfold dataMempoolAdd
  rw [h]
  rfl

theorem mempoolAdds_count {o : ByteOrder} {H : Digest} {entries : List (EntryMem × Mem)} :
    ∀ {p p' : Mempool}, mempoolAdds o H entries p = .ok p' → p.count ≤ p'.count := by
  induction entries with
  | nil =>
      intro p p' h
      cases h
      exact Nat.le_refl _
  | cons entry rest ih =>
      intro p p' h
      obtain ⟨q, hadd, hrest⟩ := ok_of_bind h
      have hle := ih hrest
      rcases dataMempoolAdd_cases hadd with rfl | rfl
      · exact hle
      · exact Nat.le_trans (Nat.le_succ _) hle

/-- Additions change nothing if all of it is there. -/
theorem mempoolAdds_same_iff {o : ByteOrder} {H : Digest} {entries : List (EntryMem × Mem)}
    {p p' : Mempool} (h : mempoolAdds o H entries p = .ok p') :
    p' = p ↔ ∀ entry ∈ entries, dataMempoolExists p (txComputeHash o H entry.2) = .ok true := by
  induction entries with
  | nil =>
      cases h
      exact iff_of_true rfl fun _ h => absurd h List.not_mem_nil
  | cons entry rest ih =>
      obtain ⟨u, tx⟩ := entry
      rw [List.forall_mem_cons]
      obtain ⟨q, hadd, hrest⟩ := ok_of_bind h
      cases hfound : dataMempoolExists p (txComputeHash o H tx) with
      | error e =>
          rw [dataMempoolAdd, hfound] at hadd
          cases hadd
      | ok found =>
          cases found with
          | true =>
              rw [dataMempoolAdd_known u hfound] at hadd
              cases hadd
              rw [ih hrest]
              exact ⟨fun hall => ⟨rfl, hall⟩, fun hall => hall.2⟩
          | false =>
              rw [dataMempoolAdd_absent u hfound] at hadd
              cases hadd
              have hcount := mempoolAdds_count hrest
              refine iff_of_false ?_ ?_
              · rintro rfl
                exact absurd hcount (Nat.not_succ_le_self _)
              · rintro ⟨hknown, -⟩
                cases hknown

/-- The transactions that the mempool is offered. -/
theorem oldEntries_hashes {env : Env .passed} {u : RevertMem} {blocks : List (ℕ × Mem)} :
    (oldEntries env u blocks).map (fun entry => txComputeHash env.host env.digest entry.2) =
      oldHashes env blocks := by
  have htxs : ∀ (u : ℕ → EntryMem) (txs : List Mem) (j : ℕ), (txEntries u txs j).map
      (fun entry => txComputeHash env.host env.digest entry.2) =
        txs.map (txComputeHash env.host env.digest) := by
    intro u txs
    induction txs with
    | nil => intro j; rfl
    | cons tx rest ih =>
        intro j
        rw [txEntries, List.map_cons, List.map_cons, ih]
  induction blocks with
  | nil => rfl
  | cons b rest ih =>
      rw [oldEntries_cons, oldHashes_cons, List.map_append, ih, htxs]
      rfl

/-- The additions come to an empty slot exactly if one of them would at once. -/
theorem mempoolAdds_dies_iff {o : ByteOrder} {H : Digest} {entries : List (EntryMem × Mem)} :
    ∀ {p : Mempool}, mempoolAdds o H entries p = .error .badPointer ↔
      ∃ entry ∈ entries, dataMempoolExists p (txComputeHash o H entry.2) = .error .badPointer := by
  induction entries with
  | nil =>
      intro p
      refine iff_of_false ?_ ?_
      · intro h
        cases h
      · rintro ⟨entry, hmem, -⟩
        exact absurd hmem List.not_mem_nil
  | cons entry rest ih =>
      intro p
      obtain ⟨u, tx⟩ := entry
      rw [mempoolAdds]
      simp only [List.mem_cons, exists_eq_or_imp]
      cases hfound : dataMempoolExists p (txComputeHash o H tx) with
      | error e =>
          have hkind := (dataMempoolExists_fails (P := (· = .badPointer)) rfl p _).kind e hfound
          rw [dataMempoolAdd, hfound, hkind]
          exact iff_of_true rfl (.inl rfl)
      | ok found =>
          cases found with
          | true =>
              rw [dataMempoolAdd_known u hfound]
              refine ih.trans ⟨.inr, fun h => h.resolve_left fun hdies => ?_⟩
              cases hdies
          | false =>
              -- a search that finds nothing has come to no empty slot, so none ever will
              have hfilled := filled_of_absent hfound
              rw [dataMempoolAdd_absent u hfound]
              refine ih.trans (iff_of_false ?_ ?_)
              · rintro ⟨entry, -, hdies⟩
                exact (hfilled.push _).exists_ne_error _ _ hdies
              · rintro (hdies | ⟨entry, -, hdies⟩)
                · cases hdies
                · exact hfilled.exists_ne_error _ _ hdies

/-! ## The levels -/

section Levels

variable {env : Env .passed} {u : RevertMem}

/-- The record of a level, one of the blocks of its height added after the other. -/
def recordAdds (env : Env .passed) (u : RevertMem) (blocks : List (ℕ × Mem))
    (old : Option Bytes) : Option Bytes :=
  blocks.foldl (fun old b => some (limboRecord env (fun arr x => (arrayAdd arr x).2)
    (u.limboAdd b.1) (blockComputeHash env.digest b.2) old)) old

theorem recordAdds_concat (blocks : List (ℕ × Mem)) (b : ℕ × Mem) (old : Option Bytes) :
    recordAdds env u (blocks ++ [b]) old =
      some (limboRecord env (fun arr x => (arrayAdd arr x).2) (u.limboAdd b.1)
        (blockComputeHash env.digest b.2) (recordAdds env u blocks old)) := by
  rw [recordAdds, List.foldl_append]
  rfl

theorem limboAdds_lookup {blocks : List (ℕ × Mem)} (h : UInt32) : ∀ {dbs : Dbs},
    (limboAdds env u blocks dbs).limbo.lookup (hostBytes32 env.host h) =
      recordAdds env u (blocks.filter fun b => blockGetHeight env.host b.2 = h)
        (dbs.limbo.lookup (hostBytes32 env.host h)) := by
  induction blocks with
  | nil => intro dbs; rfl
  | cons b rest ih =>
      intro dbs
      rw [limboAdds, List.foldl_cons]
      refine ih.trans ?_
      rw [dataLimboSafeAdd, dataLimboEdit_passed]
      by_cases hb : blockGetHeight env.host b.2 = h
      · rw [List.filter_cons_of_pos (by simpa using hb), hb]
        dsimp only
        rw [AList.lookup_insert]
        rfl
      · have hkey : hostBytes32 env.host h ≠ hostBytes32 env.host (blockGetHeight env.host b.2) :=
          fun heq => hb (hostBytes32_injective _ heq).symm
        rw [List.filter_cons_of_neg (by simpa using hb)]
        dsimp only
        rw [AList.lookup_insert_ne hkey]

/-- What is not the key of a height stays as it is. -/
theorem limboAdds_lookup_other {blocks : List (ℕ × Mem)} {key : Bytes}
    (hkey : ∀ h, key ≠ hostBytes32 env.host h) : ∀ {dbs : Dbs},
    (limboAdds env u blocks dbs).limbo.lookup key = dbs.limbo.lookup key := by
  induction blocks with
  | nil => intro dbs; rfl
  | cons b rest ih =>
      intro dbs
      rw [limboAdds, List.foldl_cons]
      refine ih.trans ?_
      rw [dataLimboSafeAdd, dataLimboEdit_passed]
      exact AList.lookup_insert_ne (hkey _)

/-- A record that fits its buffer stays. -/
theorem recordAdds_fits (blocks : List (ℕ × Mem)) {r : Bytes} (hne : r ≠ [])
    (hfit : r.length ≤ limboBufferSize env) : recordAdds env u blocks (some r) = some r := by
  induction blocks using List.reverseRecOn with
  | nil => rfl
  | append_singleton blocks b ih =>
      rw [recordAdds_concat, ih, limboRecord_add_kept env _ _ hne hfit]

/-- A record that does not fit keeps its length. -/
theorem recordAdds_long (blocks : List (ℕ × Mem)) {r : Bytes}
    (hlong : limboBufferSize env < r.length) :
    ∃ r', recordAdds env u blocks (some r) = some r' ∧ r'.length = r.length := by
  induction blocks using List.reverseRecOn with
  | nil => exact ⟨r, rfl, rfl⟩
  | append_singleton blocks b ih =>
      obtain ⟨r', hr', hlen⟩ := ih
      rw [recordAdds_concat, hr']
      exact ⟨_, rfl, (limboRecord_long env _ _ _ (hlen ▸ hlong)).trans hlen⟩

/-- The additions leave a level as it was exactly if it has a record, and that fits or is
what memory shows behind the last buffer. -/
theorem recordAdds_same_iff {blocks : List (ℕ × Mem)} {old : Option Bytes} :
    recordAdds env u blocks old = old ↔ ∀ b, blocks.getLast? = some b →
      ∃ r, old = some r ∧ r ≠ [] ∧ (r.length ≤ limboBufferSize env ∨
        (offeredLevel env (u.limboAdd b.1) (blockComputeHash env.digest b.2)).slice 0 r.length =
          r) := by
  rcases List.eq_nil_or_concat' blocks with rfl | ⟨before, b, rfl⟩
  · refine iff_of_true rfl fun b hb => ?_
    cases hb
  · simp only [List.getLast?_concat, Option.some_inj, forall_eq']
    rw [recordAdds_concat]
    cases old with
    | none =>
        refine iff_of_false ?_ ?_
        · intro h
          cases h
        · rintro ⟨r, hr, -⟩
          cases hr
    | some r =>
        rw [Option.some_inj]
        simp only [Option.some_inj, exists_eq_left']
        by_cases hne : r = []
        · refine iff_of_false ?_ fun h => h.1 hne
          rw [hne]
          exact limboRecord_ne_nil env _ _ _ _
        · rw [and_iff_right hne]
          by_cases hfit : r.length ≤ limboBufferSize env
          · rw [recordAdds_fits before hne hfit, limboRecord_add_kept env _ _ hne hfit]
            exact iff_of_true rfl (.inl hfit)
          · have hlong := Nat.not_le.mp hfit
            obtain ⟨r', hr', hlen⟩ : ∃ r', recordAdds env u before (some r) = some r' ∧
                r'.length = r.length := recordAdds_long before hlong
            rw [hr', limboRecord_add_long env _ _ (hlen ▸ hlong), hlen, or_iff_right hfit]

/-- Whether adding blocks to limbo changes a level. -/
theorem limboAdds_same_iff {blocks : List (ℕ × Mem)} {dbs : Dbs} :
    (∀ key, (limboAdds env u blocks dbs).limbo.lookup key = dbs.limbo.lookup key) ↔
      ∀ h b, lastOfHeight env h blocks = some b →
        ∃ r, dbs.limbo.lookup (hostBytes32 env.host h) = some r ∧ r ≠ [] ∧
          (r.length ≤ limboBufferSize env ∨
            (offeredLevel env (u.limboAdd b.1) (blockComputeHash env.digest b.2)).slice 0 r.length =
              r) := by
  constructor
  · intro hsame h
    have hlevel := hsame (hostBytes32 env.host h)
    rw [limboAdds_lookup] at hlevel
    exact recordAdds_same_iff.mp hlevel
  · intro hlevels key
    by_cases hkey : ∃ h, key = hostBytes32 env.host h
    · obtain ⟨h, rfl⟩ := hkey
      rw [limboAdds_lookup]
      exact recordAdds_same_iff.mpr (hlevels h)
    · exact limboAdds_lookup_other fun h heq => hkey ⟨h, heq⟩

end Levels

/-! ## A call -/

variable {env : Env .passed}

theorem oldHashes_dies_iff {u : RevertMem} {blocks : List (ℕ × Mem)} {p : Mempool} :
    mempoolAdds env.host env.digest (oldEntries env u blocks) p = .error .badPointer ↔
      ∃ t ∈ oldHashes env blocks, dataMempoolExists p t = .error .badPointer := by
  rw [mempoolAdds_dies_iff, ← oldEntries_hashes (u := u)]
  simp only [List.mem_map, exists_exists_and_eq_and]

/-- Whether filing the old blocks leaves the stores as they were. -/
theorem fileOld_same_iff {u : RevertMem} {blocks : List (ℕ × Mem)} {dbs filed : Dbs}
    (h : fileOld env u blocks dbs = .ok filed) :
    SameStores dbs filed ↔ LeavesNoTrace env u dbs blocks := by
  rw [fileOld_eq] at h
  obtain ⟨p, hadds, rfl⟩ := ok_of_map h
  have hpool : p = dbs.mempool ↔
      ∀ t ∈ oldHashes env blocks, dataMempoolExists dbs.mempool t = .ok true := by
    rw [mempoolAdds_same_iff hadds, ← oldEntries_hashes (u := u), List.forall_mem_map]
  constructor
  · rintro ⟨-, hlimbo, htxs, hmempool⟩
    exact ⟨foldl_erase_same_iff.mp htxs, hpool.mp hmempool, limboAdds_same_iff.mp hlimbo⟩
  · rintro ⟨hunindexed, hknown, hlevels⟩
    exact ⟨fun _ => rfl, limboAdds_same_iff.mpr hlevels, foldl_erase_same_iff.mpr hunindexed,
      hpool.mpr hknown⟩

/-- When a call returns early, and with what. -/
theorem dataBlocksRevert_false_iff {u : RevertMem} {fuel : ℕ} {dbs dbs' : Dbs}
    {common newLatest : Mem} :
    dataBlocksRevert env u fuel dbs common newLatest = .ok (false, dbs') ↔
      ((dataBlocksGetHeader .passed dbs common u.commonBlock).1 = false ∧ dbs' = dbs) ∨
      ((dataBlocksGetHeader .passed dbs common u.commonBlock).1 = true ∧
        (revertOldWalk env u dbs common).found = false ∧
        fileOld env u (revertOldWalk env u dbs common).blocks dbs = .ok dbs') := by
  rw [dataBlocksRevert_eq]
  cases (dataBlocksGetHeader .passed dbs common u.commonBlock).1 with
  | false =>
      constructor
      · intro h
        cases h
        exact .inl ⟨rfl, rfl⟩
      · rintro (⟨-, rfl⟩ | ⟨htrue, -⟩)
        · rfl
        · cases htrue
  | true =>
      constructor
      · intro h
        obtain ⟨filed, hfiled, h⟩ := ok_of_bind h
        cases hfound : (revertOldWalk env u dbs common).found with
        | true =>
            rw [hfound, if_pos rfl] at h
            obtain ⟨s, -, h⟩ := ok_of_bind h
            cases h
        | false =>
            rw [hfound] at h
            cases h
            exact .inr ⟨rfl, rfl, hfiled⟩
      · rintro (⟨hfalse, -⟩ | ⟨-, hfound, hfiled⟩)
        · cases hfalse
        · rw [hfiled, hfound]
          rfl

/-- **Failing calls.** Whenever a call returns early it leaves chain, limbo, index and
mempool as they were, if and only if the header of the common block is not
stored, or all old blocks are, or looking for one of their transactions comes to
an empty slot of the mempool, or the old blocks before the missing one leave no
trace. -/
theorem dataBlocksRevert_atomic_iff (env : Env .passed) (u : RevertMem) (dbs : Dbs)
    (common newLatest : Mem) :
    (∀ fuel dbs', dataBlocksRevert env u fuel dbs common newLatest = .ok (false, dbs') →
      SameStores dbs dbs') ↔
      (dataBlocksGetHeader .passed dbs common u.commonBlock).1 = false ∨
      (revertOldWalk env u dbs common).found = true ∨
      (∃ t ∈ oldHashes env (revertOldWalk env u dbs common).blocks,
        dataMempoolExists dbs.mempool t = .error .badPointer) ∨
      LeavesNoTrace env u dbs (revertOldWalk env u dbs common).blocks := by
  simp only [dataBlocksRevert_false_iff]
  rw [← oldHashes_dies_iff (u := u)]
  constructor
  · intro h
    by_contra hnone
    simp only [not_or, Bool.not_eq_false, Bool.not_eq_true] at hnone
    obtain ⟨hheader, hfound, halive, htrace⟩ := hnone
    cases hfiled : fileOld env u (revertOldWalk env u dbs common).blocks dbs with
    | error e =>
        rw [fileOld_eq] at hfiled
        cases hadds : mempoolAdds env.host env.digest
            (oldEntries env u (revertOldWalk env u dbs common).blocks) dbs.mempool with
        | error e' =>
            have hkind := (mempoolAdds_fails (P := (· = .badPointer)) rfl _ _ _ _).kind e' hadds
            rw [hkind] at hadds
            exact halive hadds
        | ok p =>
            rw [hadds] at hfiled
            cases hfiled
    | ok filed =>
        exact htrace ((fileOld_same_iff hfiled).mp (h 0 filed (.inr ⟨hheader, hfound, hfiled⟩)))
  · rintro hcond fuel dbs' (⟨-, rfl⟩ | ⟨hheader, hfound, hfiled⟩)
    · exact .refl dbs'
    · rcases hcond with hfalse | htrue | hdies | htrace
      · exact absurd (hheader.symm.trans hfalse) (by decide)
      · exact absurd (hfound.symm.trans htrue) (by decide)
      · rw [fileOld_eq, hdies] at hfiled
        cases hfiled
      · exact (fileOld_same_iff hfiled).mpr htrace

/-! ## A gap in the chain -/

/-- A block of height 2, as a little-endian host reads it, with one transaction of ten
zeros. Its nonce makes bytes 6 to 9 of its hash zero, as that of `genesis`. -/
def topRecord : Bytes :=
  List.replicate 6 0 ++ [2, 0, 0, 0] ++ List.replicate 65 0 ++ [28, 230, 1, 0] ++
    ([1, 0, 0, 0] ++ List.replicate 10 0)

def topHash : Bytes := [215, 0, 0, 45, 125, 154, 40, 226].flatMap (List.replicate 4)

/-- The chain has three blocks, of which the one in the middle is not stored. -/
def gapNode : Dbs where
  blocks := genesisNode.blocks.insert topHash topRecord
  chain := (genesisNode.chain.insert (hostBytes32 .little 1) (List.replicate 32 0)).insert
    (hostBytes32 .little 2) topHash
  limbo := ∅
  txs := AList.insert (sha256 zeroTx) topHash ∅
  mempool := mempoolInit

/-- The call to go back to `genesis` fails at the block in the middle. -/
theorem gapNode_fails :
    topHash = recordHash sampleEnv topRecord ∧
    (dataBlocksRevert sampleEnv { RevertMem.zero with height := ⟨2, fun _ => 0⟩ } 0 gapNode
      (Mem.ofBytes genesisHash) (Mem.ofBytes childHash)).toOption.map
        (fun r => (r.1, (r.2.txs.lookup (sha256 zeroTx)).isSome)) = some (false, false) := by
  decide +kernel

/-- The transaction of the top block is lost from the index. -/
theorem gapNode_not_restored :
    ¬ ∀ (env : Env .passed) (u : RevertMem) (fuel : ℕ) (dbs dbs' : Dbs) (common newLatest : Mem),
      dataBlocksRevert env u fuel dbs common newLatest = .ok (false, dbs') →
      SameStores dbs dbs' := by
  intro hall
  obtain ⟨-, hfails⟩ := gapNode_fails
  cases hrun : dataBlocksRevert sampleEnv { RevertMem.zero with height := ⟨2, fun _ => 0⟩ } 0
      gapNode (Mem.ofBytes genesisHash) (Mem.ofBytes childHash) with
  | error e =>
      rw [hrun] at hfails
      cases hfails
  | ok r =>
      rw [hrun] at hfails
      obtain ⟨hret, hlost⟩ := Prod.mk.inj (Option.some_inj.mp hfails)
      obtain ⟨ret, dbs'⟩ := r
      dsimp only at hret hlost
      subst hret
      have hkept := (hall _ _ _ _ _ _ _ hrun).txs (sha256 zeroTx)
      have hindexed : gapNode.txs.lookup (sha256 zeroTx) = some topHash := AList.lookup_insert _
      rw [hkept, hindexed] at hlost
      cases hlost

end Freecoin
