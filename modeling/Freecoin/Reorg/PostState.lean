import Freecoin.Data.Revert
import Freecoin.Data.View

/-!
# The databases after a reorganisation

What `data_blocks_revert` is for: the chain switched to the new branch, the
old branch moved to limbo, the index following the chain. It never gets
there. The second loop hands `data_chain_safe_set` the block where a hash is
expected, and whatever that call writes, it writes under a 32-byte key, so
`data_chain_get` finds at the new tip what it found before: nothing.
-/

namespace Freecoin

open Lib

variable (env : Env .passed)

/-- The call `data_blocks_revert(dbs, c, n_k)` is due: the common block `c` is on the
chain at `hc`, the chain ends at `H`, and the limbo blocks `n h`, given by their
records, lead from height `k` back to `c`. -/
structure ForkAt (dbs : Dbs) (c : Bytes) (hc H k : ℕ) (n : ℕ → Bytes) : Prop where
  common_le : hc ≤ H
  tip_lt : H < k
  range : k < 2 ^ 32
  chain : ∀ h ≤ H, ∃ x r, ChainHas env dbs (UInt32.ofNat h) x ∧ dbs.blocks.lookup x = some r ∧
    (recordHeight env r).toNat = h
  chain_end : ∀ h, H < h → h < 2 ^ 32 → ∀ x, ¬ ChainHas env dbs (UInt32.ofNat h) x
  common : ChainHas env dbs (UInt32.ofNat hc) c
  stored : ∀ h, hc < h → h ≤ k → dbs.blocks.lookup (recordHash env (n h)) = some (n h)
  height : ∀ h, hc < h → h ≤ k → (recordHeight env (n h)).toNat = h
  listed : ∀ h, hc < h → h ≤ k → LimboLists env dbs (UInt32.ofNat h) (recordHash env (n h))
  linked_common : recordPrevHash (n (hc + 1)) = c
  linked : ∀ h, hc < h → h < k → recordPrevHash (n (h + 1)) = recordHash env (n h)

/-- `t` is in the record of the old chain block at height `h`. -/
def OldTx (dbs : Dbs) (h : ℕ) (t : Bytes) : Prop :=
  ∃ x r, ChainHas env dbs (UInt32.ofNat h) x ∧ dbs.blocks.lookup x = some r ∧ t ∈ recordTxs env r

/-- What the call is to leave behind. -/
structure Reverted (dbs dbs' : Dbs) (hc H k : ℕ) (n : ℕ → Bytes) : Prop where
  chain_new : ∀ h, hc < h → h ≤ k → ChainHas env dbs' (UInt32.ofNat h) (recordHash env (n h))
  chain_kept : ∀ h ≤ hc, ∀ x,
    ChainHas env dbs' (UInt32.ofNat h) x ↔ ChainHas env dbs (UInt32.ofNat h) x
  limbo_old : ∀ h, hc < h → h ≤ H → ∀ x, ChainHas env dbs (UInt32.ofNat h) x →
    LimboLists env dbs' (UInt32.ofNat h) x
  limbo_new : ∀ h, hc < h → h ≤ k → ¬ LimboLists env dbs' (UInt32.ofNat h) (recordHash env (n h))
  txs_new : ∀ h, hc < h → h ≤ k → ∀ t ∈ recordTxs env (n h), ∃ h', hc < h' ∧ h' ≤ k ∧
    t ∈ recordTxs env (n h') ∧ dbs'.txs.lookup t = some (recordHash env (n h'))
  txs_old : ∀ h, hc < h → h ≤ H → ∀ t, OldTx env dbs h t → (∀ h' ≤ hc, ¬ OldTx env dbs h' t) →
    (∀ h', hc < h' → h' ≤ k → t ∉ recordTxs env (n h')) → dbs'.txs.lookup t = none

variable {env} {dbs dbs' : Dbs} {c : Bytes} {hc H k : ℕ} {n : ℕ → Bytes}

/-- The new tip would have to be readable at height `k`, above the old one. -/
theorem ForkAt.not_reverted (hfork : ForkAt env dbs c hc H k n)
    (hchain : dataChainGet env dbs' = dataChainGet env dbs) : ¬ Reverted env dbs dbs' hc H k n := by
  intro hpost
  have hc_lt : hc < k := Nat.lt_of_le_of_lt hfork.common_le hfork.tip_lt
  have htip := (ChainHas.congr hchain).mp (hpost.chain_new k hc_lt (Nat.le_refl k))
  exact hfork.chain_end k hfork.tip_lt hfork.range _ htip

/-- **No reorganisation succeeds.** Wherever a call is due, whatever memory it is
given and however long it runs, it does not end with the chain on the new
branch. -/
theorem dataBlocksRevert_never_reverts (env : Env .passed) (dbs : Dbs) (c : Bytes) (hc H k : ℕ)
    (n : ℕ → Bytes) (hfork : ForkAt env dbs c hc H k n) (u : RevertMem) (common newLatest : Mem) :
    ¬ ∃ fuel done dbs', dataBlocksRevert env u fuel dbs common newLatest = .ok (done, dbs') ∧
      Reverted env dbs dbs' hc H k n := by
  rintro ⟨fuel, done, dbs', hrun, hpost⟩
  exact hfork.not_reverted (dataBlocksRevert_chainGet hrun) hpost

/-! ## A fork of depth one -/

theorem forkNode_forkAt : ForkAt sampleEnv forkNode genesisHash 0 0 1 fun _ => childRecord := by
  have hheight : recordHeight sampleEnv childRecord = 1 := by decide
  have hchain : ∀ h x, ChainHas sampleEnv forkNode h x ↔ h = 0 ∧ x = genesisHash := fun _ _ =>
    genesisNode_chainHas
  have hone : ∀ h : ℕ, 0 < h → h ≤ 1 → h = 1 := by omega
  refine
    { common_le := Nat.le_refl 0, tip_lt := by omega, range := by omega, chain := ?_,
      chain_end := ?_, common := (hchain _ _).mpr ⟨rfl, rfl⟩, stored := ?_, height := ?_,
      listed := ?_, linked_common := ?_, linked := by omega }
  · intro h hle
    obtain rfl := Nat.le_zero.mp hle
    refine ⟨_, blockRecord sampleEnv 0 genesis, (hchain _ _).mpr ⟨rfl, rfl⟩, ?_, ?_⟩
    · rw [forkNode, AList.lookup_insert_ne (by decide)]
      exact AList.lookup_insert _
    · decide
  · intro h hpos hlt x hx
    have hzero := congrArg UInt32.toNat ((hchain _ _).mp hx).1
    rw [UInt32.toNat_ofNat', Nat.mod_eq_of_lt hlt] at hzero
    exact absurd hzero (Nat.ne_of_gt hpos)
  · intro h _ _
    rw [childHash_eq]
    exact AList.lookup_insert _
  · intro h hpos hle
    rw [hheight, hone h hpos hle]
    rfl
  · intro h hpos hle
    obtain rfl := hone h hpos hle
    rw [childHash_eq]
    exact ⟨_, AList.lookup_insert _, by decide, 0, by decide, by decide⟩
  · exact recordPrevHash_of_append (a := List.replicate 6 0 ++ [1, 0, 0, 0]) rfl rfl

/-- The fork of depth one is not reorganised. -/
theorem dataBlocksRevert_fork_kept :
    ForkAt sampleEnv forkNode genesisHash 0 0 1 (fun _ => childRecord) ∧
      ∀ u common newLatest, ¬ ∃ fuel done dbs',
        dataBlocksRevert sampleEnv u fuel forkNode common newLatest = .ok (done, dbs') ∧
          Reverted sampleEnv forkNode dbs' 0 0 1 fun _ => childRecord :=
  ⟨forkNode_forkAt, dataBlocksRevert_never_reverts _ _ _ _ _ _ _ forkNode_forkAt⟩

/-- It is not true that a call that is due ends with the chain switched. -/
theorem dataBlocksRevert_fork_not_reverted :
    ¬ ∀ (env : Env .passed) (dbs : Dbs) (c : Bytes) (hc H k : ℕ) (n : ℕ → Bytes),
      ForkAt env dbs c hc H k n → ∀ (u : RevertMem) (common newLatest : Mem),
        common.slice 0 32 = c → newLatest.slice 0 32 = recordHash env (n k) →
        ∃ fuel done dbs', dataBlocksRevert env u fuel dbs common newLatest = .ok (done, dbs') ∧
          Reverted env dbs dbs' hc H k n := by
  intro hall
  obtain ⟨fuel, done, dbs', hrun, hpost⟩ := hall _ _ _ _ _ _ _ forkNode_forkAt .zero
    (Mem.ofBytes genesisHash) (Mem.ofBytes childHash) (slice_ofBytes rfl)
    ((slice_ofBytes rfl).trans childHash_eq.symm)
  exact forkNode_forkAt.not_reverted (dataBlocksRevert_chainGet hrun) hpost

end Freecoin
