import Freecoin.Data.Revert
import Freecoin.Data.View

/-!
# The mempool across a reorganisation

The transactions of the disconnected blocks are to join the mempool, coinbase
transactions apart, and those of the connected blocks are to leave it. Both
calls involved are broken. `data_mempool_add` takes every transaction,
coinbase or not, and makes its entry of memory that was never written.
`data_mempool_del` compares the hash with the entry itself instead of the
hash the entry points at, so it finds nothing.

The mempool is conserved if neither call has anything to do, and only then
unless unwritten memory happens to hold the right transactions. The blocks
that the two loops come across are read from the databases as they were before
the call: `oldBranch` and `newBranch` walk them without touching anything, and
`oldBlocks_mempool` and `newBlocks_mempool` show that the loops see the same.
-/

namespace Freecoin

open Lib Relation

variable (env : Env .passed)

/-- The mempool holds the entries `l`, each once and each with its own bytes. -/
structure Pool (H : Digest) (p : Mempool) (l : List MTx) : Prop extends Slots p l where
  own : ∀ e ∈ l, e.hash = H e.data
  once : (l.map MTx.data).Nodup

/-- `in_count` of a transaction; a coinbase transaction has none. -/
def txInCount (o : ByteOrder) (tx : Mem) : ℕ := (btous o (tx.shift posTxInCount)).toNat

/-- The mempool `p'` holds the transactions of `l` and the non-coinbase ones among
`disconnected`, without those among `connected`. -/
def Conserved (l : List MTx) (disconnected connected : List Mem) (p' : Mempool) : Prop :=
  ∃ l', Pool env.digest p' l' ∧ ∀ d, d ∈ l'.map MTx.data ↔
    (d ∈ l.map MTx.data ∨
      ∃ tx ∈ disconnected, 0 < txInCount env.host tx ∧ txBytes env.host tx = d) ∧
    ∀ tx ∈ connected, txBytes env.host tx ≠ d

/-! ## The two branches -/

/-- The block buffers of the first loop, `n` of them, with the two buffers after it. -/
def oldBranch (dbs : Dbs) (common : ℕ) : ℕ → Mem → Mem → List Mem × Mem × Mem
  | 0, block, hash => ([], block, hash)
  | n + 1, block, hash =>
      let hash := (dataChainGet env dbs (UInt32.ofNat (common + (n + 1))) hash).2
      let block := (dataBlocksGet .passed dbs hash block).2
      let rest := oldBranch dbs common n block hash
      (block :: rest.1, rest.2)

/-- The block buffers of the second loop, until the common height is met. -/
def newBranch (dbs : Dbs) (common : UInt32) : ℕ → Mem → Mem → List Mem
  | 0, _, _ => []
  | fuel + 1, block, hash =>
      let block := (dataBlocksGet .passed dbs hash block).2
      if blockGetHeight env.host block = common then []
      else block :: newBranch dbs common fuel block (hash.write 0 (blockGetPrevHash block))

/-- The height of the common block. -/
def commonHeight (u : RevertMem) (dbs : Dbs) (common : Mem) : UInt32 :=
  blockGetHeight env.host (dataBlocksGetHeader .passed dbs common u.commonBlock).2

/-- The first loop of a call. -/
def disconnect (u : RevertMem) (dbs : Dbs) (common : Mem) : List Mem × Mem × Mem :=
  oldBranch env dbs (commonHeight env u dbs common).toNat
    ((dataChainGetHeight env u.height dbs).toNat - (commonHeight env u dbs common).toNat)
    u.currBlock u.currBlockHash

/-- The transactions of the disconnected blocks. -/
def disconnectedTxs (u : RevertMem) (dbs : Dbs) (common : Mem) : List Mem :=
  (disconnect env u dbs common).1.flatMap (blockTxs env.host)

/-- The transactions of the connected blocks. -/
def connectedTxs (u : RevertMem) (fuel : ℕ) (dbs : Dbs) (common newLatest : Mem) : List Mem :=
  (newBranch env dbs (commonHeight env u dbs common) fuel (disconnect env u dbs common).2.1
    ((disconnect env u dbs common).2.2.write 0 (newLatest.slice 0 sizeSha256))).flatMap
      (blockTxs env.host)

/-- Neither call has anything to do: what is disconnected is found in the mempool
already, and nothing in the mempool is connected or looks like it. -/
structure NothingToMove (l : List MTx) (disconnected connected : List Mem) : Prop where
  known : ∀ tx ∈ disconnected, txComputeHash env.host env.digest tx ∈ l.map MTx.hash
  kept : ∀ tx ∈ disconnected, 0 < txInCount env.host tx →
    txBytes env.host tx ∈ l.map MTx.data ∨
      ∃ tx' ∈ connected, txBytes env.host tx' = txBytes env.host tx
  absent : ∀ tx ∈ connected, txBytes env.host tx ∉ l.map MTx.data
  unlike : ∀ tx ∈ connected, ∀ e ∈ l, e.raw ≠ txComputeHash env.host env.digest tx

/-- The memory holds no answers: no entry looks like a connected transaction, and
what a new entry is made of does not start with a transaction that the
mempool should hold. -/
structure Unlucky (u : RevertMem) (l : List MTx) (disconnected connected : List Mem) : Prop where
  entry : ∀ tx ∈ connected, ∀ e ∈ l, e.raw ≠ txComputeHash env.host env.digest tx
  raw : ∀ tx ∈ connected, ∀ a b, (u.entry a b).raw ≠ txComputeHash env.host env.digest tx
  data : ∀ a b n, (u.entry a b).data.slice 0 n ∉
    l.map MTx.data ++ disconnected.map (txBytes env.host)

theorem NothingToMove.conserved {l : List MTx} {old new : List Mem} {p : Mempool}
    (h : NothingToMove env l old new) (hp : Pool env.digest p l) : Conserved env l old new p := by
  refine ⟨l, hp, ?_⟩
  intro d
  constructor
  · intro hd
    refine ⟨.inl hd, ?_⟩
    rintro tx htx rfl
    exact h.absent tx htx hd
  · rintro ⟨hd | ⟨tx, htx, hin, rfl⟩, hnew⟩
    · exact hd
    · rcases h.kept tx htx hin with hd | ⟨tx', htx', heq⟩
      · exact hd
      · exact absurd heq (hnew tx' htx')

/-! ## The two mempool calls -/

variable {env}

/-- A hash that no entry looks like deletes nothing. -/
theorem Slots.del_unlike {p p' : Mempool} {l : List MTx} (hp : Slots p l) {hash : Bytes}
    (hunlike : ∀ e ∈ l, e.raw ≠ hash) {tx : Option MTx}
    (h : dataMempoolDel p hash = .ok (tx, p')) : p' = p := by
  obtain ⟨r, hr, hiff⟩ := hp.find MTx.raw hash
  have hnone : r = none := by
    rw [← Option.not_isSome_iff_eq_none, hiff]
    intro hmem
    obtain ⟨e, he, hraw⟩ := List.mem_map.mp hmem
    exact hunlike e he hraw
  subst hnone
  rw [dataMempoolDel, hr] at h
  cases h
  rfl

/-! ## The two loops -/

variable {u : RevertMem} {l : List MTx}

/-- The entry is made of memory that was never written. -/
def Unwritten (u : RevertMem) (e : MTx) : Prop :=
  ∃ a b n, e.raw = (u.entry a b).raw ∧ e.data = (u.entry a b).data.slice 0 n

/-- What the first loop makes of the entries `l` when it comes across the
transactions `txs`: it adds entries of unwritten memory, and none just when all the
transactions are known. -/
def Grows (env : Env .passed) (u : RevertMem) (l : List MTx) (txs : List Mem) (p : Mempool) :
    Prop :=
  ∃ new, Slots p (l ++ new) ∧ (∀ e ∈ new, Unwritten u e) ∧
    (new = [] ↔ ∀ tx ∈ txs, txComputeHash env.host env.digest tx ∈ l.map MTx.hash)

theorem Grows.step {a j : ℕ} {seen : List Mem} {tx : Mem} {p p' : Mempool}
    (hp : Grows env u l seen p)
    (h : dataMempoolAdd env.host env.digest (u.entry a j) p tx = .ok p') :
    Grows env u l (seen ++ [tx]) p' := by
  obtain ⟨new, hslots, hnew, hiff⟩ := hp
  rcases hslots.add h with ⟨hknown, rfl⟩ | ⟨hunknown, hadded⟩
  · refine ⟨new, hslots, hnew, ?_⟩
    rw [List.forall_mem_append, ← hiff]
    constructor
    · rintro rfl
      refine ⟨rfl, ?_⟩
      simpa using hknown
    · exact And.left
  · refine ⟨new ++ [mempoolEntry env.host env.digest (u.entry a j) tx],
      List.append_assoc l _ _ ▸ hadded, ?_, ?_⟩
    · rw [List.forall_mem_append]
      refine ⟨hnew, ?_⟩
      rintro e he
      obtain rfl := List.mem_singleton.mp he
      exact ⟨a, j, _, rfl, rfl⟩
    · refine iff_of_false (by simp) ?_
      intro hall
      refine hunknown ?_
      rw [List.map_append]
      exact List.mem_append_left _ (hall tx (by simp))

theorem oldTxs_grows {a : ℕ} {txs : List Mem} :
    ∀ {j : ℕ} {seen : List Mem} {s s' : Dbs}, oldTxs env (u.entry a) txs j s = .ok s' →
      Grows env u l seen s.mempool → Grows env u l (seen ++ txs) s'.mempool := by
  induction txs with
  | nil =>
      intro j seen s s' h hp
      cases h
      rwa [List.append_nil]
  | cons tx rest ih =>
      intro j seen s s' h hp
      obtain ⟨p, hadd, hrest⟩ := ok_of_bind h
      have hlast := ih hrest (hp.step hadd)
      rwa [List.append_assoc] at hlast

theorem newTxs_mempool {blockHash : Bytes} {txs : List Mem} :
    ∀ {s s' : Dbs}, newTxs env blockHash txs s = .ok s' → Slots s.mempool l →
      (∀ tx ∈ txs, ∀ e ∈ l, e.raw ≠ txComputeHash env.host env.digest tx) →
      s'.mempool = s.mempool := by
  induction txs with
  | nil =>
      intro s s' h _ _
      cases h
      rfl
  | cons tx rest ih =>
      intro s s' h hp hunlike
      obtain ⟨⟨r, p⟩, hdel, hrest⟩ := ok_of_bind h
      have hsame : p = s.mempool := hp.del_unlike (hunlike tx (List.mem_cons_self ..)) hdel
      subst hsame
      have hlast := ih hrest hp fun tx' h' => hunlike tx' (List.mem_cons_of_mem _ h')
      exact hlast

/-- What the loops leave alone: what the branches are read from. -/
structure SameReads (env : Env .passed) (s dbs : Dbs) : Prop where
  blocks : s.blocks = dbs.blocks
  chain : dataChainGet env s = dataChainGet env dbs

theorem SameReads.refl (dbs : Dbs) : SameReads env dbs dbs := ⟨rfl, rfl⟩

theorem SameReads.get {s dbs : Dbs} (h : SameReads env s dbs) (hash block : Mem) :
    dataBlocksGet .passed s hash block = dataBlocksGet .passed dbs hash block := by
  rw [dataBlocksGet, dataBlocksGet, h.blocks]

theorem SameReads.edits {s s' dbs : Dbs} {blocks : Db} (h : SameReads env s dbs)
    (hedits : ReflTransGen (RevertEdit env u blocks) s s') : SameReads env s' dbs :=
  ⟨(edits_blocks_eq hedits).trans h.blocks,
    (run_frame (fun _ _ hedit => hedit.chainGet_eq) hedits).trans h.chain⟩

/-- Putting a block on the chain leaves the reads alone. -/
theorem SameReads.filed {s dbs : Dbs} (h : SameReads env s dbs) (header buffer block : Mem) :
    SameReads env (dataChainSafeSet env header (dataLimboDel env buffer s block) block) dbs := by
  obtain ⟨chain, hset⟩ := dataChainSafeSet_frame env header (dataLimboDel env buffer s block) block
  refine ⟨?_, ?_⟩
  · exact (congrArg Dbs.blocks hset).trans h.blocks
  · exact (dataChainGet_frozen env _ _ _).trans h.chain

/-- The first loop walks `oldBranch`, and grows the mempool by its transactions. -/
theorem oldBlocks_mempool (dbs : Dbs) {common n : ℕ} :
    ∀ {seen : List Mem} {s s' : RevertState}, oldBlocks env u common n s = .ok (true, s') →
      SameReads env s.dbs dbs → BlockBuffer u dbs.blocks s.currBlock →
      Grows env u l seen s.dbs.mempool →
      Grows env u l (seen ++ (oldBranch env dbs common n s.currBlock s.currBlockHash).1.flatMap
        (blockTxs env.host)) s'.dbs.mempool ∧ SameReads env s'.dbs dbs ∧
        (s'.currBlock, s'.currBlockHash) =
          (oldBranch env dbs common n s.currBlock s.currBlockHash).2 := by
  induction n with
  | zero =>
      intro seen s s' h hreads _ hp
      cases h
      exact ⟨(List.append_nil seen).symm ▸ hp, hreads, rfl⟩
  | succ n ih =>
      intro seen s s' h hreads hbuf hp
      rw [oldBlocks, hreads.chain, hreads.get] at h
      rw [oldBranch]
      have hbuf' := hbuf.get dbs
        (dataChainGet env dbs (UInt32.ofNat (common + (n + 1))) s.currBlockHash).2
      generalize (dataChainGet env dbs (UInt32.ofNat (common + (n + 1))) s.currBlockHash).2 = hash
        at h hbuf' ⊢
      generalize dataBlocksGet .passed dbs hash s.currBlock = got at h hbuf' ⊢
      rw [List.flatMap_cons, ← List.append_assoc]
      split at h
      · obtain ⟨mid, htxs, hrest⟩ := ok_of_bind h
        have hreads' := (hreads.edits (oldTxs_edits dbs.blocks htxs)).edits
          (.single (.limboAdd (common + (n + 1)) hbuf'))
        have hgrows := oldTxs_grows htxs hp
        exact ih hrest hreads' hbuf' hgrows
      · cases h

/-- The second loop walks `newBranch`, and leaves the mempool alone when no entry
looks like a transaction of it. -/
theorem newBlocks_mempool {dbs : Dbs} {common : UInt32} {fuel : ℕ} :
    ∀ {k : ℕ} {s s' : RevertState}, newBlocks env u common fuel k s = .ok s' →
      SameReads env s.dbs dbs → BlockBuffer u dbs.blocks s.currBlock → Slots s.dbs.mempool l →
      (∀ tx ∈ (newBranch env dbs common fuel s.currBlock s.currBlockHash).flatMap
        (blockTxs env.host), ∀ e ∈ l, e.raw ≠ txComputeHash env.host env.digest tx) →
      s'.dbs.mempool = s.dbs.mempool := by
  induction fuel with
  | zero =>
      intro k s s' h
      cases h
  | succ fuel ih =>
      intro k s s' h hreads hbuf hp hunlike
      rw [newBlocks, hreads.get] at h
      rw [newBranch] at hunlike
      have hbuf' := hbuf.get dbs s.currBlockHash
      generalize (dataBlocksGet .passed dbs s.currBlockHash s.currBlock).2 = block
        at h hunlike hbuf'
      by_cases hheight : blockGetHeight env.host block = common
      · rw [if_pos hheight] at h
        cases h
        rfl
      · rw [if_neg hheight] at h hunlike
        simp only [List.flatMap_cons, List.mem_append] at hunlike
        obtain ⟨mid, htxs, hrest⟩ := ok_of_bind h
        have hpool : mid.mempool = s.dbs.mempool :=
          newTxs_mempool htxs hp fun tx htx => hunlike tx (.inl htx)
        have hreads' := ((hreads.edits (newTxs_edits hbuf' (Mem.slice_length ..)
          (fun tx htx => htx) htxs)).edits (.single (.limboDel k hbuf'))).edits
          (.single (.chainSafeSet k hbuf'))
        have hset : (dataChainSafeSet env (u.chainHeader k)
            (dataLimboDel env (u.limboDel k) mid block) block).mempool = mid.mempool := by
          obtain ⟨chain, hchain⟩ := dataChainSafeSet_frame env (u.chainHeader k)
            (dataLimboDel env (u.limboDel k) mid block) block
          rw [hchain]
          rfl
        have hloop := ih hrest hreads' hbuf' (hset.trans hpool ▸ hp)
          fun tx htx => hunlike tx (.inr htx)
        exact hloop.trans (hset.trans hpool)

/-- A call grows the mempool by the disconnected transactions, and that is all as
long as no entry looks like a connected one. -/
theorem dataBlocksRevert_mempool {fuel : ℕ} {dbs dbs' : Dbs} {common newLatest : Mem}
    (h : dataBlocksRevert env u fuel dbs common newLatest = .ok (true, dbs'))
    (hp : Slots dbs.mempool l) :
    ∃ p, Grows env u l (disconnectedTxs env u dbs common) p ∧
      ∀ l', Slots p l' → (∀ tx ∈ connectedTxs env u fuel dbs common newLatest, ∀ e ∈ l',
        e.raw ≠ txComputeHash env.host env.digest tx) → dbs'.mempool = p := by
  rw [dataBlocksRevert] at h
  split at h
  · obtain ⟨⟨found, old⟩, hloop, hrest⟩ := ok_of_bind h
    cases found with
    | false => cases hrest
    | true =>
        have hstart : Grows env u l [] dbs.mempool :=
          ⟨[], by rwa [List.append_nil], by simp, by simp⟩
        obtain ⟨hgrows, hreads, hbuffers⟩ := oldBlocks_mempool dbs hloop ⟨rfl, rfl⟩
          .uninit hstart
        refine ⟨old.dbs.mempool, hgrows, ?_⟩
        intro l' hslots hunlike
        obtain ⟨last, hlast, hret⟩ := ok_of_bind hrest
        cases hret
        have hbuf := (oldBlocks_edits hloop rfl .uninit).2
        obtain ⟨hblock, hhash⟩ := Prod.mk.inj hbuffers
        rw [hhash] at hlast
        have hloop' := newBlocks_mempool (l := l') hlast hreads hbuf hslots (by
          dsimp only
          rw [hblock]
          exact hunlike)
        exact hloop'
  · cases h

theorem NothingToMove.mempool_eq {fuel : ℕ} {dbs dbs' : Dbs} {common newLatest : Mem}
    (hquiet : NothingToMove env l (disconnectedTxs env u dbs common)
      (connectedTxs env u fuel dbs common newLatest))
    (h : dataBlocksRevert env u fuel dbs common newLatest = .ok (true, dbs'))
    (hp : Pool env.digest dbs.mempool l) : Pool env.digest dbs'.mempool l := by
  obtain ⟨p, ⟨new, hslots, -, hiff⟩, hrest⟩ := dataBlocksRevert_mempool h hp.toSlots
  have hnone : new = [] := hiff.mpr hquiet.known
  subst hnone
  rw [List.append_nil] at hslots
  rw [hrest l hslots hquiet.unlike]
  exact ⟨hslots, hp.own, hp.once⟩

/-- When the memory holds no answers, only a call with nothing to move conserves
the mempool: an entry of unwritten memory would not belong there, and what the
second loop should delete stays. -/
theorem Unlucky.nothingToMove {fuel : ℕ} {dbs dbs' : Dbs} {common newLatest : Mem}
    (hunlucky : Unlucky env u l (disconnectedTxs env u dbs common)
      (connectedTxs env u fuel dbs common newLatest))
    (h : dataBlocksRevert env u fuel dbs common newLatest = .ok (true, dbs'))
    (hp : Pool env.digest dbs.mempool l)
    (hcons : Conserved env l (disconnectedTxs env u dbs common)
      (connectedTxs env u fuel dbs common newLatest) dbs'.mempool) :
    NothingToMove env l (disconnectedTxs env u dbs common)
      (connectedTxs env u fuel dbs common newLatest) := by
  obtain ⟨p, ⟨new, hslots, hnew, hiff⟩, hrest⟩ := dataBlocksRevert_mempool h hp.toSlots
  have hsame : dbs'.mempool = p := by
    refine hrest _ hslots ?_
    intro tx htx e he
    rcases List.mem_append.mp he with he | he
    · exact hunlucky.entry tx htx e he
    · obtain ⟨a, b, n, hraw, -⟩ := hnew e he
      rw [hraw]
      exact hunlucky.raw tx htx a b
  obtain ⟨l', hp', hdata⟩ := hcons
  rw [hsame] at hp'
  have hl' : l ++ new = l' := hslots.unique hp'.toSlots
  subst hl'
  have hnone : new = [] := by
    refine List.eq_nil_iff_forall_not_mem.mpr ?_
    intro e he
    obtain ⟨a, b, n, -, hslice⟩ := hnew e he
    refine hunlucky.data a b n ?_
    rw [← hslice, List.mem_append]
    have hmem := (hdata e.data).mp (List.mem_map_of_mem (List.mem_append_right _ he))
    rcases hmem.1 with hold | ⟨tx, htx, -, heq⟩
    · exact .inl hold
    · exact .inr (heq ▸ List.mem_map_of_mem htx)
  rw [hnone, List.append_nil] at hdata
  refine ⟨hiff.mp hnone, ?_, ?_, hunlucky.entry⟩
  · intro tx htx hin
    by_contra hlost
    rw [not_or] at hlost
    refine hlost.1 ((hdata _).mpr ⟨.inr ⟨tx, htx, hin, rfl⟩, ?_⟩)
    intro tx' htx' heq
    exact hlost.2 ⟨tx', htx', heq⟩
  · intro tx htx hmem
    exact ((hdata _).mp hmem).2 tx htx rfl

/-- **Conservation.** A reorganisation that has nothing to move conserves the
mempool, and unless the memory it is given holds the answers it conserves it only
then. -/
theorem mempool_conserved (env : Env .passed) (u : RevertMem) (fuel : ℕ) (dbs dbs' : Dbs)
    (common newLatest : Mem) (l : List MTx)
    (hrun : dataBlocksRevert env u fuel dbs common newLatest = .ok (true, dbs'))
    (hp : Pool env.digest dbs.mempool l) :
    (NothingToMove env l (disconnectedTxs env u dbs common)
        (connectedTxs env u fuel dbs common newLatest) →
      Conserved env l (disconnectedTxs env u dbs common)
        (connectedTxs env u fuel dbs common newLatest) dbs'.mempool) ∧
    (Unlucky env u l (disconnectedTxs env u dbs common)
        (connectedTxs env u fuel dbs common newLatest) →
      Conserved env l (disconnectedTxs env u dbs common)
        (connectedTxs env u fuel dbs common newLatest) dbs'.mempool →
      NothingToMove env l (disconnectedTxs env u dbs common)
        (connectedTxs env u fuel dbs common newLatest)) := by
  constructor
  · intro hquiet
    exact hquiet.conserved env (hquiet.mempool_eq hrun hp)
  · intro hunlucky hcons
    exact hunlucky.nothingToMove hrun hp hcons

/-! ## A fork of depth one -/

/-- An entry with its own bytes. -/
def poolEntry (data : Bytes) : MTx :=
  ⟨sha256 data, data, data.length, data.length, List.replicate 32 0xff⟩

/-- `forkNode` with the transaction `data` in its mempool. -/
def poolNode (data : Bytes) : Dbs :=
  { forkNode with mempool := ⟨Function.update (fun _ => none) 0 (some (poolEntry data)), 1⟩ }

theorem poolNode_pool (data : Bytes) :
    Pool sampleEnv.digest (poolNode data).mempool [poolEntry data] where
  count := rfl
  slot := by
    intro i hi
    obtain rfl := Nat.lt_one_iff.mp hi
    rfl
  own := by
    intro e he
    obtain rfl := List.mem_singleton.mp he
    rfl
  once := List.nodup_singleton _

/-- Zeros, but for the memory of new entries. -/
def poolMem : RevertMem :=
  { RevertMem.zero with entry := fun _ _ => ⟨fun _ => 1, List.replicate 32 0xff⟩ }

/-- The child of `genesis` becomes the latest block. -/
def revertPool (data : Bytes) : Except Fault (Bool × Dbs) :=
  dataBlocksRevert sampleEnv poolMem 2 (poolNode data) (Mem.ofBytes genesisHash)
    (Mem.ofBytes childHash)

/-- The transaction of the child. -/
def zeroTx : Bytes := List.replicate 10 0

/-- Another transaction. -/
def oneTx : Bytes := List.replicate 9 0 ++ [1]

def poolDisconnected (data : Bytes) : List Mem :=
  disconnectedTxs sampleEnv poolMem (poolNode data) (Mem.ofBytes genesisHash)

def poolConnected (data : Bytes) : List Mem :=
  connectedTxs sampleEnv poolMem 2 (poolNode data) (Mem.ofBytes genesisHash) (Mem.ofBytes childHash)

theorem zeroTx_unlike : List.replicate 32 0xff ≠ sha256 zeroTx := by decide +kernel

/-- The child replaces nothing and brings `zeroTx`. -/
theorem revertPool_moves : ∀ data ∈ [zeroTx, oneTx],
    (revertPool data).toOption.map Prod.fst = some true ∧
      (poolDisconnected data).map (txBytes .little) = [] ∧
      (poolConnected data).map (txBytes .little) = [zeroTx] := by
  decide +kernel

theorem revertPool_ok {data : Bytes} (h : data ∈ [zeroTx, oneTx]) :
    ∃ dbs', revertPool data = .ok (true, dbs') := by
  have hdone := (revertPool_moves data h).1
  cases hrun : revertPool data with
  | error e => rw [hrun] at hdone; cases hdone
  | ok r =>
      rw [hrun] at hdone
      have htrue : r.1 = true := Option.some_inj.mp hdone
      exact ⟨r.2, by rw [← htrue]⟩

theorem poolDisconnected_eq {data : Bytes} (h : data ∈ [zeroTx, oneTx]) :
    poolDisconnected data = [] :=
  List.map_eq_nil_iff.mp (revertPool_moves data h).2.1

theorem poolConnected_bytes {data : Bytes} (h : data ∈ [zeroTx, oneTx]) {tx : Mem}
    (htx : tx ∈ poolConnected data) : txBytes .little tx = zeroTx := by
  have hmem := List.mem_map_of_mem (f := txBytes .little) htx
  rw [(revertPool_moves data h).2.2] at hmem
  exact List.mem_singleton.mp hmem

theorem poolConnected_unlike {data : Bytes} (h : data ∈ [zeroTx, oneTx]) {tx : Mem}
    (htx : tx ∈ poolConnected data) :
    List.replicate 32 0xff ≠ txComputeHash sampleEnv.host sampleEnv.digest tx := by
  have hhash : txComputeHash sampleEnv.host sampleEnv.digest tx = sha256 zeroTx :=
    congrArg sha256 (poolConnected_bytes h htx)
  rw [hhash]
  exact zeroTx_unlike

/-- The mempool keeps a transaction that the child does not contain. -/
theorem mempool_conserved_oneTx :
    ∃ dbs', revertPool oneTx = .ok (true, dbs') ∧
      Conserved sampleEnv [poolEntry oneTx] (poolDisconnected oneTx) (poolConnected oneTx)
        dbs'.mempool := by
  have hone : oneTx ∈ [zeroTx, oneTx] := by decide
  have hnone : ∀ tx, tx ∉ poolDisconnected oneTx := by simp [poolDisconnected_eq hone]
  obtain ⟨dbs', hrun⟩ := revertPool_ok hone
  refine ⟨dbs', hrun, ?_⟩
  refine (mempool_conserved sampleEnv poolMem 2 (poolNode oneTx) dbs' _ _ [poolEntry oneTx] hrun
    (poolNode_pool oneTx)).1 ⟨?_, ?_, ?_, ?_⟩
  · intro tx htx
    exact absurd htx (hnone tx)
  · intro tx htx
    exact absurd htx (hnone tx)
  · intro tx htx hmem
    have hzero : zeroTx ∈ [oneTx] := poolConnected_bytes hone htx ▸ hmem
    exact absurd hzero (by decide)
  · intro tx htx e he
    obtain rfl := List.mem_singleton.mp he
    exact poolConnected_unlike hone htx

/-- The mempool keeps the transaction that the child confirms. -/
theorem mempool_not_conserved_zeroTx :
    ¬ ∀ (env : Env .passed) (u : RevertMem) (fuel : ℕ) (dbs dbs' : Dbs) (common newLatest : Mem)
      (l : List MTx), dataBlocksRevert env u fuel dbs common newLatest = .ok (true, dbs') →
      Pool env.digest dbs.mempool l →
      Conserved env l (disconnectedTxs env u dbs common)
        (connectedTxs env u fuel dbs common newLatest) dbs'.mempool := by
  intro hall
  have hzero : zeroTx ∈ [zeroTx, oneTx] := by decide
  obtain ⟨dbs', hrun⟩ := revertPool_ok hzero
  have hcons := hall _ _ _ _ _ _ _ _ hrun (poolNode_pool zeroTx)
  have hunlucky : Unlucky sampleEnv poolMem [poolEntry zeroTx] (poolDisconnected zeroTx)
      (poolConnected zeroTx) := by
    refine ⟨?_, ?_, ?_⟩
    · intro tx htx e he
      obtain rfl := List.mem_singleton.mp he
      exact poolConnected_unlike hzero htx
    · intro tx htx a b
      exact poolConnected_unlike hzero htx
    · intro a b n hmem
      rw [poolDisconnected_eq hzero] at hmem
      have hslice : Mem.slice (fun _ => 1) 0 n = zeroTx := List.mem_singleton.mp hmem
      have hlen : n = 10 := by simpa [zeroTx] using congrArg List.length hslice
      subst hlen
      exact absurd hslice (by decide)
  have hquiet := hunlucky.nothingToMove hrun (poolNode_pool zeroTx) hcons
  have hne : poolConnected zeroTx ≠ [] := by
    intro hnil
    have hmoves := (revertPool_moves zeroTx hzero).2.2
    rw [hnil] at hmoves
    cases hmoves
  obtain ⟨tx, htx⟩ := List.exists_mem_of_ne_nil _ hne
  refine hquiet.absent tx htx ?_
  have hbytes : txBytes sampleEnv.host tx = zeroTx := poolConnected_bytes hzero htx
  rw [hbytes]
  exact List.mem_singleton_self _

end Freecoin
