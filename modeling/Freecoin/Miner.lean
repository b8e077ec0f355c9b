import Freecoin.Data.Mempool
import Freecoin.Lib.Run
import Freecoin.Merkle
import Freecoin.Mine

/-!
# mine.c: the loops of `main`

For every block the miner writes a header (`block_set_header` is read as
`block_add_header`), adds the coinbase transaction, and then goes round: it
takes over what is new in the mempool, sets the time and mines for a while.

How many transactions are new is worked out from the decoded count field, but
they are taken from index 0 on, and `block_add_tx` puts each of them where
`block_compute_size` ends, which knows nothing of the count. The Merkle root
of the header is set to zero and never updated.
-/

namespace Freecoin

open Lib

/-- What `main` has at hand when it starts a block. `m_tx_gen` is handed the address
of the pointer `coinbase_output`, and `outs` is what lies there; `dest` and `raw`
are the memory of the new transaction. -/
structure NewBlock : Type where
  version : UInt16
  time : UInt32
  height : UInt32
  prevHash : Mem
  target : UInt8
  gccVersion : UInt16
  outs : Mem
  dest : Mem
  raw : Bytes

/-- The header of a new block. -/
def NewBlock.header (b : NewBlock) (workblock : Mem) : Mem :=
  blockAddHeader b.version b.time b.height b.prevHash b.target workblock

/-- What `m_tx_gen` returns, given the memory of `tx.data` and its size. -/
def NewBlock.mTx (o : ByteOrder) (H : Digest) (b : NewBlock) (tx : Mem × ℕ) : MTx where
  hash := txComputeHash o H tx.1
  data := tx.1.slice 0 tx.2
  size := tx.2
  max := tx.2
  raw := b.raw

/-- A new workblock: header and coinbase transaction. -/
def startBlock (o : ByteOrder) (H : Digest) (addr : UInt8) (b : NewBlock) (workblock : Mem) :
    Except Fault Mem := do
  let tx ← mTxGen b.gccVersion 0 1 0 (fun _ => 0) b.outs b.dest
  blockAddTx o addr (b.header workblock) (some (b.mTx o H tx))

/-- How often the loop `for (int i=0; i<diff; i++)` runs: `diff` is computed in `uint`
and stored in an `int`. -/
def newTxCount (o : ByteOrder) (mempool : Mempool) (workblock : Mem) : ℕ :=
  let diff := UInt32.ofNat (dataMempoolGetSize mempool) -
    (btoui o (workblock.shift posBlockTxCount) - 1)
  diff.toInt32.toInt.toNat

/-- That loop, `n` passes from index `i` on. -/
def addMempoolTxs (o : ByteOrder) (addr : UInt8) (mempool : Mempool) :
    ℕ → ℕ → Mem → Except Fault Mem
  | 0, _, workblock => .ok workblock
  | n + 1, i, workblock => do
      let added ← blockAddTx o addr workblock (dataMempoolGet mempool i)
      addMempoolTxs o addr mempool n (i + 1) added

/-- The workblock after the check for new mempool transactions. -/
def refresh (o : ByteOrder) (addr : UInt8) (mempool : Mempool) (workblock : Mem) :
    Except Fault Mem :=
  addMempoolTxs o addr mempool (newTxCount o mempool workblock) 0 workblock

/-- A pass of the inner loop: the mempool it finds, the time it sets, and how often
`mine` increments the nonce. -/
structure Pass : Type where
  mempool : Mempool
  time : UInt32
  nonces : ℕ

/-- The inner loop, until the workblock is stale: the workblock at its end, and as it
was handed to `mine` in every pass. -/
def minerLoop (o : ByteOrder) (addr : UInt8) : List Pass → Mem → Except Fault (Mem × List Mem)
  | [], workblock => .ok (workblock, [])
  | pass :: rest, workblock => do
      let refreshed ← refresh o addr pass.mempool workblock
      let entered := refreshed.write posBlockTime (uitob pass.time)
      let later ← minerLoop o addr rest (nthHeader o entered pass.nonces)
      return (later.1, entered :: later.2)

/-- The outer loop over new blocks, all in the same memory: every workblock that is
handed to `mine`. -/
def minerRun (o : ByteOrder) (H : Digest) (addr : UInt8) (blocks : List (NewBlock × List Pass))
    (workblock : Mem) : Except Fault (List Mem) :=
  collect (fun workblock block => do
    let started ← startBlock o H addr block.1 workblock
    minerLoop o addr block.2 started) blocks workblock

/-! ## What a pass leaves alone -/

theorem blockAddTx_cases {o : ByteOrder} {addr : UInt8} {block block' : Mem} {tx : Option MTx}
    (h : blockAddTx o addr block tx = .ok block') :
    ∃ t count, tx = some t ∧ blockComputeSize o addr block + t.size < maxBlockSize ∧
      block' = (block.write (blockComputeSize o addr block) t.bytes).write posBlockTxCount
        (uitob count) := by
  cases tx with
  | none => cases h
  | some t =>
      unfold blockAddTx at h
      dsimp only at h
      split at h
      · cases h
      · rename_i hfit
        cases h
        exact ⟨t, _, rfl, Nat.not_le.mp hfit, rfl⟩

/-- The header up to the count field. -/
theorem blockAddTx_frame {o : ByteOrder} {addr : UInt8} {block block' : Mem} {tx : Option MTx}
    (h : blockAddTx o addr block tx = .ok block') {i : ℕ} (hi : i < posBlockTxCount) :
    block' i = block i := by
  obtain ⟨t, count, -, -, rfl⟩ := blockAddTx_cases h
  have hle := header_le_blockComputeSize o addr block
  rw [Mem.write_before _ hi, Mem.write_before]
  simp only [posBlockTxCount, sizeBlockHeader] at hi hle
  omega

theorem addMempoolTxs_frame {o : ByteOrder} {addr : UInt8} {p : Mempool} {i : ℕ}
    (hi : i < posBlockTxCount) :
    ∀ {n k : ℕ} {w w' : Mem}, addMempoolTxs o addr p n k w = .ok w' → w' i = w i := by
  intro n
  induction n with
  | zero => intro k w w' h; cases h; rfl
  | succ n ih =>
      intro k w w' h
      obtain ⟨added, hadd, hrest⟩ := ok_of_bind h
      rw [ih hrest, blockAddTx_frame hadd hi]

/-! ## The Merkle root -/

/-- The `merkle_root` field is the root of the body and the count. -/
def CommitsToBody (o : ByteOrder) (H : Digest) (junk : ℕ → Hash) (block : Mem) : Prop :=
  block.slice posBlockMerkleRoot sizeSha256 =
    (computeMerkleRoot o H junk (block.shift posBlockBody) (blockGetTxCount o block)).1

/-- The field as `block_add_header` leaves it. -/
def RootZero (block : Mem) : Prop :=
  block.slice posBlockMerkleRoot sizeSha256 = List.replicate sizeSha256 0

/-- One call of `block_update_root` would be enough. -/
theorem commitsToBody_blockUpdateRoot (o : ByteOrder) (H : Digest) (junk : ℕ → Hash)
    (block : Mem) : CommitsToBody o H junk (blockUpdateRoot o H junk block) := by
  have hroot := (computeMerkleRoot o H junk (block.shift posBlockBody) (blockGetTxCount o block)).2
  have hbody : (blockUpdateRoot o H junk block).shift posBlockBody = block.shift posBlockBody :=
    Mem.shift_write (by rw [hroot]; simp)
  have hcount : blockGetTxCount o (blockUpdateRoot o H junk block) = blockGetTxCount o block :=
    congrArg (btoui o) (Mem.shift_write (by rw [hroot]; simp))
  rw [CommitsToBody, hbody, hcount]
  exact Mem.slice_write_of_length hroot

theorem RootZero.congr {w w' : Mem} (h : RootZero w)
    (hframe : ∀ i, posBlockMerkleRoot ≤ i → i < posBlockTarget → w' i = w i) : RootZero w' := by
  unfold RootZero at h ⊢
  rw [← h, Mem.slice_eq_iff]
  intro i hi
  refine hframe _ (Nat.le_add_right _ _) ?_
  simp only [posBlockMerkleRoot, posBlockTarget, sizeSha256] at hi ⊢
  omega

theorem rootZero_header (b : NewBlock) (w : Mem) : RootZero (b.header w) := by
  unfold RootZero NewBlock.header blockAddHeader
  iterate 3 rw [Mem.slice_write_disjoint (by simp)]
  exact Mem.slice_write_of_length (List.length_replicate ..)

theorem rootZero_startBlock {o : ByteOrder} {H : Digest} {addr : UInt8} {b : NewBlock} {w w' : Mem}
    (h : startBlock o H addr b w = .ok w') : RootZero w' := by
  obtain ⟨tx, -, hadd⟩ := ok_of_bind h
  refine (rootZero_header b w).congr fun i _ hi => blockAddTx_frame hadd (Nat.lt_trans hi ?_)
  decide

/-- Neither the refresh nor the time nor the nonce touches the root. -/
theorem rootZero_minerLoop {o : ByteOrder} {addr : UInt8} :
    ∀ {passes : List Pass} {w w' : Mem} {entered : List Mem},
      minerLoop o addr passes w = .ok (w', entered) → RootZero w → ∀ e ∈ entered, RootZero e := by
  intro passes
  induction passes with
  | nil =>
      intro w w' entered h _ e he
      cases h
      exact absurd he List.not_mem_nil
  | cons pass rest ih =>
      intro w w' entered h hw e he
      obtain ⟨refreshed, hrefresh, h⟩ := ok_of_bind h
      obtain ⟨later, hlater, h⟩ := ok_of_bind h
      cases h
      have hentered : RootZero (refreshed.write posBlockTime (uitob pass.time)) := by
        refine hw.congr fun i hlo hi => ?_
        rw [Mem.write_after (Nat.le_trans (by simp) hlo)]
        exact addMempoolTxs_frame (Nat.lt_trans hi (by decide)) hrefresh
      rcases List.mem_cons.mp he with rfl | he
      · exact hentered
      · refine ih hlater (hentered.congr fun i _ hi => ?_) e he
        exact nthHeader_frame o _ (.inl (Nat.lt_trans hi (by decide))) _

theorem rootZero_minerRun {o : ByteOrder} {H : Digest} {addr : UInt8}
    {blocks : List (NewBlock × List Pass)} {w : Mem} {entered : List Mem}
    (hrun : minerRun o H addr blocks w = .ok entered) : ∀ e ∈ entered, RootZero e := by
  refine collect_forall ?_ hrun
  intro w block w' out hblock
  obtain ⟨started, hstart, hloop⟩ := ok_of_bind hblock
  exact rootZero_minerLoop hloop (rootZero_startBlock hstart)

/-- **Mined headers.** Whatever the run of the miner's loops, every header that is
mined commits to its body if and only if every one of these bodies has the
Merkle root zero. -/
theorem mined_commits_iff (o : ByteOrder) (H : Digest) (junk : ℕ → Hash) (addr : UInt8)
    (blocks : List (NewBlock × List Pass)) (w : Mem) {entered : List Mem}
    (hrun : minerRun o H addr blocks w = .ok entered) :
    (∀ e ∈ entered, CommitsToBody o H junk e) ↔
      ∀ e ∈ entered, (computeMerkleRoot o H junk (e.shift posBlockBody) (blockGetTxCount o e)).1 =
        List.replicate sizeSha256 0 := by
  have hroot := rootZero_minerRun hrun
  constructor
  · intro hcommits e he
    exact (hcommits e he).symm.trans (hroot e he)
  · intro hzero e he
    exact (hroot e he).trans (hzero e he).symm

/-- A block in memory that is zero throughout. -/
def soloBlock : NewBlock := ⟨1, 0, 1, fun _ => 0, 0, 0, fun _ => 0, fun _ => 0, []⟩

/-- One pass over an empty mempool, on a big-endian host. The root of the body is not
zero. -/
theorem soloBlock_run : ∃ e rest,
    minerRun .big sha256 0 [(soloBlock, [⟨mempoolInit, 0, 0⟩])] (fun _ => 0) = .ok (e :: rest) ∧
    (computeMerkleRoot .big sha256 (fun _ => sha256.sum []) (e.shift posBlockBody)
      (blockGetTxCount .big e)).1 ≠ List.replicate sizeSha256 0 := by
  have hroots : (minerRun .big sha256 0 [(soloBlock, [⟨mempoolInit, 0, 0⟩])] fun _ => 0).map
      (fun entered => entered.map fun e => decide ((computeMerkleRoot .big sha256
        (fun _ => sha256.sum []) (e.shift posBlockBody) (blockGetTxCount .big e)).1 =
          List.replicate sizeSha256 0)) = .ok [false] := by
    decide +kernel
  obtain ⟨entered, hrun, hroot⟩ := ok_of_map hroots
  cases entered with
  | nil => cases hroot
  | cons e rest => exact ⟨e, rest, hrun, of_decide_eq_false (List.cons.inj hroot).1⟩

theorem mined_commits_soloBlock : ∃ entered,
    minerRun .big sha256 0 [(soloBlock, [⟨mempoolInit, 0, 0⟩])] (fun _ => 0) = .ok entered ∧
      ¬ ∀ e ∈ entered, CommitsToBody .big sha256 (fun _ => sha256.sum []) e := by
  obtain ⟨e, rest, hrun, hroot⟩ := soloBlock_run
  refine ⟨e :: rest, hrun, ?_⟩
  rw [mined_commits_iff .big sha256 (fun _ => sha256.sum []) 0 _ _ hrun]
  intro hzero
  exact hroot (hzero e (List.mem_cons_self ..))

/-- A header that does not commit to its body is mined. -/
theorem soloBlock_mined_without_root :
    ¬ ∀ (o : ByteOrder) (H : Digest) (junk : ℕ → Hash) (addr : UInt8)
      (blocks : List (NewBlock × List Pass)) (w : Mem) (entered : List Mem),
      minerRun o H addr blocks w = .ok entered → ∀ e ∈ entered, CommitsToBody o H junk e := by
  intro hall
  obtain ⟨e, rest, hrun, hroot⟩ := soloBlock_run
  have he : e ∈ e :: rest := List.mem_cons_self ..
  have hcommits := hall .big sha256 (fun _ => sha256.sum []) 0 _ _ _ hrun e he
  exact hroot (hcommits.symm.trans (rootZero_minerRun hrun e he))

/-! ## The body -/

/-- The coinbase transaction of a new block. -/
def NewBlock.coinbase (o : ByteOrder) (H : Digest) (b : NewBlock) : MTx :=
  b.mTx o H (rTxGen b.gccVersion 0 1 0 (fun _ => 0) b.outs b.dest, 46)

/-- A body: the coinbase transaction and then others, in order. -/
def bodyBytes (coinbase : MTx) (l : List MTx) : Bytes := coinbase.bytes ++ l.flatMap MTx.bytes

/-- The body of the workblock is the coinbase transaction followed by those of `l`. -/
structure HoldsMempool (coinbase : MTx) (l : List MTx) (w : Mem) : Prop where
  count : w.slice posBlockTxCount 4 = uitob (UInt32.ofNat (l.length + 1))
  body : w.slice posBlockBody (bodyBytes coinbase l).length = bodyBytes coinbase l

theorem startBlock_eq (o : ByteOrder) (H : Digest) (addr : UInt8) (b : NewBlock) (w : Mem) :
    startBlock o H addr b w = blockAddTx o addr (b.header w) (some (b.coinbase o H)) := rfl

theorem MTx.bytes_length (tx : MTx) : tx.bytes.length = tx.size := Mem.slice_length ..

theorem NewBlock.coinbase_length (o : ByteOrder) (H : Digest) (b : NewBlock) :
    (b.coinbase o H).bytes.length = 46 :=
  MTx.bytes_length _

theorem bodyBytes_nil (coinbase : MTx) : bodyBytes coinbase [] = coinbase.bytes :=
  List.append_nil _

/-- A workblock without other transactions. -/
theorem holdsMempool_nil_iff {o : ByteOrder} {H : Digest} {b : NewBlock} {w : Mem} :
    HoldsMempool (b.coinbase o H) [] w ↔ w.slice posBlockTxCount 4 = uitob 1 ∧
      w.slice posBlockBody 46 = (b.coinbase o H).bytes := by
  rw [← b.coinbase_length o H]
  constructor
  · rintro ⟨hcount, hbody⟩
    rw [bodyBytes_nil] at hbody
    exact ⟨hcount, hbody⟩
  · rintro ⟨hcount, hbody⟩
    exact ⟨hcount, by rw [bodyBytes_nil, hbody]⟩

/-- The counts of the coinbase transaction, where a host reads it. -/
theorem generatedTx_coinbase (o : ByteOrder) (H : Digest) (b : NewBlock) {m : Mem}
    (h : m.slice 0 46 = (b.coinbase o H).bytes) : GeneratedTx o 0 1 m 46 := by
  have hgen : GeneratedTx o 0 1 (rTxGen b.gccVersion 0 1 0 (fun _ => 0) b.outs b.dest) 46 :=
    generatedTx o (show mTxGen b.gccVersion 0 1 0 (fun _ => 0) b.outs b.dest = .ok _ from rfl)
  refine hgen.of_slice (h.trans ?_)
  exact Mem.slice_load _ (Mem.slice_length ..)

/-- Nothing before the count field matters. -/
theorem HoldsMempool.congr {coinbase : MTx} {l : List MTx} {w w' : Mem}
    (h : HoldsMempool coinbase l w) (hframe : ∀ i, posBlockTxCount ≤ i → w' i = w i) :
    HoldsMempool coinbase l w' := by
  constructor
  · rw [← h.count, Mem.slice_eq_iff]
    intro i _
    exact hframe _ (Nat.le_add_right _ _)
  · rw [← h.body, Mem.slice_length, Mem.slice_eq_iff]
    intro i _
    refine hframe _ ?_
    simp only [posBlockTxCount, posBlockBody, sizeBlockHeader]
    omega

/-- `block_add_tx` when there is room. -/
theorem blockAddTx_fits {o : ByteOrder} {addr : UInt8} {w : Mem} {tx : MTx}
    (hfit : blockComputeSize o addr w + tx.size < maxBlockSize) {x : UInt32}
    (hcount : w.slice posBlockTxCount 4 = uitob x) :
    blockAddTx o addr w (some tx) = .ok
      ((w.write (blockComputeSize o addr w) tx.bytes).write posBlockTxCount
        (uitob (ntohl o x + 1))) := by
  have hle := header_le_blockComputeSize o addr w
  have hslice : (w.write (blockComputeSize o addr w) tx.bytes).slice posBlockTxCount 4 =
      uitob x := by
    rw [Mem.slice_write_disjoint (.inl ?_), hcount]
    simp only [posBlockTxCount, sizeBlockHeader] at hle ⊢
    omega
  unfold blockAddTx
  dsimp only
  rw [if_neg (Nat.not_le.mpr hfit), btoui_uitob hslice]

/-! ### Starting a block -/

/-- The coinbase transaction gets to where the body starts: `block_compute_size` ends
there, or the memory holds it already and the copy that goes elsewhere fits. -/
def StartsWell (o : ByteOrder) (H : Digest) (addr : UInt8) (b : NewBlock) (w : Mem) : Prop :=
  addr = 0 ∨ (w.slice posBlockBody 46 = (b.coinbase o H).bytes ∧
    blockComputeSize o addr (b.header w) + 46 < maxBlockSize)

theorem header_count (b : NewBlock) (w : Mem) :
    (b.header w).slice posBlockTxCount 4 = uitob 0 :=
  Mem.slice_write_of_length rfl

/-- The header is written below the body. -/
theorem header_body (b : NewBlock) (w : Mem) (n : ℕ) :
    (b.header w).slice posBlockBody n = w.slice posBlockBody n := by
  unfold NewBlock.header blockAddHeader
  iterate 8 rw [Mem.slice_write_disjoint (.inr (by simp))]

/-- On either host the coinbase transaction reads as long as it is, or longer. -/
theorem coinbase_le_txGetSize (o : ByteOrder) (H : Digest) (b : NewBlock) {m : Mem}
    (h : m.slice 0 46 = (b.coinbase o H).bytes) : 46 ≤ txGetSize o m := by
  have hgen := generatedTx_coinbase o H b h
  unfold txGetSize
  rw [hgen.inCount_eq, hgen.outCount_eq]
  cases o <;> decide

theorem startBlock_holds {o : ByteOrder} {H : Digest} {addr : UInt8} {b : NewBlock} {w : Mem}
    (h : StartsWell o H addr b w) :
    ∃ w', startBlock o H addr b w = .ok w' ∧ HoldsMempool (b.coinbase o H) [] w' := by
  have hzero : ntohl o 0 + 1 = 1 := by cases o <;> decide
  rw [startBlock_eq]
  by_cases haddr : addr = 0
  · subst haddr
    have hsize : blockComputeSize o 0 (b.header w) = 83 := rfl
    have hfit : blockComputeSize o 0 (b.header w) + (b.coinbase o H).size < maxBlockSize :=
      show 83 + 46 < maxBlockSize by decide
    refine ⟨_, blockAddTx_fits hfit (header_count b w), holdsMempool_nil_iff.mpr ⟨?_, ?_⟩⟩
    · rw [Mem.slice_write_of_length (uitob_length _), hzero]
    · rw [hsize, Mem.slice_write_disjoint (.inr (by simp))]
      exact Mem.slice_write_of_length (b.coinbase_length o H)
  · obtain ⟨hheld, hfit⟩ := h.resolve_left haddr
    have hbody : (b.header w).slice posBlockBody 46 = (b.coinbase o H).bytes :=
      (header_body b w 46).trans hheld
    -- the walk takes at least the transaction that lies at the start of the body
    have hpast : 83 + 46 ≤ blockComputeSize o addr (b.header w) := by
      have hpos : addr.toNat ≠ 0 := fun h0 => haddr (UInt8.toNat_inj.mp h0)
      obtain ⟨n, hn⟩ := Nat.exists_eq_succ_of_ne_zero hpos
      have hsize := coinbase_le_txGetSize o H b (m := (b.header w).shift 83)
        ((Mem.slice_shift ..).trans hbody)
      unfold blockComputeSize
      rw [hn, txEnd]
      exact Nat.le_trans (Nat.add_le_add_left hsize 83) (le_txEnd ..)
    refine ⟨_, blockAddTx_fits hfit (header_count b w), holdsMempool_nil_iff.mpr ⟨?_, ?_⟩⟩
    · rw [Mem.slice_write_of_length (uitob_length _), hzero]
    · rw [Mem.slice_write_disjoint (.inr (by simp)),
        Mem.slice_write_disjoint (.inl (by simpa using hpast))]
      exact hbody

/-! ### Taking over the mempool -/

/-- A refresh finds the mempool as the last one left it, or the first transaction
alone, on a big-endian host and with `block_compute_size` walking over the
coinbase transaction. -/
def Arrival (o : ByteOrder) (addr : UInt8) (l l' : List MTx) : Prop :=
  l' = l ∨ (o = .big ∧ addr = 1 ∧ l = [] ∧ ∃ tx, l' = [tx] ∧ 83 + 46 + tx.size < maxBlockSize)

theorem newTxCount_same {o : ByteOrder} {p : Mempool} {coinbase : MTx} {l : List MTx} {w : Mem}
    (hp : Slots p l) (hw : HoldsMempool coinbase l w) (ho : o = .big ∨ l = []) :
    newTxCount o p w = 0 := by
  unfold newTxCount
  rw [btoui_uitob hw.count, dataMempoolGetSize, hp.count]
  rcases ho with rfl | rfl
  · have hback : ntohl .big (UInt32.ofNat (l.length + 1)) - 1 = UInt32.ofNat l.length := by
      rw [UInt32.ofNat_add]
      exact UInt32.add_sub_cancel _ _
    rw [hback, UInt32.sub_self]
    rfl
  · cases o <;> decide

theorem refresh_same {o : ByteOrder} {addr : UInt8} {p : Mempool} {coinbase : MTx} {l : List MTx}
    {w : Mem} (hp : Slots p l) (hw : HoldsMempool coinbase l w) (ho : o = .big ∨ l = []) :
    refresh o addr p w = .ok w := by
  rw [refresh, newTxCount_same hp hw ho]
  rfl

/-- The first transaction, added where the coinbase transaction ends. -/
theorem refresh_first {H : Digest} {b : NewBlock} {p : Mempool} {tx : MTx} {w : Mem}
    (hp : Slots p [tx]) (hw : HoldsMempool (b.coinbase .big H) [] w)
    (hfit : 83 + 46 + tx.size < maxBlockSize) :
    ∃ w', refresh .big 1 p w = .ok w' ∧ HoldsMempool (b.coinbase .big H) [tx] w' := by
  obtain ⟨hcount, hbody⟩ := holdsMempool_nil_iff.mp hw
  have hsize : blockComputeSize .big 1 w = 83 + 46 := by
    have hgen := generatedTx_coinbase .big H b (m := w.shift 83) ((Mem.slice_shift ..).trans hbody)
    show 83 + txGetSize .big (w.shift 83) = 83 + 46
    unfold txGetSize
    rw [hgen.inCount_eq, hgen.outCount_eq]
    rfl
  have hnew : newTxCount .big p w = 1 := by
    unfold newTxCount
    rw [btoui_uitob hcount, dataMempoolGetSize, hp.count]
    show (UInt32.ofNat 1 - (ntohl .big 1 - 1)).toInt32.toInt.toNat = 1
    decide
  have hadd : blockAddTx .big 1 w (some tx) =
      .ok ((w.write (83 + 46) tx.bytes).write posBlockTxCount (uitob 2)) := by
    have hroom : blockComputeSize .big 1 w + tx.size < maxBlockSize := by rw [hsize]; exact hfit
    have h := blockAddTx_fits hroom hcount
    rw [hsize] at h
    exact h
  refine ⟨(w.write (83 + 46) tx.bytes).write posBlockTxCount (uitob 2), ?_, ?_, ?_⟩
  · have hget : dataMempoolGet p 0 = some tx := hp.get Nat.one_pos
    rw [refresh, hnew, addMempoolTxs, hget, hadd]
    rfl
  · exact Mem.slice_write_of_length rfl
  · have hboth : bodyBytes (b.coinbase .big H) [tx] = (b.coinbase .big H).bytes ++ tx.bytes :=
      congrArg (_ ++ ·) (List.append_nil _)
    rw [hboth, List.length_append, b.coinbase_length, Mem.slice_write_disjoint (.inr (by simp)),
      Mem.slice_append, Mem.slice_write_disjoint (.inl (by simp)), hbody]
    exact congrArg (_ ++ ·) (Mem.slice_write_of_length rfl)

/-- What one refresh keeps. -/
theorem refresh_holds {o : ByteOrder} {H : Digest} {addr : UInt8} {b : NewBlock} {p : Mempool}
    {l l' : List MTx} {w : Mem} (hp : Slots p l') (harrival : Arrival o addr l l')
    (hw : HoldsMempool (b.coinbase o H) l w) (ho : o = .big ∨ l = []) :
    ∃ w', refresh o addr p w = .ok w' ∧ HoldsMempool (b.coinbase o H) l' w' ∧
      (o = .big ∨ l' = []) := by
  rcases harrival with rfl | ⟨rfl, rfl, rfl, tx, rfl, hfit⟩
  · exact ⟨w, refresh_same hp hw ho, hw, ho⟩
  · obtain ⟨w', hrefresh, hholds⟩ := refresh_first hp hw hfit
    exact ⟨w', hrefresh, hholds, .inl rfl⟩

/-- Every refresh of a run finds an arrival; `l` is the mempool at the one before. -/
def Arrivals (o : ByteOrder) (addr : UInt8) : List MTx → List (List MTx) → Prop
  | _, [] => True
  | l, l' :: rest => Arrival o addr l l' ∧ Arrivals o addr l' rest

/-- What a run of the inner loop keeps: setting the time and mining change nothing
from the count field on. -/
theorem minerLoop_holds {o : ByteOrder} {H : Digest} {addr : UInt8} {b : NewBlock}
    {passes : List Pass} {pools : List (List MTx)}
    (hpools : List.Forall₂ (fun pass l => Slots pass.mempool l) passes pools) :
    ∀ {l : List MTx} {w : Mem}, Arrivals o addr l pools → HoldsMempool (b.coinbase o H) l w →
      (o = .big ∨ l = []) → ∃ w' entered, minerLoop o addr passes w = .ok (w', entered) ∧
        List.Forall₂ (HoldsMempool (b.coinbase o H)) pools entered := by
  induction hpools with
  | nil =>
      intro l w _ _ _
      exact ⟨w, [], rfl, .nil⟩
  | @cons pass l' passes pools hp _ ih =>
      intro l w harrivals hw ho
      obtain ⟨harrival, hrest⟩ := harrivals
      obtain ⟨refreshed, hrefresh, hholds, ho'⟩ := refresh_holds hp harrival hw ho
      have hentered : HoldsMempool (b.coinbase o H) l'
          (refreshed.write posBlockTime (uitob pass.time)) :=
        hholds.congr fun i hi => Mem.write_after (Nat.le_trans (by simp) hi)
      have hmined := hentered.congr fun i hi => nthHeader_frame o
        (refreshed.write posBlockTime (uitob pass.time)) (.inr hi) pass.nonces
      obtain ⟨w', entered, hlater, hall⟩ := ih hrest hmined ho'
      refine ⟨w', refreshed.write posBlockTime (uitob pass.time) :: entered, ?_, ?_⟩
      · rw [minerLoop, hrefresh]
        show (minerLoop o addr passes (nthHeader o _ pass.nonces) >>= _) = _
        rw [hlater]
        rfl
      · exact .cons hentered hall

/-- **The workblock.** If the coinbase transaction gets to where the body starts and
every refresh finds an arrival, the inner loop never stops short, and in each of
its passes the workblock that is mined holds the coinbase transaction and then
every transaction of the mempool once, in order. -/
theorem workblock_holds_of_run (o : ByteOrder) (H : Digest) (addr : UInt8) (b : NewBlock) (w : Mem)
    (passes : List Pass) (pools : List (List MTx))
    (hpools : List.Forall₂ (fun pass l => Slots pass.mempool l) passes pools)
    (hstart : StartsWell o H addr b w) (harrivals : Arrivals o addr [] pools) :
    ∃ started w' entered, startBlock o H addr b w = .ok started ∧
      minerLoop o addr passes started = .ok (w', entered) ∧
      List.Forall₂ (HoldsMempool (b.coinbase o H)) pools entered := by
  obtain ⟨started, hstarted, hholds⟩ := startBlock_holds hstart
  obtain ⟨w', entered, hloop, hall⟩ := minerLoop_holds hpools harrivals hholds (.inr rfl)
  exact ⟨started, w', entered, hstarted, hloop, hall⟩

/-- Memory that is zero but for the output count of a coinbase transaction. -/
def soloMem : Mem := Mem.ofBytes (List.replicate 88 0 ++ [1])

/-- Transactions of ten equal bytes. -/
def plainTx (v : UInt8) : MTx :=
  ⟨List.replicate 32 v, List.replicate 10 v, 10, 10, List.replicate 32 v⟩

/-- The first transaction arrives, and then nothing more. -/
theorem workblock_holds_plainTx : ∃ started w' entered,
    startBlock .big sha256 1 soloBlock soloMem = .ok started ∧
    minerLoop .big 1 [⟨poolOf [plainTx 0], 7, 3⟩, ⟨poolOf [plainTx 0], 8, 5⟩] started =
      .ok (w', entered) ∧
    List.Forall₂ (HoldsMempool (soloBlock.coinbase .big sha256)) [[plainTx 0], [plainTx 0]]
      entered :=
  workblock_holds_of_run .big sha256 1 soloBlock soloMem _ _
    (.cons (slots_poolOf _) (.cons (slots_poolOf _) .nil)) (.inr ⟨by decide, by decide⟩)
    ⟨.inr ⟨rfl, rfl, rfl, plainTx 0, rfl, by decide⟩, .inl rfl, trivial⟩

/-- When a second transaction arrives, the first one is added again. -/
theorem second_tx_not_in_workblock :
    ¬ ∀ (o : ByteOrder) (H : Digest) (addr : UInt8) (b : NewBlock) (w : Mem) (passes : List Pass)
      (pools : List (List MTx)),
      List.Forall₂ (fun pass l => Slots pass.mempool l) passes pools →
      pools.IsChain (· <+: ·) →
      ∃ started w' entered, startBlock o H addr b w = .ok started ∧
        minerLoop o addr passes started = .ok (w', entered) ∧
        List.Forall₂ (HoldsMempool (b.coinbase o H)) pools entered := by
  intro hall
  obtain ⟨started, w', entered, hstart, hloop, hholds⟩ := hall .big sha256 1 soloBlock soloMem
    [⟨poolOf [plainTx 0], 7, 3⟩, ⟨poolOf [plainTx 0, plainTx 1], 8, 5⟩] _
    (.cons (slots_poolOf _) (.cons (slots_poolOf _) .nil))
    (.cons_cons ⟨[plainTx 1], rfl⟩ (.singleton _))
  have hbytes : (startBlock .big sha256 1 soloBlock soloMem >>= minerLoop .big 1
      [⟨poolOf [plainTx 0], 7, 3⟩, ⟨poolOf [plainTx 0, plainTx 1], 8, 5⟩]).map
        (fun done => done.2.map fun e => e 139) = .ok [0, 0] := by
    decide +kernel
  rw [hstart] at hbytes
  obtain ⟨done, hdone, hzeros⟩ := ok_of_map hbytes
  obtain rfl : done = (w', entered) := Except.ok.inj (hdone.symm.trans hloop)
  cases hholds with
  | @cons _ e₁ _ _ _ hrest =>
      cases hrest with
      | @cons _ e₂ _ _ hsecond hrest =>
          have hzero : e₂ 139 = 0 := (List.cons.inj (List.cons.inj hzeros).2).1
          have hone := congrArg (·[56]?) hsecond.body
          simp only [Mem.slice_getElem?] at hone
          rw [show posBlockBody + 56 = 139 from rfl, hzero] at hone
          exact absurd hone (by decide)

end Freecoin
