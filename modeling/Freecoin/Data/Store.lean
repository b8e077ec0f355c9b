import Freecoin.Array
import Freecoin.Blocks
import Freecoin.Data.Berkeley
import Freecoin.Data.Mempool

/-!
# data.c: blocks, txs, chain and limbo

The functions that read or write one database. The chain is read by height,
under the four bytes of a `uint`. It is written by `data_chain_safe_set`
under the 32 bytes its argument points at, with the height as record. The
two kinds of key never meet, and `dataChainGet_frozen` at the end of this
file is what the rest of the development makes of that.
-/

namespace Freecoin

open Lib

/-- `Dbs`, without the database of nodes, which nothing reads. -/
structure Dbs : Type where
  blocks : Db
  chain : Db
  limbo : Db
  txs : Db
  mempool : Mempool

/-- What a build and a host add to the sources: byte order, digest, the values of
macros that are not defined (`__VERSION__` is the compiler's), and the three
functions that are declared but empty or missing. -/
structure Env (B : Bdb) : Type where
  host : ByteOrder
  digest : Digest
  validBlock : Mem → Bool
  /-- The result, and `end_hash` afterwards. -/
  canTraceBack : Dbs → Mem → Bool × Mem
  isValidChain : Dbs → Mem → Mem → Bool
  limboMaxLevelSize : UInt32
  maxMempoolSize : ℕ
  gccVersion : UInt16

variable {B : Bdb} (env : Env B)

/-- A `uint` variable as the memory a pointer to it reads. -/
def uintMem (o : ByteOrder) (x : UInt32) : Mem := Mem.ofBytes (hostBytes32 o x)

/-! ## "txs" -/

/-- `data_txs_add(dbs, tx_hash, block_hash)`. -/
def dataTxsAdd (B : Bdb) (dbs : Dbs) (txHash blockHash : Bytes) : Dbs :=
  let key := newDbt (Mem.ofBytes txHash) sizeSha256
  let dat := newDbt (Mem.ofBytes blockHash) sizeSha256
  { dbs with txs := dbPut B dbs.txs key dat }

/-- `data_txs_exists(dbs, hash)`. -/
def dataTxsExists (B : Bdb) (dbs : Dbs) (hash : Bytes) : Bool :=
  dbExists B dbs.txs (newDbt (Mem.ofBytes hash) sizeSha256)

/-- `data_txs_del(dbs, tx_hash)`, called and defined nowhere: the key is deleted. -/
def dataTxsDel (B : Bdb) (dbs : Dbs) (txHash : Bytes) : Dbs :=
  { dbs with txs := dbs.txs.erase (B.keyBytes (newDbt (Mem.ofBytes txHash) sizeSha256)) }

/-! ## "blocks" -/

/-- `data_blocks_add(dbs, block)`; see `blockComputeSize` for `addr`. -/
def dataBlocksAdd (addr : UInt8) (dbs : Dbs) (block : Mem) : Dbs :=
  let blockHash := blockComputeHash env.digest block
  let dbs := (blockTxHashes env.host env.digest block).foldl
    (fun dbs txHash => dataTxsAdd B dbs txHash blockHash) dbs
  let key := newDbt (Mem.ofBytes blockHash) sizeSha256
  let dat := newDbt block (blockComputeSize env.host addr block)
  { dbs with blocks := dbPut B dbs.blocks key dat }

/-- `data_blocks_get(dbs, hash, dest)`: whether it returns 0, and `dest`. -/
def dataBlocksGet (B : Bdb) (dbs : Dbs) (hash dest : Mem) : Bool × Mem :=
  let got := dbGet B dbs.blocks (newDbt hash sizeSha256) (newDbt dest maxBlockSize)
  (got.1, got.2.data)

/-- `data_blocks_get_header(dbs, hash, dest)`. -/
def dataBlocksGetHeader (B : Bdb) (dbs : Dbs) (hash dest : Mem) : Bool × Mem :=
  let got := dbGet B dbs.blocks (newDbt hash sizeSha256) (newPdbt dest sizeBlockHeader 0)
  (got.1, got.2.data)

/-- `data_blocks_exists(dbs, hash)`. -/
def dataBlocksExists (B : Bdb) (dbs : Dbs) (hash : Mem) : Bool :=
  dbExists B dbs.blocks (newDbt hash sizeSha256)

/-! ## "chain" -/

/-- `data_chain_safe_set(dbs, block_hash)`; `block` is what `malloc` returned. -/
def dataChainSafeSet (block : Mem) (dbs : Dbs) (blockHash : Mem) : Dbs :=
  let got := dataBlocksGetHeader B dbs blockHash block
  if got.1 then
    let key := newDbt blockHash sizeSha256
    let dat := newDbt (uintMem env.host (blockGetHeight env.host got.2)) 4
    { dbs with chain := dbPut B dbs.chain key dat }
  else dbs

/-- `data_chain_get(dbs, height, dest)`: whether it returns 0, and `dest`. -/
def dataChainGet (dbs : Dbs) (height : UInt32) (dest : Mem) : Bool × Mem :=
  let got := dbGet B dbs.chain (newDbt (uintMem env.host height) 4) (newDbt dest sizeSha256)
  (got.1, got.2.data)

/-- `data_chain_exists(dbs, height, hash)`; `buffer` is what `malloc` returned. -/
def dataChainExists (buffer : Mem) (dbs : Dbs) (height : UInt32) (hash : Mem) : Bool :=
  let got := dataChainGet env dbs height buffer
  got.1 && got.2.slice 0 sizeSha256 == hash.slice 0 sizeSha256

/-- The variables that `_data_VAR_get_height` uses before it sets them. -/
structure HeightMem : Type where
  highest : UInt32
  blockHeader : Mem

/-- The loop of `_data_VAR_get_height`: `DB_NEXT` until a record does not fit its
buffers, each record read on top of the one before it. -/
def varGetHeightLoop (B : Bdb) (o : ByteOrder) :
    List (Bytes × Bytes) → UInt32 → Mem → UInt32
  | [], highest, _ => highest
  | (key, dat) :: rest, highest, header =>
      if B.fits (newDbt header sizeSha256) key.length &&
          B.fits (newDbt header sizeBlockHeader) dat.length then
        let header := header.load dat
        let curr := blockGetHeight o header
        varGetHeightLoop B o rest (if highest < curr then curr else highest) header
      else highest

/-- `_data_VAR_get_height(db)`. -/
def dataVarGetHeight (B : Bdb) (o : ByteOrder) (u : HeightMem) (db : Db) : UInt32 :=
  varGetHeightLoop B o (dbRecords db) u.highest u.blockHeader

/-- `data_chain_get_height(dbs)`. -/
def dataChainGetHeight (u : HeightMem) (dbs : Dbs) : UInt32 :=
  dataVarGetHeight B env.host u dbs.chain

/-! ## "limbo" -/

/-- `uint buffer_size = 4 + (SIZE_SHA256 * LIMBO_MAX_LEVEL_SIZE)`. -/
def limboBufferSize : ℕ := (4 + UInt32.ofNat sizeSha256 * env.limboMaxLevelSize).toNat

/-- It wraps from `2 ^ 27` hashes on. -/
theorem limboBufferSize_eq :
    limboBufferSize env = 4 + sizeSha256 * (env.limboMaxLevelSize.toNat % 2 ^ 27) := by
  have hlt := env.limboMaxLevelSize.toNat_lt
  rw [limboBufferSize, UInt32.toNat_add, UInt32.toNat_mul,
    show (4 : UInt32).toNat = 4 from rfl, show (UInt32.ofNat sizeSha256).toNat = 32 from rfl,
    sizeSha256]
  omega

theorem four_le_limboBufferSize : 4 ≤ limboBufferSize env := by
  rw [limboBufferSize_eq]
  exact Nat.le_add_right _ _

/-- The buffer is never longer than its elements need. -/
theorem limboBufferSize_le :
    limboBufferSize env ≤ 4 + sizeSha256 * env.limboMaxLevelSize.toNat := by
  rw [limboBufferSize_eq]
  exact Nat.add_le_add_left (Nat.mul_le_mul_left _ (Nat.mod_le _ _)) _

/-- The `Array` that a limbo buffer is read as. -/
def limboArray (buffer : Mem) : Arr :=
  arrayInit (buffer.shift 4) 32 (btoui env.host buffer) env.limboMaxLevelSize.toNat

/-- The common body of `data_limbo_safe_add` and `data_limbo_del`: the level of
the block is read, edited and put back; `buffer` is what `malloc` returned. -/
def dataLimboEdit (edit : Arr → Bytes → Arr) (buffer : Mem) (dbs : Dbs) (block : Mem) : Dbs :=
  let hash := blockComputeHash env.digest block
  let height := blockGetHeight env.host block
  let key := newDbt (uintMem env.host height) 4
  let dat := (dbGet B dbs.limbo key (newDbt buffer (limboBufferSize env))).2
  let arr := edit (limboArray env dat.data) hash
  { dbs with limbo := dbPut B dbs.limbo key { dat with data := dat.data.splice 4 arr.data } }

/-- `data_limbo_safe_add(dbs, block)`. -/
def dataLimboSafeAdd : Mem → Dbs → Mem → Dbs :=
  dataLimboEdit env fun arr hash => (arrayAdd arr hash).2

/-- `data_limbo_del(dbs, block)`, on a host that has memory wherever `array_del` reads. -/
def dataLimboDel : Mem → Dbs → Mem → Dbs := dataLimboEdit env arrayDel

/-! ## What each call does to the maps -/

section Passed

variable (env : Env .passed)

theorem slice_ofBytes {bs : Bytes} {n : ℕ} (h : bs.length = n) : (Mem.ofBytes bs).slice 0 n = bs :=
  Mem.slice_load _ h

theorem uintMem_slice (o : ByteOrder) (x : UInt32) :
    (uintMem o x).slice 0 4 = hostBytes32 o x :=
  slice_ofBytes (hostBytes32_length o x)

@[simp] theorem blockComputeHash_length (H : Digest) (block : Mem) :
    (blockComputeHash H block).length = 32 :=
  H.length _

@[simp] theorem txComputeHash_length (o : ByteOrder) (H : Digest) (tx : Mem) :
    (txComputeHash o H tx).length = 32 :=
  H.length _

theorem dataTxsAdd_passed (dbs : Dbs) {txHash blockHash : Bytes} (ht : txHash.length = 32)
    (hb : blockHash.length = 32) :
    dataTxsAdd .passed dbs txHash blockHash =
      { dbs with txs := dbs.txs.insert txHash blockHash } := by
  have hkey : Bdb.passed.keyBytes (newDbt (Mem.ofBytes txHash) sizeSha256) = txHash :=
    slice_ofBytes ht
  have hdat : Bdb.passed.putBytes (newDbt (Mem.ofBytes blockHash) sizeSha256) = blockHash :=
    slice_ofBytes hb
  rw [dataTxsAdd, dbPut, hkey, hdat]

theorem dataTxsDel_passed (dbs : Dbs) {txHash : Bytes} (ht : txHash.length = 32) :
    dataTxsDel .passed dbs txHash = { dbs with txs := dbs.txs.erase txHash } := by
  have hkey : Bdb.passed.keyBytes (newDbt (Mem.ofBytes txHash) sizeSha256) = txHash :=
    slice_ofBytes ht
  rw [dataTxsDel, hkey]

theorem dataTxsExists_passed (dbs : Dbs) {hash : Bytes} (h : hash.length = 32) :
    dataTxsExists .passed dbs hash = (dbs.txs.lookup hash).isSome := by
  have hkey : Bdb.passed.keyBytes (newDbt (Mem.ofBytes hash) sizeSha256) = hash :=
    slice_ofBytes h
  rw [dataTxsExists, dbExists, hkey]

/-- The record under which `data_blocks_add` stores a block. -/
def blockRecord (addr : UInt8) (block : Mem) : Bytes :=
  block.slice 0 (blockComputeSize env.host addr block)

/-- The txs database after every hash of `hashes` has been filed under `blockHash`. -/
def indexTxs (txs : Db) (hashes : List Bytes) (blockHash : Bytes) : Db :=
  hashes.foldl (fun txs t => txs.insert t blockHash) txs

theorem foldl_dataTxsAdd {hashes : List Bytes} {blockHash : Bytes} (hb : blockHash.length = 32) :
    ∀ dbs : Dbs, (∀ t ∈ hashes, t.length = 32) →
      hashes.foldl (fun dbs t => dataTxsAdd .passed dbs t blockHash) dbs =
        { dbs with txs := indexTxs dbs.txs hashes blockHash } := by
  induction hashes with
  | nil => intro dbs _; rfl
  | cons t rest ih =>
      intro dbs hlen
      rw [List.foldl_cons, dataTxsAdd_passed dbs (hlen t (List.mem_cons_self ..)) hb,
        ih _ fun t' ht' => hlen t' (List.mem_cons_of_mem _ ht')]
      rfl

theorem indexTxs_lookup (txs : Db) (hashes : List Bytes) (blockHash t : Bytes) :
    (indexTxs txs hashes blockHash).lookup t =
      if t ∈ hashes then some blockHash else txs.lookup t := by
  induction hashes generalizing txs with
  | nil => simp [indexTxs]
  | cons x rest ih =>
      rw [indexTxs, List.foldl_cons, ← indexTxs, ih]
      by_cases hrest : t ∈ rest
      · simp [hrest]
      · by_cases hx : t = x
        · subst hx
          simp [hrest]
        · simp [hrest, hx, AList.lookup_insert_ne hx]

theorem blockTxHashes_length {o : ByteOrder} {H : Digest} {block : Mem} {t : Bytes}
    (h : t ∈ blockTxHashes o H block) : t.length = 32 := by
  obtain ⟨tx, _, rfl⟩ := List.mem_map.mp h
  exact txComputeHash_length o H tx

/-- `data_blocks_add` indexes the transactions and stores the block, whatever
else is known about it. -/
theorem dataBlocksAdd_passed (addr : UInt8) (dbs : Dbs) (block : Mem) :
    dataBlocksAdd env addr dbs block =
      { dbs with
        blocks := dbs.blocks.insert (blockComputeHash env.digest block) (blockRecord env addr block)
        txs := indexTxs dbs.txs (blockTxHashes env.host env.digest block)
          (blockComputeHash env.digest block) } := by
  have hlen := blockComputeHash_length env.digest block
  have hkey : Bdb.passed.keyBytes
      (newDbt (Mem.ofBytes (blockComputeHash env.digest block)) sizeSha256) =
        blockComputeHash env.digest block := slice_ofBytes hlen
  have hdat : Bdb.passed.putBytes (newDbt block (blockComputeSize env.host addr block)) =
      blockRecord env addr block := rfl
  rw [dataBlocksAdd, foldl_dataTxsAdd hlen dbs fun t ht => blockTxHashes_length ht]
  simp only [dbPut, hkey, hdat]

theorem dataBlocksGet_cases (dbs : Dbs) (hash dest : Mem) :
    (∃ r, dbs.blocks.lookup (hash.slice 0 32) = some r ∧ r.length ≤ maxBlockSize ∧
      dataBlocksGet .passed dbs hash dest = (true, dest.load r)) ∨
    ((∀ r, dbs.blocks.lookup (hash.slice 0 32) = some r → maxBlockSize < r.length) ∧
      dataBlocksGet .passed dbs hash dest = (false, dest)) := by
  rcases dbGet_passed_cases dbs.blocks hash dest sizeSha256 maxBlockSize with
    ⟨r, hr, hfit, hget⟩ | ⟨hnone, hret, hdat⟩
  · refine .inl ⟨r, hr, hfit, ?_⟩
    rw [dataBlocksGet, hget]
  · refine .inr ⟨hnone, ?_⟩
    rw [dataBlocksGet, hret, hdat]

/-- A block is looked up by the first 32 bytes of what the hash points at. -/
theorem dataBlocksGet_congr (dbs : Dbs) {hash hash' : Mem}
    (h : hash.slice 0 sizeSha256 = hash'.slice 0 sizeSha256) (dest : Mem) :
    dataBlocksGet .passed dbs hash dest = dataBlocksGet .passed dbs hash' dest := by
  have hkey : Bdb.passed.keyBytes (newDbt hash sizeSha256) =
      Bdb.passed.keyBytes (newDbt hash' sizeSha256) := h
  rw [dataBlocksGet, dataBlocksGet, dbGet, dbGet, hkey]

theorem dataBlocksGetHeader_congr (dbs : Dbs) {hash hash' : Mem}
    (h : hash.slice 0 sizeSha256 = hash'.slice 0 sizeSha256) (dest : Mem) :
    dataBlocksGetHeader .passed dbs hash dest = dataBlocksGetHeader .passed dbs hash' dest := by
  have hkey : Bdb.passed.keyBytes (newDbt hash sizeSha256) =
      Bdb.passed.keyBytes (newDbt hash' sizeSha256) := h
  rw [dataBlocksGetHeader, dataBlocksGetHeader, dbGet, dbGet, hkey]

theorem dataBlocksExists_passed (dbs : Dbs) (hash : Mem) :
    dataBlocksExists .passed dbs hash = (dbs.blocks.lookup (hash.slice 0 sizeSha256)).isSome := rfl

theorem dataBlocksExists_congr (dbs : Dbs) {hash hash' : Mem}
    (h : hash.slice 0 sizeSha256 = hash'.slice 0 sizeSha256) :
    dataBlocksExists .passed dbs hash = dataBlocksExists .passed dbs hash' := by
  rw [dataBlocksExists_passed, dataBlocksExists_passed, h]

theorem dataBlocksGetHeader_cases (dbs : Dbs) (hash dest : Mem) :
    (∃ r, dbs.blocks.lookup (hash.slice 0 32) = some r ∧
      dataBlocksGetHeader .passed dbs hash dest = (true, dest.load (r.take 83))) ∨
    (dbs.blocks.lookup (hash.slice 0 32) = none ∧
      dataBlocksGetHeader .passed dbs hash dest = (false, dest)) := by
  have hkey : Bdb.passed.keyBytes (newDbt hash sizeSha256) = hash.slice 0 32 := rfl
  rw [dataBlocksGetHeader, dbGet, hkey]
  cases hr : dbs.blocks.lookup (hash.slice 0 32) with
  | none => exact .inr ⟨rfl, rfl⟩
  | some r => exact .inl ⟨r, rfl, rfl⟩

/-- `data_chain_safe_set` writes under the 32 bytes it is given, and only if they
are the key of a stored block. -/
theorem dataChainSafeSet_cases (block : Mem) (dbs : Dbs) (blockHash : Mem) :
    (∃ r v, dbs.blocks.lookup (blockHash.slice 0 32) = some r ∧
      dataChainSafeSet env block dbs blockHash =
        { dbs with chain := dbs.chain.insert (blockHash.slice 0 32) v }) ∨
    (dbs.blocks.lookup (blockHash.slice 0 32) = none ∧
      dataChainSafeSet env block dbs blockHash = dbs) := by
  unfold dataChainSafeSet
  rcases dataBlocksGetHeader_cases dbs blockHash block with ⟨r, hr, hget⟩ | ⟨hr, hget⟩
  · rw [hget]
    exact .inl ⟨r, _, hr, rfl⟩
  · rw [hget]
    exact .inr ⟨hr, rfl⟩

theorem dataChainSafeSet_frame (block : Mem) (dbs : Dbs) (blockHash : Mem) :
    ∃ chain, dataChainSafeSet env block dbs blockHash = { dbs with chain := chain } := by
  rcases dataChainSafeSet_cases env block dbs blockHash with ⟨_, _, _, h⟩ | ⟨_, h⟩
  · exact ⟨_, h⟩
  · exact ⟨_, h⟩

/-- `data_chain_get` looks at the records under four-byte keys only. -/
theorem dataChainGet_congr {dbs dbs' : Dbs}
    (h : ∀ key : Bytes, key.length = 4 → dbs'.chain.lookup key = dbs.chain.lookup key) :
    dataChainGet env dbs' = dataChainGet env dbs := by
  funext height dest
  have hlen : (Bdb.passed.keyBytes (newDbt (uintMem env.host height) 4)).length = 4 :=
    Mem.slice_length ..
  rw [dataChainGet, dataChainGet, dbGet, dbGet, h _ hlen]

/-- **The chain cannot be extended.** No call of `data_chain_safe_set` changes what
`data_chain_get` returns at any height. -/
theorem dataChainGet_frozen (block : Mem) (dbs : Dbs) (blockHash : Mem) :
    dataChainGet env (dataChainSafeSet env block dbs blockHash) = dataChainGet env dbs := by
  rcases dataChainSafeSet_cases env block dbs blockHash with ⟨r, v, _, hset⟩ | ⟨_, hset⟩
  · rw [hset]
    apply dataChainGet_congr
    intro key hkey
    have hne : key ≠ blockHash.slice 0 32 := by
      rintro rfl
      simp at hkey
    exact AList.lookup_insert_ne hne
  · rw [hset]

end Passed

end Freecoin
