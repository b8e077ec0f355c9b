import Freecoin.Data.Levels
import Freecoin.Chain.Invariant

/-!
# data.c: reading headers

Two functions read headers without reading blocks. `data_blocks_get_header` asks
for the first 83 bytes of a record but hands over a `DBT` with `ulen` zero, so
there is room for none of them. `_data_VAR_get_height` runs a cursor over the
chain or over limbo and decodes every record as if it were a header; what it
compares the first height with, and the bytes that a record is too short for, are
whatever memory held.
-/

namespace Freecoin

open Lib

/-! ## Partial reads -/

/-- The header read returns 0 when the full read does, and delivers the beginning of
what the full read delivers. -/
structure HeaderAgrees (B : Bdb) (dbs : Dbs) (hash dest : Mem) : Prop where
  returns : (dataBlocksGetHeader B dbs hash dest).1 = (dataBlocksGet B dbs hash dest).1
  delivers : (dataBlocksGetHeader B dbs hash dest).1 = true →
    ∀ i, (dataBlocksGetHeader B dbs hash dest).2 i =
      if i < sizeBlockHeader then (dataBlocksGet B dbs hash dest).2 i else dest i

/-- Where both reads fail there is nothing to deliver. -/
theorem HeaderAgrees.of_failed {B : Bdb} {dbs : Dbs} {hash dest : Mem}
    (hheader : (dataBlocksGetHeader B dbs hash dest).1 = false)
    (hfull : (dataBlocksGet B dbs hash dest).1 = false) : HeaderAgrees B dbs hash dest := by
  refine ⟨hheader.trans hfull.symm, ?_⟩
  intro hret
  rw [hheader] at hret
  cases hret

section Usermem

variable {B : Bdb} (hfits : ∀ d n, B.fits d n = decide (n ≤ d.ulen)) (dbs : Dbs) (hash dest : Mem)

include hfits

/-- There is room for nothing. -/
theorem dataBlocksGetHeader_usermem :
    dataBlocksGetHeader B dbs hash dest =
      (decide (dbs.blocks.lookup (B.keyBytes (newDbt hash sizeSha256)) = some []), dest) := by
  rw [dataBlocksGetHeader, dbGet]
  cases dbs.blocks.lookup (B.keyBytes (newDbt hash sizeSha256)) with
  | none => rfl
  | some r =>
      have hwant : (newPdbt dest sizeBlockHeader 0).wanted r = r.take sizeBlockHeader := rfl
      have hroom : (newPdbt dest sizeBlockHeader 0).ulen = 0 := rfl
      dsimp only
      rw [hwant, Dbt.deliver, hfits, hroom]
      cases r with
      | nil => rfl
      | cons b r => rfl

theorem dataBlocksGet_usermem :
    dataBlocksGet B dbs hash dest =
      match dbs.blocks.lookup (B.keyBytes (newDbt hash sizeSha256)) with
      | none => (false, dest)
      | some r => if r.length ≤ maxBlockSize then (true, dest.load r) else (false, dest) := by
  rw [dataBlocksGet, dbGet]
  cases dbs.blocks.lookup (B.keyBytes (newDbt hash sizeSha256)) with
  | none => rfl
  | some r =>
      have hwant : (newDbt dest maxBlockSize).wanted r = r := rfl
      have hroom : (newDbt dest maxBlockSize).ulen = maxBlockSize := rfl
      dsimp only
      rw [hwant, Dbt.deliver, hfits, hroom]
      by_cases hfit : r.length ≤ maxBlockSize
      · rw [if_pos hfit, if_pos (decide_eq_true hfit)]
        rfl
      · rw [if_neg hfit, if_neg (by rw [decide_eq_true_eq]; exact hfit)]
        rfl

end Usermem

/-- **Header reads.** With a library that delivers what fits into `ulen`, they agree with
full reads if and only if there is no record under the hash, or an empty one, or
one that does not fit a block buffer either. -/
theorem headerAgrees_iff {B : Bdb} (hfits : ∀ d n, B.fits d n = decide (n ≤ d.ulen)) (dbs : Dbs)
    (hash dest : Mem) :
    HeaderAgrees B dbs hash dest ↔
      ∀ r, dbs.blocks.lookup (B.keyBytes (newDbt hash sizeSha256)) = some r →
        r = [] ∨ maxBlockSize < r.length := by
  have hheader := dataBlocksGetHeader_usermem hfits dbs hash dest
  have hfull := dataBlocksGet_usermem hfits dbs hash dest
  constructor
  · intro h r hr
    have hreturns := h.returns
    rw [hheader, hfull, hr] at hreturns
    by_cases hfit : r.length ≤ maxBlockSize
    · left
      dsimp only at hreturns
      rw [if_pos hfit, decide_eq_true_eq] at hreturns
      exact Option.some_inj.mp hreturns
    · exact .inr (Nat.not_le.mp hfit)
  · intro h
    cases hr : dbs.blocks.lookup (B.keyBytes (newDbt hash sizeSha256)) with
    | none =>
        rw [hr] at hheader hfull
        apply HeaderAgrees.of_failed
        · rw [hheader]
          rfl
        · rw [hfull]
    | some r =>
        rw [hr] at hheader hfull
        rcases h r hr with rfl | hlong
        · -- nothing is delivered, and both return 0
          refine ⟨by rw [hheader, hfull]; rfl, ?_⟩
          intro _ i
          rw [hheader, hfull]
          show dest i = if i < sizeBlockHeader then dest.load [] i else dest i
          rw [Mem.load_ge (Nat.zero_le i), ite_self]
        · have hne : r ≠ [] := by
            rintro rfl
            exact absurd hlong (by decide)
          have hfalse : decide (some r = some []) = false :=
            decide_eq_false fun heq => hne (Option.some_inj.mp heq)
          apply HeaderAgrees.of_failed
          · rw [hheader, hfalse]
          · rw [hfull]
            dsimp only
            rw [if_neg (Nat.not_le.mpr hlong)]

/-- The library as `data_blocks_get_header` meets it. -/
def Bdb.usermem : Bdb := { Bdb.passed with fits := fun d n => n ≤ d.ulen }

/-- Where nothing is stored the two reads fail alike. -/
theorem headerAgrees_emptyNode :
    (∀ d n, Bdb.usermem.fits d n = decide (n ≤ d.ulen)) ∧
    HeaderAgrees .usermem emptyNode (Mem.ofBytes genesisHash) fun _ => 0 := by
  refine ⟨fun _ _ => rfl, ?_⟩
  apply (headerAgrees_iff (fun _ _ => rfl) ..).mpr
  intro r hr
  cases (AList.lookup_empty _).symm.trans hr

/-- A block that is stored can be read, and its header cannot. -/
theorem header_of_stored_block_unread :
    (dataBlocksGet .usermem genesisNode (Mem.ofBytes genesisHash) fun _ => 0).1 = true ∧
    (dataBlocksGetHeader .usermem genesisNode (Mem.ofBytes genesisHash) fun _ => 0).1 = false ∧
    ¬ ∀ (B : Bdb) (dbs : Dbs) (hash dest : Mem), (∀ d n, B.fits d n = decide (n ≤ d.ulen)) →
      HeaderAgrees B dbs hash dest := by
  have hfull : (dataBlocksGet .usermem genesisNode (Mem.ofBytes genesisHash) fun _ => 0).1 =
      true := by
    decide +kernel
  have hheader : (dataBlocksGetHeader .usermem genesisNode (Mem.ofBytes genesisHash)
      fun _ => 0).1 = false := by
    decide +kernel
  refine ⟨hfull, hheader, ?_⟩
  intro hall
  have hreturns := (hall .usermem genesisNode (Mem.ofBytes genesisHash) (fun _ => 0)
    fun _ _ => rfl).returns
  rw [hfull, hheader] at hreturns
  cases hreturns

/-! ## The height scan -/

/-- `data_limbo_get_height(dbs)`. -/
def dataLimboGetHeight {B : Bdb} (env : Env B) (u : HeightMem) (dbs : Dbs) : UInt32 :=
  dataVarGetHeight B env.host u dbs.limbo

variable (env : Env .passed)

/-- What calls of `data_chain_safe_set` make of an empty chain. -/
inductive ChainWritten : Db → Prop
  | empty : ChainWritten ∅
  | set (block : Mem) (dbs : Dbs) (blockHash : Mem) :
      ChainWritten dbs.chain → ChainWritten (dataChainSafeSet env block dbs blockHash).chain

/-- What calls of `data_limbo_safe_add` make of an empty limbo. -/
inductive LimboWritten : Db → Prop
  | empty : LimboWritten ∅
  | add (buffer : Mem) (dbs : Dbs) (block : Mem) :
      LimboWritten dbs.limbo → LimboWritten (dataLimboSafeAdd env buffer dbs block).limbo

/-- The chain has a record with this height. -/
def ChainRecorded (chain : Db) (h : UInt32) : Prop :=
  ∃ key, chain.lookup key = some (hostBytes32 env.host h)

/-- Limbo has a level of this height. -/
def LimboRecorded (limbo : Db) (h : UInt32) : Prop :=
  (limbo.lookup (hostBytes32 env.host h)).isSome = true

/-- Whatever memory holds, the scan returns the greatest of the heights. -/
def ScansGreatest (scan : HeightMem → UInt32) (recorded : UInt32 → Prop) : Prop :=
  ∀ u, recorded (scan u) ∧ ∀ h, recorded h → h ≤ scan u

/-- The greatest height there is. -/
def topHeight : UInt32 := 0xffffffff

theorem le_topHeight (h : UInt32) : h ≤ topHeight := by
  rw [UInt32.le_iff_toNat_le]
  exact Nat.le_of_lt_succ h.toNat_lt

theorem eq_topHeight_of_le {h : UInt32} (hle : topHeight ≤ h) : h = topHeight :=
  UInt32.le_antisymm (le_topHeight h) hle

variable {env}

/-- Memory may show the greatest height from the start. -/
theorem ScansGreatest.top {B : Bdb} {o : ByteOrder} {db : Db} {recorded : UInt32 → Prop}
    (h : ScansGreatest (fun u => dataVarGetHeight B o u db) recorded) : recorded topHeight := by
  have hscan : dataVarGetHeight B o ⟨topHeight, fun _ => 0⟩ db = topHeight :=
    eq_topHeight_of_le (highest_le_varGetHeightLoop _ _ _ _ _)
  rw [← hscan]
  exact (h _).1

/-- A scan that takes no height from the records is never right. -/
theorem not_scansGreatest_of_zero {B : Bdb} {o : ByteOrder} {db : Db} {recorded : UInt32 → Prop}
    (hzero : dataVarGetHeight B o ⟨0, fun _ => 0⟩ db = 0) :
    ¬ ScansGreatest (fun u => dataVarGetHeight B o u db) recorded := by
  intro h
  have hle := (h ⟨0, fun _ => 0⟩).2 topHeight h.top
  dsimp only at hle
  rw [hzero] at hle
  exact absurd hle (by decide)

theorem blockGetHeight_zeros (o : ByteOrder) : blockGetHeight o (fun _ => 0) = 0 := by
  cases o with
  | big => decide
  | little => decide

/-- Records that end before the height leave that of the buffer. -/
theorem varGetHeightLoop_short (B : Bdb) (o : ByteOrder) {records : List (Bytes × Bytes)}
    (hshort : ∀ r ∈ records, r.2.length ≤ posBlockHeight) :
    ∀ {highest : UInt32} {header : Mem}, blockGetHeight o header ≤ highest →
      varGetHeightLoop B o records highest header = highest := by
  induction records with
  | nil => intro highest header _; rfl
  | cons r rest ih =>
      intro highest header hle
      obtain ⟨hfirst, hrest⟩ := List.forall_mem_cons.mp hshort
      have hheight : blockGetHeight o (header.load r.2) = blockGetHeight o header := by
        apply btoui_congr
        intro i _
        exact Mem.load_ge (Nat.le_trans hfirst (Nat.le_add_right _ i))
      rw [varGetHeightLoop]
      split
      · dsimp only
        rw [hheight, if_neg (UInt32.not_lt.mpr hle)]
        exact ih hrest (hheight.symm ▸ hle)
      · rfl

/-- Records that do not fit the buffer end the scan at the first one. -/
theorem varGetHeightLoop_long (o : ByteOrder) {records : List (Bytes × Bytes)}
    (hlong : ∀ r ∈ records, sizeBlockHeader < r.2.length) (highest : UInt32) (header : Mem) :
    varGetHeightLoop .passed o records highest header = highest := by
  cases records with
  | nil => rfl
  | cons r rest =>
      have hfits : Bdb.passed.fits (newDbt header sizeBlockHeader) r.2.length = false :=
        decide_eq_false (Nat.not_le.mpr (hlong r List.mem_cons_self))
      rw [varGetHeightLoop, hfits, Bool.and_false]
      rfl

/-- Records that fit and hold a height: the greatest height there is comes from memory
or from one of them. -/
theorem varGetHeightLoop_top_iff (o : ByteOrder) {records : List (Bytes × Bytes)}
    (hkeys : ∀ r ∈ records, r.1.length ≤ sizeSha256)
    (hrecords : ∀ r ∈ records, posBlockHeight + 4 ≤ r.2.length ∧ r.2.length ≤ sizeBlockHeader) :
    ∀ {highest : UInt32} {header : Mem},
      varGetHeightLoop .passed o records highest header = topHeight ↔
        highest = topHeight ∨
          ∃ r ∈ records, blockGetHeight o (Mem.ofBytes r.2) = topHeight := by
  induction records with
  | nil => intro highest header; simp [varGetHeightLoop]
  | cons r rest ih =>
      intro highest header
      obtain ⟨hkey, hkeysRest⟩ := List.forall_mem_cons.mp hkeys
      obtain ⟨⟨hlow, hfit⟩, hrest⟩ := List.forall_mem_cons.mp hrecords
      have hfits : (Bdb.passed.fits (newDbt header sizeSha256) r.1.length &&
          Bdb.passed.fits (newDbt header sizeBlockHeader) r.2.length) = true :=
        Bool.and_eq_true_iff.mpr ⟨decide_eq_true hkey, decide_eq_true hfit⟩
      have hheight : blockGetHeight o (header.load r.2) = blockGetHeight o (Mem.ofBytes r.2) :=
        btoui_congr (Mem.slice_eq_iff.mp (Mem.slice_load_inside header (fun _ => 0) hlow))
      rw [varGetHeightLoop, hfits, if_pos rfl, ih hkeysRest hrest, hheight]
      have hmax : (if highest < blockGetHeight o (Mem.ofBytes r.2) then
            blockGetHeight o (Mem.ofBytes r.2) else highest) = topHeight ↔
          highest = topHeight ∨ blockGetHeight o (Mem.ofBytes r.2) = topHeight := by
        split
        · next hlt =>
            have hne : highest ≠ topHeight := by
              rintro rfl
              exact UInt32.not_le.mpr hlt (le_topHeight _)
            rw [or_iff_right hne]
        · next hge =>
            refine ⟨.inl, ?_⟩
            rintro (heq | heq)
            · exact heq
            · exact eq_topHeight_of_le (heq ▸ UInt32.not_lt.mp hge)
      rw [hmax, or_assoc]
      simp only [List.mem_cons, exists_eq_or_imp]

/-! ## What was written -/

theorem ChainWritten.record_length {chain : Db} (h : ChainWritten env chain) {key r : Bytes}
    (hr : chain.lookup key = some r) : r.length = 4 := by
  induction h with
  | empty => cases (AList.lookup_empty _).symm.trans hr
  | set block dbs blockHash _ ih =>
      rw [dataChainSafeSet] at hr
      split at hr
      · dsimp only [dbPut] at hr
        by_cases hkey : key = Bdb.passed.keyBytes (newDbt blockHash sizeSha256)
        · subst hkey
          rw [AList.lookup_insert] at hr
          cases hr
          exact Mem.slice_length ..
        · rw [AList.lookup_insert_ne hkey] at hr
          exact ih hr
      · exact ih hr

theorem LimboWritten.record {limbo : Db} (h : LimboWritten env limbo) {key r : Bytes}
    (hr : limbo.lookup key = some r) : key.length = 4 ∧ r.length = limboBufferSize env := by
  induction h generalizing key r with
  | empty => cases (AList.lookup_empty _).symm.trans hr
  | add buffer dbs block _ ih =>
      rw [dataLimboSafeAdd, dataLimboEdit_passed] at hr
      dsimp only at hr
      by_cases hkey : key = hostBytes32 env.host (blockGetHeight env.host block)
      · subst hkey
        rw [AList.lookup_insert] at hr
        cases hr
        exact ⟨hostBytes32_length .., limboRecord_length_eq env fun r hr => (ih hr).2⟩
      · rw [AList.lookup_insert_ne hkey] at hr
        exact ih hr

theorem ChainWritten.not_scansGreatest {dbs : Dbs} (h : ChainWritten env dbs.chain)
    (recorded : UInt32 → Prop) :
    ¬ ScansGreatest (fun u => dataChainGetHeight env u dbs) recorded := by
  apply not_scansGreatest_of_zero
  apply varGetHeightLoop_short
  · intro r hr
    have hlength := h.record_length (mem_dbRecords.mp hr)
    rw [hlength]
    decide
  · exact UInt32.le_of_eq (blockGetHeight_zeros env.host)

/-- A level of one or two hashes is long enough for a height and short enough for the
buffer. -/
theorem LimboWritten.scansGreatest_iff {dbs : Dbs} (h : LimboWritten env dbs.limbo) :
    ScansGreatest (fun u => dataLimboGetHeight env u dbs) (LimboRecorded env dbs.limbo) ↔
      (limboBufferSize env = 36 ∨ limboBufferSize env = 68) ∧
      LimboRecorded env dbs.limbo topHeight ∧
      ∃ key r, dbs.limbo.lookup key = some r ∧
        blockGetHeight env.host (Mem.ofBytes r) = topHeight := by
  have hrecord : ∀ r ∈ dbRecords dbs.limbo,
      r.1.length = 4 ∧ r.2.length = limboBufferSize env :=
    fun r hr => h.record (mem_dbRecords.mp hr)
  have hbuffer : limboBufferSize env = 4 + 32 * (env.limboMaxLevelSize.toNat % 2 ^ 27) :=
    limboBufferSize_eq env
  by_cases hsize : limboBufferSize env = 36 ∨ limboBufferSize env = 68
  · have htop : ∀ u, dataLimboGetHeight env u dbs = topHeight ↔
        u.highest = topHeight ∨
          ∃ r ∈ dbRecords dbs.limbo, blockGetHeight env.host (Mem.ofBytes r.2) = topHeight := by
      intro u
      apply varGetHeightLoop_top_iff
      · intro r hr
        rw [(hrecord r hr).1]
        decide
      · intro r hr
        have hlength := (hrecord r hr).2
        simp only [posBlockHeight, sizeBlockHeader]
        omega
    constructor
    · intro hscan
      refine ⟨hsize, hscan.top, ?_⟩
      have hgreatest := eq_topHeight_of_le ((hscan ⟨0, fun _ => 0⟩).2 topHeight hscan.top)
      rcases (htop _).mp hgreatest with hzero | ⟨r, hr, hheight⟩
      · exact absurd hzero (by decide)
      · exact ⟨r.1, r.2, mem_dbRecords.mp hr, hheight⟩
    · rintro ⟨-, hrecorded, key, r, hr, hheight⟩ u
      have hscan := (htop u).mpr (.inr ⟨(key, r), mem_dbRecords.mpr hr, hheight⟩)
      dsimp only
      rw [hscan]
      exact ⟨hrecorded, fun h _ => le_topHeight h⟩
  · refine iff_of_false ?_ fun hall => hsize hall.1
    apply not_scansGreatest_of_zero
    by_cases hzero : limboBufferSize env = 4
    · -- the records are too short for a height
      apply varGetHeightLoop_short
      · intro r hr
        rw [(hrecord r hr).2, hzero]
        decide
      · exact UInt32.le_of_eq (blockGetHeight_zeros env.host)
    · -- the first record does not fit the buffer
      apply varGetHeightLoop_long
      intro r hr
      have hlength := (hrecord r hr).2
      simp only [sizeBlockHeader]
      omega

/-- **The height scan.** On a chain it never returns the greatest height whatever memory
holds. On limbo it does if and only if a level holds one or two hashes, there is
a level of the greatest height there is, and some record shows that height
where a header has it. -/
theorem height_scan_iff (env : Env .passed) (dbs : Dbs) :
    (ChainWritten env dbs.chain →
      ¬ ScansGreatest (fun u => dataChainGetHeight env u dbs) (ChainRecorded env dbs.chain)) ∧
    (LimboWritten env dbs.limbo →
      (ScansGreatest (fun u => dataLimboGetHeight env u dbs) (LimboRecorded env dbs.limbo) ↔
        (limboBufferSize env = 36 ∨ limboBufferSize env = 68) ∧
        LimboRecorded env dbs.limbo topHeight ∧
        ∃ key r, dbs.limbo.lookup key = some r ∧
          blockGetHeight env.host (Mem.ofBytes r) = topHeight)) :=
  ⟨fun h => h.not_scansGreatest _, fun h => h.scansGreatest_iff⟩

/-- A node that has `genesis` and has put it on the chain. -/
def linkedNode : Dbs :=
  dataChainSafeSet sampleEnv (fun _ => 0) { genesisNode with chain := ∅ } (Mem.ofBytes genesisHash)

theorem linkedNode_written : ChainWritten sampleEnv linkedNode.chain := .set _ _ _ .empty

/-- A node that has added a block of the greatest height to limbo, into memory that held
ones. -/
def topNode : Dbs := dataLimboSafeAdd sampleEnv (fun _ => 0xff) emptyNode fun _ => 0xff

theorem topNode_written : LimboWritten sampleEnv topNode.limbo := .add _ _ _ .empty

theorem topNode_lookup : topNode.limbo.lookup (hostBytes32 .little topHeight) =
    some (List.replicate 36 0xff) := by
  have hheight : blockGetHeight sampleEnv.host (fun _ => 0xff) = topHeight := by decide
  have hnone : emptyNode.limbo.lookup (hostBytes32 sampleEnv.host topHeight) = none := rfl
  rw [topNode, dataLimboSafeAdd, dataLimboEdit_passed, hheight]
  dsimp only
  rw [limboRecord_add_empty _ _ _ (.inl hnone)]
  exact AList.lookup_insert _

/-- There the scan of limbo is right, and that of the chain is not. -/
theorem height_scan_topNode :
    (ChainWritten sampleEnv linkedNode.chain ∧
      ¬ ScansGreatest (fun u => dataChainGetHeight sampleEnv u linkedNode)
        (ChainRecorded sampleEnv linkedNode.chain)) ∧
    LimboWritten sampleEnv topNode.limbo ∧
    ScansGreatest (fun u => dataLimboGetHeight sampleEnv u topNode)
      (LimboRecorded sampleEnv topNode.limbo) := by
  refine ⟨⟨linkedNode_written, (height_scan_iff sampleEnv linkedNode).1 linkedNode_written⟩,
    topNode_written, ((height_scan_iff sampleEnv topNode).2 topNode_written).mpr
      ⟨.inl rfl, ?_, _, _, topNode_lookup, by decide⟩⟩
  exact Option.isSome_of_eq_some topNode_lookup

/-- A chain on which `genesis` is recorded at height 0 has height 7 if that is what
memory held. -/
theorem height_scan_reads_memory :
    linkedNode.chain.lookup genesisHash = some (hostBytes32 .little 0) ∧
    dataChainGetHeight sampleEnv ⟨7, fun _ => 0⟩ linkedNode = 7 ∧
    ¬ ∀ (env : Env .passed) (dbs : Dbs), ChainWritten env dbs.chain → dbs.chain ≠ ∅ →
      ScansGreatest (fun u => dataChainGetHeight env u dbs) (ChainRecorded env dbs.chain) := by
  have hlookup : linkedNode.chain.lookup genesisHash = some (hostBytes32 .little 0) := by
    decide +kernel
  refine ⟨hlookup, by decide +kernel, ?_⟩
  intro hall
  have hne : linkedNode.chain ≠ ∅ := by
    intro heq
    rw [heq] at hlookup
    cases (AList.lookup_empty _).symm.trans hlookup
  exact linkedNode_written.not_scansGreatest _ (hall _ _ linkedNode_written hne)

end Freecoin
