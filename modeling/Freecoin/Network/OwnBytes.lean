import Freecoin.Body
import Freecoin.Network.Connection
import Freecoin.Network.Exchange

/-!
# A message and what lies behind it

The receive buffer keeps what earlier messages left behind the bytes just
received, and no branch asks how many these are. `messageReads` lists the
bytes that handling a message looks at, `WholeMessage` says when they have
all been received, and `handleMessage_congr` shows that nothing else is
looked at.
-/

namespace Freecoin

open Lib

/-- The predicate looks at the first `len block` bytes of a block only. -/
structure ReadsOnly (valid : Mem → Bool) (len : Mem → ℕ) : Prop where
  same : ∀ block block', Mem.Agree (len block) block block' →
    valid block' = valid block ∧ len block' = len block

variable (env : Env .passed) (len : Mem → ℕ)

/-! ## What is read -/

/-- The parts of a block that filing it reads. -/
def filingReads (u : BlockMem) (dbs : Dbs) (block : Mem) : List (ℕ × ℕ) :=
  let height := blockGetHeight env.host block
  let currHeight := dataChainGetHeight env u.height dbs
  if offTip height currHeight then [(0, sizeBlockHeader)]
  else if height - 1 = currHeight then
    (posBlockPrevHash, sizeSha256) ::
      if blockLinked env u dbs block then [(0, sizeSha256)] else [(0, sizeBlockHeader)]
  else []

/-- The parts of a block that the `CTYPE_BLOCK` branch reads: its height, what
`valid_block` reads, all that `data_blocks_add` walks over and stores if the
block is valid, and what filing it reads. -/
def blockReads (u : BlockMem) (dbs : Dbs) (block : Mem) : List (ℕ × ℕ) :=
  [(posBlockHeight, 4), (0, len block)] ++
    (if env.validBlock block then
      [(0, txEnd env.host block (blockGetTxCount env.host block).toNat sizeBlockHeader),
        (0, blockComputeSize env.host u.addr block)]
    else []) ++ filingReads env u dbs block

/-- The parts of the receive buffer, as position and length, that handling a message
reads. -/
def messageReads (u : MsgMem) (dbs : Dbs) (msg : Mem) : List (ℕ × ℕ) :=
  (posMsgVersion, 2) ::
    if msgVersion env.host msg = clientVersion then
      (posMsgCtype, 1) ::
        if msgCtype msg = ctypeBlock then
          (ctypeBlockPosSize, 4) ::
            (blockReads env len u.block dbs (msg.shift ctypeBlockPosBlock)).map
              fun f => (ctypeBlockPosBlock + f.1, f.2)
        else if msgCtype msg = ctypeTx then
          if dbs.mempool.count < env.maxMempoolSize then txFields env.host msg else []
        else branchFields env.host (msgCtype msg) msg
    else []

/-- A message is judged by the bytes received alone: what the buffer held before makes
no difference, and nothing behind them is read. Of no bytes at all (the end of the stream)
nothing is read. -/
structure OwnBytesOnly (net : Net) (u : MsgMem) (s : Conn) (wire : Bytes) : Prop where
  same : ∀ fuel stale stale',
    handleConnection env net (fun _ => u) fuel [wire] 0 stale s =
      handleConnection env net (fun _ => u) fuel [wire] 0 stale' s
  within : wire ≠ [] → ∀ stale, ∀ f ∈ messageReads env len u s.dbs (recvMsg stale wire),
    f.1 + f.2 ≤ wire.length

/-! ## When it has been received -/

/-- `n` bytes of a message hold all of the block that is read. -/
structure WholeBlock (u : BlockMem) (dbs : Dbs) (block : Mem) (n : ℕ) : Prop where
  height : 4 + (6 + 4) ≤ n
  judged : 4 + len block ≤ n
  stored : env.validBlock block = true →
    4 + txEnd env.host block (blockGetTxCount env.host block).toNat sizeBlockHeader ≤ n ∧
    4 + blockComputeSize env.host u.addr block ≤ n
  filed : offTip (blockGetHeight env.host block) (dataChainGetHeight env u.height dbs) = true →
    4 + 83 ≤ n
  next : offTip (blockGetHeight env.host block) (dataChainGetHeight env u.height dbs) = false →
    blockGetHeight env.host block - 1 = dataChainGetHeight env u.height dbs →
    4 + (10 + 32) ≤ n ∧ (blockLinked env u dbs block = false → 4 + 83 ≤ n)

/-- `n` bytes hold all of the message that is read. The version bytes 0 and 1 are also
the data type and the count of an `<inv>` or `<getdata>`: one block. -/
structure WholeMessage (u : MsgMem) (dbs : Dbs) (msg : Mem) (n : ℕ) : Prop where
  version : 2 ≤ n
  ctype : msgVersion env.host msg = clientVersion → 3 ≤ n
  getblocks : msgVersion env.host msg = clientVersion → msgCtype msg = ctypeGetblocks → 33 ≤ n
  ids : msgVersion env.host msg = clientVersion →
    msgCtype msg = ctypeInv ∨ msgCtype msg = ctypeGetdata → 34 ≤ n
  block : msgVersion env.host msg = clientVersion → msgCtype msg = ctypeBlock →
    WholeBlock env len u.block dbs (msg.shift ctypeBlockPosBlock) n
  tx : msgVersion env.host msg = clientVersion → msgCtype msg = ctypeTx →
    dbs.mempool.count < env.maxMempoolSize → 14 ≤ n ∧
      (claimedSize env.host msg ≤ maxTxSize → 4 + claimedSize env.host msg ≤ n)

section Bounds

variable {env len} {u : MsgMem} {dbs : Dbs} {msg : Mem} {n : ℕ}

theorem filingReads_within {u : BlockMem} {block : Mem} :
    (∀ f ∈ filingReads env u dbs block, 4 + f.1 + f.2 ≤ n) ↔
      (offTip (blockGetHeight env.host block) (dataChainGetHeight env u.height dbs) = true →
        4 + 83 ≤ n) ∧
      (offTip (blockGetHeight env.host block) (dataChainGetHeight env u.height dbs) = false →
        blockGetHeight env.host block - 1 = dataChainGetHeight env u.height dbs →
        4 + (10 + 32) ≤ n ∧ (blockLinked env u dbs block = false → 4 + 83 ≤ n)) := by
  rw [filingReads]
  cases offTip (blockGetHeight env.host block) (dataChainGetHeight env u.height dbs) with
  | true => simp
  | false =>
      by_cases hnext : blockGetHeight env.host block - 1 = dataChainGetHeight env u.height dbs
      · cases blockLinked env u dbs block with
        | true => simp [hnext]; omega
        | false => simp [hnext]
      · simp [hnext]

theorem wholeBlock_iff {u : BlockMem} {block : Mem} :
    WholeBlock env len u dbs block n ↔
      ∀ f ∈ blockReads env len u dbs block, 4 + f.1 + f.2 ≤ n := by
  rw [blockReads, List.forall_mem_append, List.forall_mem_append, filingReads_within]
  constructor
  · intro h
    refine ⟨⟨?_, ?_⟩, h.filed, h.next⟩
    · have hheight := h.height
      have hjudged := h.judged
      simp only [List.forall_mem_cons, posBlockHeight]
      exact ⟨hheight, hjudged, fun f hf => absurd hf List.not_mem_nil⟩
    · split
      · rename_i hvalid
        obtain ⟨hwalk, hsize⟩ := h.stored hvalid
        simp only [List.forall_mem_cons]
        exact ⟨hwalk, hsize, fun f hf => absurd hf List.not_mem_nil⟩
      · exact fun f hf => absurd hf List.not_mem_nil
  · rintro ⟨⟨hfixed, hstored⟩, hfiled, hnext⟩
    simp only [List.forall_mem_cons, posBlockHeight] at hfixed
    refine ⟨hfixed.1, hfixed.2.1, fun hvalid => ?_, hfiled, hnext⟩
    rw [if_pos hvalid] at hstored
    simp only [List.forall_mem_cons] at hstored
    exact ⟨hstored.1, hstored.2.1⟩

theorem version_bytes (h : msgVersion env.host msg = clientVersion) : msg 0 = 0 ∧ msg 1 = 1 := by
  rw [msgVersion_eq] at h
  have hnat := congrArg UInt16.toNat h
  rw [word16_toNat] at hnat
  have hone : clientVersion.toNat = 1 := rfl
  have hlow := (msg 1).toNat_lt
  exact ⟨UInt8.toNat_inj.mp (show (msg 0).toNat = 0 by omega),
    UInt8.toNat_inj.mp (show (msg 1).toNat = 1 by omega)⟩

/-- The fields of a `<tx>` end with the transaction, or with its header if its size is
too large. -/
theorem txFields_within (o : ByteOrder) :
    (∀ f ∈ txFields o msg, f.1 + f.2 ≤ n) ↔
      14 ≤ n ∧ (claimedSize o msg ≤ maxTxSize → 4 + claimedSize o msg ≤ n) := by
  have hsize : claimedSize o msg = sizeTxHeader +
      sizeTxInput * (btous o (msg.shift (ctypeTxPosTx + posTxInCount))).toNat +
      sizeTxOutput * (btous o (msg.shift (ctypeTxPosTx + posTxOutCount))).toNat := by
    rw [claimedSize, txGetSize, Mem.shift_shift, Mem.shift_shift]
  rw [txFields, ← hsize]
  simp only [sizeTxHeader, sizeTxInput, sizeTxOutput, ctypeTxPosTx, posTxInCount, posTxOutCount,
    posTxLockTime, posTxBody] at hsize ⊢
  by_cases hbig : maxTxSize < claimedSize o msg
  · rw [if_pos hbig]
    simp only [List.append_nil, List.forall_mem_cons, List.not_mem_nil, IsEmpty.forall_iff,
      implies_true, and_true]
    omega
  · rw [if_neg hbig]
    simp only [List.cons_append, List.nil_append, List.forall_mem_cons, List.not_mem_nil,
      IsEmpty.forall_iff, implies_true, and_true]
    omega

/-- The fields of the other branches when the version is right. -/
theorem branchFields_within (h : msgVersion env.host msg = clientVersion) (hn : 3 ≤ n)
    {c : UInt8} (hblock : c ≠ ctypeBlock) (htx : c ≠ ctypeTx) :
    (∀ f ∈ branchFields env.host c msg, f.1 + f.2 ≤ n) ↔
      (c = ctypeGetblocks → 33 ≤ n) ∧ (c = ctypeInv ∨ c = ctypeGetdata → 34 ≤ n) := by
  obtain ⟨h0, h1⟩ := version_bytes h
  have hone : idOffsets 32 = [2] := by decide
  simp only [branchFields, if_neg hblock, if_neg htx]
  split_ifs with hreject hgetblocks hinv hids hgetdata hblocks
  · subst hreject
    simp
    omega
  · subst hgetblocks
    simp
    omega
  · subst hinv
    simp [h1]
    omega
  · exact absurd (.inl h0) hids
  · subst hgetdata
    simp [h1, hone]
    omega
  · exact absurd h0 hblocks
  · exact absurd h0 hblocks
  · refine iff_of_true (fun f hf => absurd hf List.not_mem_nil) ⟨fun hc => absurd hc hgetblocks, ?_⟩
    rintro (hc | hc)
    · exact absurd hc hinv
    · exact absurd hc hgetdata

theorem wholeMessage_iff :
    WholeMessage env len u dbs msg n ↔
      ∀ f ∈ messageReads env len u dbs msg, f.1 + f.2 ≤ n := by
  rw [messageReads, List.forall_mem_cons]
  by_cases hright : msgVersion env.host msg = clientVersion
  · rw [if_pos hright, List.forall_mem_cons]
    constructor
    · intro h
      refine ⟨h.version, h.ctype hright, ?_⟩
      split_ifs with hblock htx hroom
      · have hwhole := h.block hright hblock
        refine List.forall_mem_cons.mpr ⟨?_, List.forall_mem_map.mpr (wholeBlock_iff.mp hwhole)⟩
        exact Nat.le_trans (by norm_num) hwhole.height
      · exact (txFields_within env.host).mpr (h.tx hright htx hroom)
      · exact fun f hf => absurd hf List.not_mem_nil
      · exact (branchFields_within hright (h.ctype hright) hblock htx).mpr
          ⟨h.getblocks hright, h.ids hright⟩
    · rintro ⟨hversion, hctype, hbranch⟩
      refine ⟨hversion, fun _ => hctype, fun _ hc => ?_, fun _ hc => ?_, fun _ hc => ?_,
        fun _ hc hroom => ?_⟩
      · rw [hc, if_neg (by decide), if_neg (by decide)] at hbranch
        exact ((branchFields_within hright hctype (by decide) (by decide)).mp hbranch).1 rfl
      · have hne : msgCtype msg ≠ ctypeBlock ∧ msgCtype msg ≠ ctypeTx := by
          rcases hc with hc | hc <;> rw [hc] <;> decide
        rw [if_neg hne.1, if_neg hne.2] at hbranch
        exact ((branchFields_within hright hctype hne.1 hne.2).mp hbranch).2 hc
      · rw [if_pos hc, List.forall_mem_cons, List.forall_mem_map] at hbranch
        exact wholeBlock_iff.mpr hbranch.2
      · rw [hc, if_neg (by decide), if_pos rfl, if_pos hroom] at hbranch
        exact (txFields_within env.host).mp hbranch
  · rw [if_neg hright]
    constructor
    · intro h
      exact ⟨h.version, fun f hf => absurd hf List.not_mem_nil⟩
    · rintro ⟨hversion, -⟩
      exact ⟨hversion, fun h => absurd h hright, fun h => absurd h hright,
        fun h => absurd h hright, fun h => absurd h hright, fun h => absurd h hright⟩

end Bounds

/-! ## Nothing else is looked at -/

section Congr

variable {env len} {u : MsgMem} {dbs : Dbs} {msg msg' : Mem} {n : ℕ}

/-- A block is put in limbo by its header. -/
theorem dataLimboSafeAdd_congr (buffer : Mem) (dbs : Dbs) {block block' : Mem}
    (h : block.slice 0 sizeBlockHeader = block'.slice 0 sizeBlockHeader) :
    dataLimboSafeAdd env buffer dbs block = dataLimboSafeAdd env buffer dbs block' := by
  rw [dataLimboSafeAdd, dataLimboEdit, dataLimboEdit, blockComputeHash_of_header_eq h,
    blockGetHeight_of_header_eq h]

/-- `data_chain_safe_set` looks at the 32 bytes it takes for a hash. -/
theorem dataChainSafeSet_congr (header : Mem) (dbs : Dbs) {hash hash' : Mem}
    (h : hash.slice 0 sizeSha256 = hash'.slice 0 sizeSha256) :
    dataChainSafeSet env header dbs hash = dataChainSafeSet env header dbs hash' := by
  have hkey : Bdb.passed.keyBytes (newDbt hash sizeSha256) =
      Bdb.passed.keyBytes (newDbt hash' sizeSha256) := h
  simp only [dataChainSafeSet, dataBlocksGetHeader_congr dbs h, dbPut, hkey]

theorem blockLinked_congr (u : BlockMem) (dbs : Dbs) {block block' : Mem}
    (h : Mem.Agree 42 block block') :
    blockLinked env u dbs block' = blockLinked env u dbs block := by
  have hslice : block.slice posBlockPrevHash sizeSha256 =
      block'.slice posBlockPrevHash sizeSha256 := h.slice (Nat.le_refl 42)
  rw [blockLinked, blockLinked, hslice]

/-- Storing a block looks at what it walks over and at what it stores. -/
theorem dataBlocksAdd_congr (addr : UInt8) (dbs : Dbs) {block block' : Mem}
    (hwalk : Mem.Agree (txEnd env.host block (blockGetTxCount env.host block).toNat
      sizeBlockHeader) block block')
    (hsize : Mem.Agree (blockComputeSize env.host addr block) block block') :
    dataBlocksAdd env addr dbs block = dataBlocksAdd env addr dbs block' := by
  have hheader : block.slice 0 sizeBlockHeader = block'.slice 0 sizeBlockHeader :=
    hsize.slice (by rw [Nat.zero_add]; exact header_le_blockComputeSize ..)
  have hrecord : blockRecord env addr block = blockRecord env addr block' := by
    have hsame : blockComputeSize env.host addr block' = blockComputeSize env.host addr block :=
      (txEnd_congr hsize).1
    rw [blockRecord, blockRecord, hsame]
    exact hsize.slice (Nat.le_of_eq (Nat.zero_add _))
  have htxs : blockTxHashes env.host env.digest block =
      blockTxHashes env.host env.digest block' := by
    have hbytes := congrArg (List.map env.digest.hash) (txEnd_congr hwalk).2
    rw [List.map_map, List.map_map] at hbytes
    rw [blockTxHashes, blockTxHashes, blockTxs, blockTxs, List.map_map, List.map_map,
      ← blockGetTxCount_of_header_eq hheader]
    exact hbytes.symm
  rw [dataBlocksAdd_passed, dataBlocksAdd_passed, blockComputeHash_of_header_eq hheader, hrecord,
    htxs]

section Block

variable {u : BlockMem} {block block' : Mem} (hwhole : WholeBlock env len u dbs block n)
  (h : ∀ x, 4 + x ≤ n → Mem.Agree x block block')

include hwhole h

theorem WholeBlock.height_congr : blockGetHeight env.host block' = blockGetHeight env.host block :=
  (btoui_congr ((h 10 hwhole.height).shift (k := 6) (j := 4) (Nat.le_refl _))).symm

theorem WholeBlock.storeBlock_congr (hvalid : ReadsOnly env.validBlock len) :
    storeBlock env u dbs block' = storeBlock env u dbs block := by
  rw [storeBlock, storeBlock, (hvalid.same block block' (h _ hwhole.judged)).1]
  split
  · rename_i hv
    obtain ⟨hwalk, hsize⟩ := hwhole.stored hv
    exact (dataBlocksAdd_congr u.addr dbs (h _ hwalk) (h _ hsize)).symm
  · rfl

/-- The call that files the block, if there is one, does the same. -/
theorem WholeBlock.filings_congr :
    receivedFilings env u dbs block' = receivedFilings env u dbs block ∧
    ∀ f ∈ receivedFilings env u dbs block, ∀ s,
      applyFiling env u block' s f = applyFiling env u block s f := by
  have hlimbo : 4 + 83 ≤ n → ∀ s,
      applyFiling env u block' s .limbo = applyFiling env u block s .limbo := fun hn s =>
    dataLimboSafeAdd_congr u.limboBuffer s
      ((h 83 hn).slice (Nat.le_of_eq (Nat.zero_add _))).symm
  rw [receivedFilings, receivedFilings, hwhole.height_congr h, blockFilings, blockFilings]
  cases hoff : offTip (blockGetHeight env.host block) (dataChainGetHeight env u.height dbs) with
  | true => exact ⟨rfl, List.forall_mem_singleton.mpr (hlimbo (hwhole.filed hoff))⟩
  | false =>
      rw [if_neg Bool.false_ne_true, if_neg Bool.false_ne_true]
      by_cases hnext : blockGetHeight env.host block - 1 = dataChainGetHeight env u.height dbs
      · obtain ⟨hprev, hother⟩ := hwhole.next hoff hnext
        rw [if_pos hnext, if_pos hnext, blockLinked_congr u dbs (h 42 hprev)]
        refine ⟨rfl, ?_⟩
        cases hl : blockLinked env u dbs block with
        | true =>
            exact List.forall_mem_singleton.mpr fun s =>
              dataChainSafeSet_congr u.chainHeader s
                ((h 42 hprev).slice (a := 0) (k := 32) (by norm_num)).symm
        | false => exact List.forall_mem_singleton.mpr (hlimbo (hother hl))
      · rw [if_neg hnext, if_neg hnext]
        exact ⟨rfl, fun f hf => absurd hf List.not_mem_nil⟩

theorem WholeBlock.fileBlock_congr (hvalid : ReadsOnly env.validBlock len) :
    fileBlock env u dbs block' = fileBlock env u dbs block := by
  obtain ⟨hfilings, happly⟩ := hwhole.filings_congr h
  rw [fileBlock, fileBlock, hfilings, hwhole.storeBlock_congr h hvalid]
  exact List.foldl_ext _ _ _ fun s f hf => happly f hf s

theorem WholeBlock.reply_congr :
    blockReply env u dbs block' = blockReply env u dbs block ∧
    ∀ resp, blockResp env u dbs block' resp = blockResp env u dbs block resp := by
  simp only [blockReply, blockResp, hwhole.height_congr h]
  split
  · rename_i hoff
    have hheader : block'.slice 0 sizeBlockHeader = block.slice 0 sizeBlockHeader :=
      ((h 83 (hwhole.filed hoff)).slice (Nat.le_of_eq (Nat.zero_add _))).symm
    rw [blockComputeHash_of_header_eq hheader]
    exact ⟨rfl, fun _ => rfl⟩
  · exact ⟨rfl, fun _ => rfl⟩

/-- What is whole in one buffer is whole in any buffer that shows the same bytes. -/
theorem WholeBlock.congr (hvalid : ReadsOnly env.validBlock len) :
    WholeBlock env len u dbs block' n := by
  obtain ⟨hjudged, hlen⟩ := hvalid.same block block' (h _ hwhole.judged)
  have hheight := hwhole.height_congr h
  refine ⟨hwhole.height, hlen ▸ hwhole.judged, ?_, ?_, ?_⟩
  · intro hv
    obtain ⟨hwalk, hsize⟩ := hwhole.stored (hjudged.symm.trans hv)
    have hheader : block.slice 0 sizeBlockHeader = block'.slice 0 sizeBlockHeader :=
      (h _ hsize).slice (by rw [Nat.zero_add]; exact header_le_blockComputeSize ..)
    have hsame : blockComputeSize env.host u.addr block' =
        blockComputeSize env.host u.addr block := (txEnd_congr (h _ hsize)).1
    rw [← blockGetTxCount_of_header_eq hheader, (txEnd_congr (h _ hwalk)).1, hsame]
    exact ⟨hwalk, hsize⟩
  · rw [hheight]
    exact hwhole.filed
  · rw [hheight]
    intro hoff hnext
    obtain ⟨hprev, hother⟩ := hwhole.next hoff hnext
    rw [blockLinked_congr u dbs (h 42 hprev)]
    exact ⟨hprev, hother⟩

end Block

/-- The `<tx>` branch looks at the transaction, or at its header if its size is too
large. -/
theorem rebuiltTx_congr (dest : Mem) (h : Mem.Agree n msg msg') (hn : 14 ≤ n)
    (hsize : claimedSize env.host msg ≤ maxTxSize → 4 + claimedSize env.host msg ≤ n) :
    rebuiltTx env dest msg' = rebuiltTx env dest msg := by
  have hbody : Mem.Agree 10 (msg.shift 4) (msg'.shift 4) := h.shift hn
  have hin := btous_congr (o := env.host) (hbody.shift (k := 2) (j := 2) (by norm_num))
  have hout := btous_congr (o := env.host) (hbody.shift (k := 4) (j := 2) (by norm_num))
  have hlock := btoui_congr (o := env.host) (hbody.shift (k := 6) (j := 4) (by norm_num))
  rw [rebuiltTx, rebuiltTx, ctypeTxPosTx, posTxInCount, posTxOutCount, posTxLockTime, posTxBody,
    ← hin, ← hout, ← hlock]
  refine (mTxGen_congr dest fun hfits => ?_).symm
  have hlen : 4 + claimedSize env.host msg ≤ n := hsize hfits
  have hwhole : Mem.Agree (claimedSize env.host msg) (msg.shift 4) (msg'.shift 4) := h.shift hlen
  have hclaimed : claimedSize env.host msg =
      10 + 290 * (btous env.host ((msg.shift 4).shift 2)).toNat +
        36 * (btous env.host ((msg.shift 4).shift 4)).toNat := rfl
  rw [hclaimed] at hwhole
  refine ⟨hwhole.shift ?_, hwhole.shift ?_⟩
  · exact Nat.le_add_right _ _
  · simp only [sizeTxInput, sizeTxOutput]
    omega

theorem handleTx_congr (dest : Mem) (e : EntryMem) (h : Mem.Agree n msg msg')
    (hn : dbs.mempool.count < env.maxMempoolSize → 14 ≤ n ∧
      (claimedSize env.host msg ≤ maxTxSize → 4 + claimedSize env.host msg ≤ n)) :
    handleTx env dest e dbs msg' = handleTx env dest e dbs msg := by
  by_cases hroom : dbs.mempool.count < env.maxMempoolSize
  · obtain ⟨hheader, hsize⟩ := hn hroom
    rw [handleTx_room hroom, handleTx_room hroom, rebuiltTx_congr dest h hheader hsize]
  · rw [handleTx, handleTx, if_neg hroom, if_neg hroom]

theorem handleGetblocks_congr (u : BuildMem) (resp : Mem) (h : Mem.Agree n msg msg')
    (hn : 33 ≤ n) :
    handleGetblocks env u dbs resp msg' = handleGetblocks env u dbs resp msg := by
  have hstart : (msg'.shift ctypeGetblocksPosStartBlock).slice 0 sizeSha256 =
      (msg.shift ctypeGetblocksPosStartBlock).slice 0 sizeSha256 :=
    ((h.shift (k := 0) (j := 32) (by omega)).slice (Nat.le_refl _)).symm
  have hcount : msg' ctypeGetblocksPosBlockCount = msg ctypeGetblocksPosBlockCount :=
    (h 32 (by omega)).symm
  have hlist : ∀ dest, buildBlockList env u dbs (msg'.shift ctypeGetblocksPosStartBlock)
      (msg' ctypeGetblocksPosBlockCount) dest =
        buildBlockList env u dbs (msg.shift ctypeGetblocksPosStartBlock)
          (msg ctypeGetblocksPosBlockCount) dest := by
    intro dest
    rw [hcount, buildBlockList, buildBlockList, blockListIndex, blockListIndex,
      dataBlocksGetHeader_congr dbs hstart]
  rw [handleGetblocks, handleGetblocks, hlist]

/-- An `<inv>` of the right version lists one block. -/
theorem handleInv_congr (resp : Mem) (h : Mem.Agree n msg msg') (hn : 34 ≤ n)
    (hdtype : msg 0 = dtypeBlock) (hcount : msg 1 = 1) :
    handleInv .passed dbs resp msg' = handleInv .passed dbs resp msg := by
  have hdtype' : msg' 0 = dtypeBlock := (h 0 (by omega)).symm.trans hdtype
  have hcount' : msg' 1 = 1 := (h 1 (by omega)).symm.trans hcount
  have hlist : ∀ dest, buildMissingBlocksList .passed dbs (msg'.shift ctypeInvPosIds) 1 dest =
      buildMissingBlocksList .passed dbs (msg.shift ctypeInvPosIds) 1 dest := by
    intro dest
    have hids : ∀ i ∈ List.range (1 : UInt8).toNat,
        ((msg'.shift ctypeInvPosIds).shift (i * sizeSha256)).slice 0 sizeSha256 =
          ((msg.shift ctypeInvPosIds).shift (i * sizeSha256)).slice 0 sizeSha256 := by
      intro i hi
      obtain rfl : i = 0 := by simpa using hi
      rw [Mem.shift_shift, Mem.shift_shift]
      exact ((h.shift hn).slice (Nat.le_refl _)).symm
    rw [buildMissingBlocksList, buildMissingBlocksList, missingLoop_congr
      (fun _ _ h => dataBlocksExists_congr dbs h) _ _ _ hids]
  rw [handleInv, handleInv, ctypeInvPosDatatype, ctypeInvPosIdsCount, if_pos hdtype,
    if_pos hdtype', hcount, hcount', hlist]

/-- A `<getdata>` of the right version asks for one block. -/
theorem handleGetdata_congr (net : Net) (addr : UInt8) (resp : Mem) (h : Mem.Agree n msg msg')
    (hn : 34 ≤ n) (hdtype : msg 0 = dtypeBlock) (hcount : msg 1 = 1) :
    handleGetdata env net addr dbs resp msg' = handleGetdata env net addr dbs resp msg := by
  have hdtype' : msg' 0 = dtypeBlock := (h 0 (by omega)).symm.trans hdtype
  have hcount' : msg' 1 = 1 := (h 1 (by omega)).symm.trans hcount
  have hid : (msg'.shift 2).slice 0 sizeSha256 = (msg.shift 2).slice 0 sizeSha256 :=
    ((h.shift hn).slice (Nat.le_refl _)).symm
  have hpass : ∀ resp,
      answerBlock env addr dbs msg' resp 2 = answerBlock env addr dbs msg resp 2 := by
    intro resp
    rw [answerBlock, answerBlock, dataBlocksExists_passed, dataBlocksExists_passed, hid,
      dataBlocksGet_congr dbs hid]
  have hoffsets : ∀ m : Mem, m 1 = 1 → idOffsets (idsCount m * 32).toNat = [2] := by
    intro m hm
    rw [idsCount, ctypeGetdataPosIdsCount, hm]
    decide
  rw [handleGetdata, handleGetdata, ctypeGetdataPosDatatype, if_pos hdtype, if_pos hdtype',
    hoffsets msg hcount, hoffsets msg' hcount']
  exact collectState_congr _ _ (List.forall_mem_singleton.mpr hpass)

section Message

variable (hvalid : ReadsOnly env.validBlock len) (hwhole : WholeMessage env len u dbs msg n)
  (h : Mem.Agree n msg msg')

include hwhole h

theorem WholeMessage.version_congr :
    msgVersion env.host msg' = clientVersion ↔ msgVersion env.host msg = clientVersion := by
  rw [msgVersion_eq, msgVersion_eq, ← h 0 (Nat.lt_of_lt_of_le (by norm_num) hwhole.version),
    ← h 1 hwhole.version]

theorem WholeMessage.ctype_congr (hright : msgVersion env.host msg = clientVersion) :
    msgCtype msg' = msgCtype msg :=
  (h 2 (hwhole.ctype hright)).symm

include hvalid

theorem WholeMessage.congr : WholeMessage env len u dbs msg' n := by
  have hversion := hwhole.version_congr h
  have hctype := fun hright => hwhole.ctype_congr h (hversion.mp hright)
  refine ⟨hwhole.version, fun hright => hwhole.ctype (hversion.mp hright), ?_, ?_, ?_, ?_⟩
  · intro hright
    rw [hctype hright]
    exact hwhole.getblocks (hversion.mp hright)
  · intro hright
    rw [hctype hright]
    exact hwhole.ids (hversion.mp hright)
  · intro hright
    rw [hctype hright]
    intro hc
    exact (hwhole.block (hversion.mp hright) hc).congr (fun x hx => h.shift hx) hvalid
  · intro hright
    rw [hctype hright]
    intro hc hroom
    obtain ⟨hheader, hsize⟩ := hwhole.tx (hversion.mp hright) hc hroom
    have hclaimed : claimedSize env.host msg = claimedSize env.host msg' :=
      txGetSize_congr env.host (h.shift hheader)
    rw [← hclaimed]
    exact ⟨hheader, hsize⟩

/-- **Frame of a message.** A message that has been received as far as it is read is
handled in the same way whatever comes after it. -/
theorem WholeMessage.handleMessage_congr (net : Net) (fuel : ℕ) (resp : Mem)
    (hright : msgVersion env.host msg = clientVersion) :
    handleMessage env net u fuel ⟨dbs, resp⟩ msg' =
      handleMessage env net u fuel ⟨dbs, resp⟩ msg := by
  obtain ⟨h0, h1⟩ := version_bytes hright
  rw [handleMessage, handleMessage, hwhole.ctype_congr h hright]
  refine ite_congr rfl (fun _ => rfl) fun _ => ?_
  refine ite_congr rfl (fun hgetblocks => ?_) fun _ => ?_
  · rw [handleGetblocks_congr u.build resp h (hwhole.getblocks hright hgetblocks)]
  refine ite_congr rfl (fun _ => rfl) fun _ => ?_
  refine ite_congr rfl (fun hinv => ?_) fun _ => ?_
  · rw [handleInv_congr resp h (hwhole.ids hright (.inl hinv)) h0 h1]
  refine ite_congr rfl (fun hgetdata => ?_) fun _ => ?_
  · rw [handleGetdata_congr net u.addr resp h (hwhole.ids hright (.inr hgetdata)) h0 h1]
  refine ite_congr rfl (fun hblock => ?_) fun _ => ?_
  · have hpart := hwhole.block hright hblock
    have hshift : ∀ x, 4 + x ≤ n →
        Mem.Agree x (msg.shift ctypeBlockPosBlock) (msg'.shift ctypeBlockPosBlock) :=
      fun x hx => h.shift hx
    obtain ⟨hreply, hresp⟩ := hpart.reply_congr hshift
    rw [handleBlock, handleBlock, hpart.fileBlock_congr hshift hvalid, hreply, hresp]
  refine ite_congr rfl (fun htx => ?_) fun _ => rfl
  rw [handleTx_congr u.dest u.entry h (hwhole.tx hright htx)]

end Message

end Congr

/-- **Own bytes.** A message is judged by the bytes received alone if and only if they
are all of it that is read, or none came and the loop ends. -/
theorem ownBytesOnly_iff (env : Env .passed) (len : Mem → ℕ)
    (hvalid : ReadsOnly env.validBlock len) (net : Net) (u : MsgMem) (s : Conn) (wire : Bytes)
    (hwire : wire.length ≤ maxMsgSize) :
    OwnBytesOnly env len net u s wire ↔
      wire = [] ∨ WholeMessage env len u s.dbs (Mem.ofBytes wire) wire.length := by
  have hrecv : ∀ stale, recvMsg stale wire = stale.load wire := by
    intro stale
    rw [recvMsg, List.take_of_length_le hwire]
  have hagree : ∀ stale, Mem.Agree wire.length (Mem.ofBytes wire) (recvMsg stale wire) := by
    intro stale i hi
    rw [hrecv, Mem.ofBytes, Mem.load_lt hi, Mem.load_lt hi]
  constructor
  · intro h
    by_cases hend : wire = []
    · exact .inl hend
    · have hzero := h.within hend fun _ => 0
      rw [hrecv] at hzero
      exact .inr (wholeMessage_iff.mpr hzero)
  · rintro (hend | hwhole)
    · refine ⟨fun fuel stale stale' => ?_, fun hsome => absurd hend hsome⟩
      rw [handleConnection, handleConnection, if_pos hend, if_pos hend]
    have hend : wire ≠ [] := fun hnil => by
      have hversion := hwhole.version
      rw [hnil] at hversion
      exact absurd hversion (by decide)
    refine ⟨?_, fun _ stale => wholeMessage_iff.mp (hwhole.congr hvalid (hagree stale))⟩
    -- each buffer is handled like the one with zeros behind the message
    have hsame : ∀ fuel stale, handleConnection env net (fun _ => u) fuel [wire] 0 stale s =
        handleConnection env net (fun _ => u) fuel [wire] 0 (fun _ => 0) s := by
      intro fuel stale
      have hzero : recvMsg (fun _ => 0) wire = Mem.ofBytes wire := hrecv _
      rw [handleConnection, handleConnection, hzero, if_neg hend, if_neg hend]
      by_cases hright : msgVersion env.host (Mem.ofBytes wire) = clientVersion
      · rw [if_pos hright, if_pos ((hwhole.version_congr (hagree stale)).mpr hright),
          hwhole.handleMessage_congr hvalid (hagree stale) net fuel s.resp hright,
          hwhole.ctype_congr (hagree stale) hright]
        rfl
      · rw [if_neg hright, if_neg (mt (hwhole.version_congr (hagree stale)).mp hright)]
    intro fuel stale stale'
    rw [hsame, hsame fuel stale']

/-- `valid_block` looks at nothing if it accepts everything. -/
theorem sampleEnv_readsOnly : ReadsOnly sampleEnv.validBlock fun _ => 0 :=
  ⟨fun _ _ _ => ⟨rfl, rfl⟩⟩

/-- A `<tx>` with an input and two outputs. -/
def txMessage : Bytes := [0, 1, ctypeTx, 0] ++ (filledTx .little 1 2 5).bytes

theorem txMessage_length : txMessage.length = 376 := by
  rw [txMessage, List.length_append, filledTx_length]
  rfl

theorem claimedSize_txMessage : claimedSize .little (Mem.ofBytes txMessage) = 372 := by
  have htx : (Mem.ofBytes txMessage).slice 4 (filledTx .little 1 2 5).bytes.length =
      (filledTx .little 1 2 5).bytes := by
    rw [Mem.slice_ofBytes_inside (by rw [filledTx_length, txMessage_length]; decide)]
    exact List.take_length
  exact (SerialTx.txGetSize_eq htx).trans (filledTx_length ..)

/-- All of it has come, and nothing behind it is looked at. -/
theorem txMessage_ownBytes :
    ReadsOnly sampleEnv.validBlock (fun _ => 0) ∧ txMessage.length ≤ maxMsgSize ∧
    OwnBytesOnly sampleEnv (fun _ => 0) ⟨[], true⟩ .zero ⟨emptyNode, fun _ => 0⟩ txMessage := by
  have hfits : txMessage.length ≤ maxMsgSize := by
    rw [txMessage_length]
    decide
  refine ⟨sampleEnv_readsOnly, hfits, (ownBytesOnly_iff sampleEnv (fun _ => 0)
    sampleEnv_readsOnly ⟨[], true⟩ .zero ⟨emptyNode, fun _ => 0⟩ txMessage hfits).mpr (.inr ?_)⟩
  have hctype : msgCtype (Mem.ofBytes txMessage) = ctypeTx := rfl
  have hclaimed : claimedSize sampleEnv.host (Mem.ofBytes txMessage) = 372 := claimedSize_txMessage
  rw [txMessage_length]
  refine ⟨by decide, fun _ => by decide, fun _ _ => by decide, fun _ _ => by decide, ?_, ?_⟩
  · intro _ hblock
    cases hctype.symm.trans hblock
  · intro _ _ _
    rw [hclaimed]
    exact ⟨by decide, fun _ => by decide⟩

/-- Three bytes announce a `<tx>` and bring none of it: what the buffer held before
decides whether an entry is made or the process exits. -/
theorem tx_header_alone :
    ReadsOnly sampleEnv.validBlock (fun _ => 0) ∧ [(0 : UInt8), 1, 6].length ≤ maxMsgSize ∧
    ¬ OwnBytesOnly sampleEnv (fun _ => 0) ⟨[], true⟩ .zero ⟨emptyNode, fun _ => 0⟩ [0, 1, 6] := by
  refine ⟨sampleEnv_readsOnly, by decide, ?_⟩
  intro h
  have hzeros : ∃ ctype received dbs sent, handleConnection sampleEnv ⟨[], true⟩ (fun _ => .zero) 0
      [[0, 1, 6]] 0 (fun _ => 0) ⟨emptyNode, fun _ => 0⟩ =
        [.handled ctype received dbs sent] := ⟨_, _, _, _, rfl⟩
  have hones : ∃ received fault, handleConnection sampleEnv ⟨[], true⟩ (fun _ => .zero) 0
      [[0, 1, 6]] 0 (fun _ => 0xff) ⟨emptyNode, fun _ => 0⟩ = [.died received fault] :=
    ⟨_, _, rfl⟩
  obtain ⟨ctype, received, dbs, sent, hzeros⟩ := hzeros
  obtain ⟨received', fault, hones⟩ := hones
  have hsame := h.same 0 (fun _ => 0) fun _ => 0xff
  rw [hzeros, hones] at hsame
  simp at hsame

end Freecoin
