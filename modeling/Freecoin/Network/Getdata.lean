import Freecoin.Network.Handle
import Freecoin.Network.Wire

/-!
# network.c: answering `<getdata>`

Both loops run over byte offsets in the message, from the first id on in steps
of 32. For blocks the bound is `count * SIZE_SHA256` in an 8-bit variable, so
the loop sees the first `count % 8` ids. For transactions the bound is `count`
itself, so it sees the first `(count + 29) / 32` ids, and the entry is fetched
with the byte offset as its index.
-/

namespace Freecoin

open Lib

/-! ## The ids of a request -/

/-- Where the ids of a request for `n` of them lie. -/
def requestOffsets (n : ℕ) : List ℕ :=
  (List.range n).map fun k => ctypeGetdataPosIds + sizeSha256 * k

/-- `msg[CTYPE_GETDATA_POS_IDS_COUNT]`. -/
def idsCount (msg : Mem) : UInt8 := msg ctypeGetdataPosIdsCount

/-- The id at offset `i`. -/
def idAt (msg : Mem) (i : ℕ) : Bytes := msg.slice i sizeSha256

/-- A loop with bound `max` sees the ids that start before it. -/
theorem idOffsets_eq {max n : ℕ} (h : (max - 2 + 31) / 32 = n) :
    idOffsets max = requestOffsets n := by
  have hlen : (max - ctypeGetdataPosIds + 31) / sizeSha256 = n := h
  rw [idOffsets, requestOffsets, hlen]
  apply List.ext_getElem
  · simp
  · intro k _ _
    simp

theorem requestOffsets_split {m n : ℕ} (h : m ≤ n) :
    requestOffsets n = requestOffsets m ++
      (List.range' m (n - m)).map fun k => ctypeGetdataPosIds + sizeSha256 * k := by
  obtain ⟨d, rfl⟩ := Nat.exists_eq_add_of_le h
  rw [requestOffsets, requestOffsets, ← List.map_append, Nat.add_sub_cancel_left]
  congr 1
  have happend := List.range'_append_1 (s := 0) (m := m) (n := d)
  rw [Nat.zero_add] at happend
  rw [List.range_eq_range', List.range_eq_range', happend]

/-- A loop over the first ids answers the whole request if and only if there is
nothing to answer for the others. -/
theorem collect_requested_iff {σ : Type} {pass : σ → ℕ → Except Fault (σ × List Sent)}
    {want : ℕ → List Sent}
    (hlength : ∀ s i s' sent, pass s i = .ok (s', sent) → sent.length = (want i).length)
    {max m n : ℕ} (hmax : (max - 2 + 31) / 32 = m) (hle : m ≤ n) (s : σ) :
    collect pass (idOffsets max) s = .ok ((requestOffsets n).flatMap want) ↔
      (∀ k, m ≤ k → k < n → want (ctypeGetdataPosIds + sizeSha256 * k) = []) ∧
      Collects pass want (requestOffsets m) s := by
  rw [idOffsets_eq hmax, requestOffsets_split hle, collect_eq_ok_iff hlength]
  refine and_congr_left fun _ => ?_
  constructor
  · intro hnone k hlo hhi
    exact hnone _ (List.mem_map.mpr ⟨k, List.mem_range'_1.mpr (by omega), rfl⟩)
  · intro hnone i hi
    obtain ⟨k, hk, rfl⟩ := List.mem_map.mp hi
    obtain ⟨hlo, hhi⟩ := List.mem_range'_1.mp hk
    exact hnone k hlo (by omega)

/-! ## Blocks -/

section Blocks

variable {B : Bdb} (env : Env B)

/-- One pass of the loop over block ids, at offset `i`: the response buffer and
what was sent. `addr` is the low byte of the address that `block_compute_size`
takes for a count. -/
def answerBlock (addr : UInt8) (dbs : Dbs) (msg resp : Mem) (i : ℕ) :
    Except Fault (Mem × List Sent) :=
  let hash := msg.shift i
  if dataBlocksExists B dbs hash then
    let resp := resp.splice ctypeBlockPosBlock
      (dataBlocksGet B dbs hash (resp.shift ctypeBlockPosBlock)).2
    let size := blockComputeSize env.host addr (resp.shift ctypeBlockPosBlock)
    let resp := resp.write ctypeBlockPosSize (uitob (UInt32.ofNat size))
    .ok (resp, [.toPeer ctypeBlock (resp.slice 0 (4 + size))])
  else .ok (resp, [])

/-- The `CTYPE_GETDATA` branch for `DTYPE_BLOCK`: what was sent. -/
def getdataBlocks (addr : UInt8) (dbs : Dbs) (resp msg : Mem) : Except Fault (List Sent) :=
  -- `uchar max = count * SIZE_SHA256`
  let max : UInt8 := idsCount msg * 32
  collect (answerBlock env addr dbs msg) (idOffsets max.toNat) resp

/-- What the README asks to be sent for the id at offset `i`. -/
def wantedBlock (dbs : Dbs) (msg : Mem) (i : ℕ) : List Sent :=
  match dbs.blocks.lookup (idAt msg i) with
  | none => []
  | some r => [.toPeer ctypeBlock (uitob (UInt32.ofNat r.length) ++ r)]

/-- What the README asks to be sent for the whole request. -/
def wantedBlocks (dbs : Dbs) (msg : Mem) : List Sent :=
  (requestOffsets (idsCount msg).toNat).flatMap (wantedBlock dbs msg)

end Blocks

/-- The block buffer after a record was read into it. -/
def readRecord (buffer : Mem) (r : Bytes) : Mem :=
  if r.length ≤ maxBlockSize then buffer.load r else buffer

/-- The records asked for, read one after the other into `buffer`, come out again:
the buffer shows the record, and the size computed from the buffer is its
length. -/
def ReadsBack (o : ByteOrder) (addr : UInt8) (dbs : Dbs) (msg : Mem) : List ℕ → Mem → Prop
  | [], _ => True
  | i :: rest, buffer =>
      match dbs.blocks.lookup (idAt msg i) with
      | none => ReadsBack o addr dbs msg rest buffer
      | some r =>
          (readRecord buffer r).slice 0 r.length = r ∧
          blockComputeSize o addr (readRecord buffer r) = r.length ∧
          ReadsBack o addr dbs msg rest (readRecord buffer r)

section Passed

variable (env : Env .passed) (addr : UInt8) (dbs : Dbs) (msg : Mem)

theorem dataBlocksGet_of_lookup {hash dest : Mem} {r : Bytes}
    (h : dbs.blocks.lookup (hash.slice 0 sizeSha256) = some r) :
    (dataBlocksGet .passed dbs hash dest).2 = readRecord dest r := by
  unfold readRecord
  rcases dataBlocksGet_cases dbs hash dest with ⟨r', hr', hfit, hget⟩ | ⟨hlong, hget⟩
  · obtain rfl : r' = r := Option.some_inj.mp (hr'.symm.trans h)
    rw [hget, if_pos hfit]
  · rw [hget, if_neg (Nat.not_le.mpr (hlong r h))]

/-- The pass for an id that is not stored. -/
theorem answerBlock_absent {i : ℕ} (h : dbs.blocks.lookup (idAt msg i) = none) (resp : Mem) :
    answerBlock env addr dbs msg resp i = .ok (resp, []) := by
  have hfound : dataBlocksExists .passed dbs (msg.shift i) = false := by
    rw [dataBlocksExists_passed, Mem.slice_shift, Nat.add_zero]
    exact congrArg Option.isSome h
  unfold answerBlock
  exact if_neg (Bool.not_eq_true _ ▸ hfound)

/-- The response buffer after a stored id was answered with `body`. -/
def answered (o : ByteOrder) (addr : UInt8) (resp body : Mem) : Mem :=
  (resp.splice 4 body).write 0 (uitob (UInt32.ofNat (blockComputeSize o addr body)))

theorem answered_shift (o : ByteOrder) (resp body : Mem) :
    (answered o addr resp body).shift 4 = body := by
  rw [answered, Mem.shift_write (by simp), Mem.shift_splice]

/-- The pass for a stored id sends the computed size and that much of the buffer. -/
theorem answerBlock_stored {i : ℕ} {r : Bytes} (h : dbs.blocks.lookup (idAt msg i) = some r)
    (resp : Mem) {body : Mem} (hbody : readRecord (resp.shift 4) r = body) :
    answerBlock env addr dbs msg resp i = .ok (answered env.host addr resp body,
      [.toPeer ctypeBlock (uitob (UInt32.ofNat (blockComputeSize env.host addr body)) ++
        body.slice 0 (blockComputeSize env.host addr body))]) := by
  have hid : dbs.blocks.lookup ((msg.shift i).slice 0 sizeSha256) = some r := by
    rw [Mem.slice_shift]
    exact h
  have hfound : dataBlocksExists .passed dbs (msg.shift i) = true := by
    rw [dataBlocksExists_passed, hid]
    rfl
  have hget : (dataBlocksGet .passed dbs (msg.shift i) (resp.shift 4)).2 = body :=
    (dataBlocksGet_of_lookup dbs hid).trans hbody
  have hsent : (answered env.host addr resp body).slice 0
      (4 + blockComputeSize env.host addr body) =
        uitob (UInt32.ofNat (blockComputeSize env.host addr body)) ++
          body.slice 0 (blockComputeSize env.host addr body) := by
    have hbytes := Mem.slice_shift (answered env.host addr resp body) 4 0
      (blockComputeSize env.host addr body)
    rw [answered_shift] at hbytes
    rw [Mem.slice_append, hbytes, answered, Mem.slice_write_of_length (uitob_length _)]
  unfold answerBlock
  rw [if_pos hfound]
  simp only [ctypeBlockPosBlock, ctypeBlockPosSize, hget, Mem.shift_splice]
  rw [← hsent]
  rfl

/-- A stored id is answered as asked if and only if the buffer shows the record and
its computed size is the record's length. -/
theorem answer_eq_wanted_iff {body : Mem} {r : Bytes} {size : ℕ} :
    uitob (UInt32.ofNat size) ++ body.slice 0 size = uitob (UInt32.ofNat r.length) ++ r ↔
      body.slice 0 r.length = r ∧ size = r.length := by
  constructor
  · intro h
    obtain ⟨-, hbody⟩ := List.append_inj h rfl
    have hlen : size = r.length := by
      rw [← hbody, Mem.slice_length]
    subst hlen
    exact ⟨hbody, rfl⟩
  · rintro ⟨hbody, rfl⟩
    rw [hbody]

theorem collects_iff_readsBack : ∀ (offsets : List ℕ) (resp : Mem),
    Collects (answerBlock env addr dbs msg) (wantedBlock dbs msg) offsets resp ↔
      ReadsBack env.host addr dbs msg offsets (resp.shift 4) := by
  intro offsets
  induction offsets with
  | nil => intro resp; exact Iff.rfl
  | cons i rest ih =>
      intro resp
      rw [Collects, ReadsBack, wantedBlock]
      cases hr : dbs.blocks.lookup (idAt msg i) with
      | none =>
          rw [answerBlock_absent env addr dbs msg hr]
          dsimp only
          rw [← ih]
          constructor
          · rintro ⟨resp', hpass, hrest⟩
            cases hpass
            exact hrest
          · intro hrest
            exact ⟨resp, rfl, hrest⟩
      | some r =>
          rw [answerBlock_stored env addr dbs msg hr resp rfl]
          dsimp only
          rw [← and_assoc, ← answer_eq_wanted_iff]
          constructor
          · rintro ⟨resp', hpass, hrest⟩
            simp only [Except.ok.injEq, Prod.mk.injEq, List.cons.injEq, Sent.toPeer.injEq,
              and_true, true_and] at hpass
            obtain ⟨rfl, hsent⟩ := hpass
            refine ⟨hsent, ?_⟩
            rw [ih, answered_shift] at hrest
            exact hrest
          · rintro ⟨hsent, hrest⟩
            refine ⟨answered env.host addr resp (readRecord (resp.shift 4) r), by rw [hsent], ?_⟩
            rw [ih, answered_shift]
            exact hrest

/-- A pass sends one message for a stored id and none for another. -/
theorem answerBlock_length (resp : Mem) (i : ℕ) (resp' : Mem) (sent : List Sent)
    (h : answerBlock env addr dbs msg resp i = .ok (resp', sent)) :
    sent.length = (wantedBlock dbs msg i).length := by
  rw [wantedBlock]
  cases hr : dbs.blocks.lookup (idAt msg i) with
  | none =>
      rw [answerBlock_absent env addr dbs msg hr] at h
      cases h
      rfl
  | some r =>
      rw [answerBlock_stored env addr dbs msg hr resp rfl] at h
      cases h
      rfl

theorem wantedBlock_eq_nil_iff (i : ℕ) :
    wantedBlock dbs msg i = [] ↔ dbs.blocks.lookup (idAt msg i) = none := by
  rw [wantedBlock]
  cases dbs.blocks.lookup (idAt msg i) with
  | none => exact ⟨fun _ => rfl, fun _ => rfl⟩
  | some r => exact ⟨fun h => absurd h (List.cons_ne_nil _ _), fun h => nomatch h⟩

/-- **Answering for blocks.** A request is answered as documented if and only if
none of the ids from the `count % 8`-th on is stored, and the records of the
ids before it come out of the buffer as they are stored. -/
theorem getdataBlocks_wanted_iff (env : Env .passed) (addr : UInt8) (dbs : Dbs) (resp msg : Mem) :
    getdataBlocks env addr dbs resp msg = .ok (wantedBlocks dbs msg) ↔
      (∀ k, (idsCount msg).toNat % 8 ≤ k → k < (idsCount msg).toNat →
        dbs.blocks.lookup (idAt msg (ctypeGetdataPosIds + sizeSha256 * k)) = none) ∧
      ReadsBack env.host addr dbs msg (requestOffsets ((idsCount msg).toNat % 8))
        (resp.shift ctypeBlockPosBlock) := by
  -- `count * 32` modulo 256 is 32 times `count` modulo 8
  have hmax : ((idsCount msg * 32).toNat - 2 + 31) / 32 = (idsCount msg).toNat % 8 := by
    have h32 : (32 : UInt8).toNat = 32 := rfl
    rw [UInt8.toNat_mul, h32]
    omega
  have hrun := collect_requested_iff (answerBlock_length env addr dbs msg) hmax
    (Nat.mod_le (idsCount msg).toNat 8) resp
  simp only [wantedBlock_eq_nil_iff, collects_iff_readsBack] at hrun
  exact hrun

end Passed

/-- A request for `count` blocks or transactions, all with the same id. -/
def requestMsg (dtype count : UInt8) (id : Bytes) : Mem :=
  Mem.ofBytes ([dtype, count] ++ (List.replicate count.toNat id).flatten)

/-- A node that has `genesis` sends nothing when it is asked for it eight times. -/
theorem genesis_asked_eight_times :
    ¬ ∀ (addr : UInt8) (dbs : Dbs) (resp msg : Mem),
      getdataBlocks sampleEnv addr dbs resp msg = .ok (wantedBlocks dbs msg) := by
  intro hall
  have h := hall 0 genesisNode (fun _ => 0) (requestMsg dtypeBlock 8 genesisHash)
  have hnothing : getdataBlocks sampleEnv 0 genesisNode (fun _ => 0)
      (requestMsg dtypeBlock 8 genesisHash) = .ok [] := rfl
  have hnil := (Except.ok.inj (hnothing.symm.trans h)).symm
  have hfirst : wantedBlock genesisNode (requestMsg dtypeBlock 8 genesisHash) 2 = [] :=
    List.flatMap_eq_nil_iff.mp hnil 2 (by decide)
  have hid : idAt (requestMsg dtypeBlock 8 genesisHash) 2 = genesisHash := by decide
  rw [wantedBlock_eq_nil_iff, hid] at hfirst
  exact nomatch (AList.lookup_insert _).symm.trans hfirst

/-! ## Transactions -/

/-- One pass of the loop over transaction ids, at offset `i`. -/
def answerTx (mempool : Mempool) (msg resp : Mem) (i : ℕ) : Except Fault (Mem × List Sent) := do
  let found ← dataMempoolExists mempool (idAt msg i)
  if found then
    match dataMempoolGet mempool i with
    | none => .error .badPointer
    | some tx =>
        let resp := resp.write ctypeTxPosTx tx.bytes
        let resp := resp.write ctypeTxPosSize (uitob (UInt32.ofNat tx.size))
        .ok (resp, [.toPeer ctypeTx (resp.slice 0 (4 + tx.size))])
  else .ok (resp, [])

/-- The `CTYPE_GETDATA` branch for `DTYPE_TX`: what was sent. -/
def getdataTxs (mempool : Mempool) (resp msg : Mem) : Except Fault (List Sent) :=
  collect (answerTx mempool msg) (idOffsets (idsCount msg).toNat) resp

/-- The payload of a `<tx>` message. -/
def txPayload (tx : MTx) : Bytes := uitob (UInt32.ofNat tx.size) ++ tx.bytes

/-- What the README asks to be sent for the id at offset `i`. -/
def wantedTx (mempool : Mempool) (msg : Mem) (i : ℕ) : List Sent :=
  match mempoolLookup mempool (idAt msg i) with
  | none => []
  | some tx => [.toPeer ctypeTx (txPayload tx)]

/-- What the README asks to be sent for the whole request. -/
def wantedTxs (mempool : Mempool) (msg : Mem) : List Sent :=
  (requestOffsets (idsCount msg).toNat).flatMap (wantedTx mempool msg)

/-- The entry at index `i` stands in for the one with the hash at offset `i`: no
empty slot is met in looking for the hash, and if it is found, slot `i` is in
use and holds the same bytes. -/
def StandsIn (mempool : Mempool) (msg : Mem) (i : ℕ) : Prop :=
  ∃ found, dataMempoolExists mempool (idAt msg i) = .ok found ∧
    (found = true → ∃ tx wanted, dataMempoolGet mempool i = some tx ∧
      mempoolLookup mempool (idAt msg i) = some wanted ∧ txPayload tx = txPayload wanted)

section Txs

variable (p : Mempool) (msg : Mem)

theorem answerTx_absent {i : ℕ} (h : dataMempoolExists p (idAt msg i) = .ok false) (resp : Mem) :
    answerTx p msg resp i = .ok (resp, []) := by
  unfold answerTx
  rw [h]
  rfl

/-- The pass for an id that is found sends the entry at index `i`. -/
theorem answerTx_found {i : ℕ} (h : dataMempoolExists p (idAt msg i) = .ok true) {tx : MTx}
    (htx : dataMempoolGet p i = some tx) (resp : Mem) :
    ∃ resp', answerTx p msg resp i = .ok (resp', [.toPeer ctypeTx (txPayload tx)]) := by
  have hsent : ((resp.write 4 tx.bytes).write 0 (uitob (UInt32.ofNat tx.size))).slice 0
      (4 + tx.size) = txPayload tx := by
    have hbytes : (resp.write 4 tx.bytes).slice 4 tx.size = tx.bytes :=
      Mem.slice_write_of_length (Mem.slice_length ..)
    rw [Mem.slice_append, Mem.slice_write_of_length (uitob_length _),
      Mem.slice_write_disjoint (.inr (Nat.le_refl 4)), Nat.zero_add, hbytes]
    rfl
  refine ⟨(resp.write 4 tx.bytes).write 0 (uitob (UInt32.ofNat tx.size)), ?_⟩
  rw [← hsent]
  unfold answerTx
  rw [h, htx]
  rfl

theorem answerTx_missing {i : ℕ} (h : dataMempoolExists p (idAt msg i) = .ok true)
    (htx : dataMempoolGet p i = none) (resp : Mem) :
    answerTx p msg resp i = .error .badPointer := by
  unfold answerTx
  rw [h, htx]
  rfl

/-- What one pass can do. -/
theorem answerTx_cases {i : ℕ} {resp resp' : Mem} {sent : List Sent}
    (h : answerTx p msg resp i = .ok (resp', sent)) :
    (dataMempoolExists p (idAt msg i) = .ok false ∧ sent = []) ∨
    (dataMempoolExists p (idAt msg i) = .ok true ∧
      ∃ tx, dataMempoolGet p i = some tx ∧ sent = [.toPeer ctypeTx (txPayload tx)]) := by
  cases hfound : dataMempoolExists p (idAt msg i) with
  | error e =>
      rw [answerTx, hfound] at h
      cases h
  | ok found =>
      cases found with
      | false =>
          rw [answerTx_absent p msg hfound] at h
          cases h
          exact .inl ⟨rfl, rfl⟩
      | true =>
          cases htx : dataMempoolGet p i with
          | none =>
              rw [answerTx_missing p msg hfound htx] at h
              cases h
          | some tx =>
              obtain ⟨resp'', hpass⟩ := answerTx_found p msg hfound htx resp
              cases hpass.symm.trans h
              exact .inr ⟨rfl, tx, rfl, rfl⟩

theorem wantedTx_eq_nil_iff (i : ℕ) :
    wantedTx p msg i = [] ↔ mempoolLookup p (idAt msg i) = none := by
  rw [wantedTx]
  cases mempoolLookup p (idAt msg i) with
  | none => exact ⟨fun _ => rfl, fun _ => rfl⟩
  | some r => exact ⟨fun h => absurd h (List.cons_ne_nil _ _), fun h => nomatch h⟩

theorem wantedTx_of_lookup {i : ℕ} {tx : MTx} (h : mempoolLookup p (idAt msg i) = some tx) :
    wantedTx p msg i = [.toPeer ctypeTx (txPayload tx)] := by
  rw [wantedTx, h]

/-- A pass puts out what is wanted exactly when the entry it fetches stands in. -/
theorem answerTx_wanted_iff (resp : Mem) (i : ℕ) :
    (∃ resp', answerTx p msg resp i = .ok (resp', wantedTx p msg i)) ↔ StandsIn p msg i := by
  constructor
  · rintro ⟨resp', hpass⟩
    rcases answerTx_cases p msg hpass with ⟨hfound, -⟩ | ⟨hfound, tx, htx, hsent⟩
    · exact ⟨false, hfound, fun h => nomatch h⟩
    · obtain ⟨wanted, hwanted⟩ :=
        Option.isSome_iff_exists.mp (dataMempoolExists_lookup hfound).symm
      rw [wantedTx_of_lookup p msg hwanted] at hsent
      simp only [List.cons.injEq, Sent.toPeer.injEq, and_true, true_and] at hsent
      exact ⟨true, hfound, fun _ => ⟨tx, wanted, htx, hwanted, hsent.symm⟩⟩
  · rintro ⟨found, hfound, hstands⟩
    cases found with
    | false =>
        have hnone : mempoolLookup p (idAt msg i) = none := by
          simpa using dataMempoolExists_lookup hfound
        rw [(wantedTx_eq_nil_iff p msg i).mpr hnone]
        exact ⟨resp, answerTx_absent p msg hfound resp⟩
    | true =>
        obtain ⟨tx, wanted, htx, hwanted, hsame⟩ := hstands rfl
        rw [wantedTx_of_lookup p msg hwanted, ← hsame]
        exact answerTx_found p msg hfound htx resp

/-- A pass that does not stop the program sends one message for an id that is in
the mempool and none for another. -/
theorem answerTx_length (resp : Mem) (i : ℕ) (resp' : Mem) (sent : List Sent)
    (h : answerTx p msg resp i = .ok (resp', sent)) :
    sent.length = (wantedTx p msg i).length := by
  rcases answerTx_cases p msg h with ⟨hfound, rfl⟩ | ⟨hfound, tx, -, rfl⟩
  · have hnone : mempoolLookup p (idAt msg i) = none := by
      simpa using dataMempoolExists_lookup hfound
    rw [(wantedTx_eq_nil_iff p msg i).mpr hnone]
  · obtain ⟨wanted, hwanted⟩ :=
      Option.isSome_iff_exists.mp (dataMempoolExists_lookup hfound).symm
    rw [wantedTx_of_lookup p msg hwanted]
    rfl

end Txs

/-- **Answering for transactions.** A request for `n` transactions is answered as
documented, without a missing entry being dereferenced, if and only if none of
the ids from the `(n + 29) / 32`-th on is in the mempool, and for each id before
it the entry at the index of its byte offset stands in for the one asked for. -/
theorem getdataTxs_wanted_iff (p : Mempool) (resp msg : Mem) :
    getdataTxs p resp msg = .ok (wantedTxs p msg) ↔
      (∀ k, ((idsCount msg).toNat + 29) / 32 ≤ k → k < (idsCount msg).toNat →
        mempoolLookup p (idAt msg (ctypeGetdataPosIds + sizeSha256 * k)) = none) ∧
      ∀ k < ((idsCount msg).toNat + 29) / 32,
        StandsIn p msg (ctypeGetdataPosIds + sizeSha256 * k) := by
  have hmax : ((idsCount msg).toNat - 2 + 31) / 32 = ((idsCount msg).toNat + 29) / 32 := by omega
  have hrun := collect_requested_iff (answerTx_length p msg) hmax
    (show ((idsCount msg).toNat + 29) / 32 ≤ (idsCount msg).toNat by omega) resp
  rw [collects_iff_forall (answerTx_wanted_iff p msg)] at hrun
  simp only [wantedTx_eq_nil_iff, requestOffsets, List.forall_mem_map, List.mem_range] at hrun
  exact hrun

/-- A mempool with one entry, whose hash is all zeros. -/
def oneTxPool : Mempool :=
  ⟨fun _ => some ⟨List.replicate 32 0, List.replicate 10 0, 10, 10, List.replicate 32 1⟩, 1⟩

/-- A request for three transactions makes the node dereference the entry at
index 2 of a mempool with one. -/
theorem tx_asked_three_times :
    ¬ ∀ (p : Mempool) (resp msg : Mem), getdataTxs p resp msg = .ok (wantedTxs p msg) := by
  intro hall
  have h := hall oneTxPool (fun _ => 0) (requestMsg dtypeTx 3 (List.replicate 32 0))
  have hfault : getdataTxs oneTxPool (fun _ => 0) (requestMsg dtypeTx 3 (List.replicate 32 0)) =
      .error .badPointer := rfl
  exact absurd (hfault.symm.trans h) (by simp)

end Freecoin
