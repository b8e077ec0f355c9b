import Freecoin.Blocks

/-!
# network.c: framing of messages

A message is meant to be two version bytes, a content type byte and the
payload. `sendto_peer` writes these three bytes, then copies the payload over
the second and third of them and sends one byte more than the payload is
long: what goes out is a zero byte followed by the payload
(`sendtoPeer_eq`). `handle_connection` in turn looks for version and content
type in the first three bytes of its buffer and reads every field of the
payload at its `CTYPE_*_POS_*` position counted from the start of the buffer.
-/

namespace Freecoin

open Lib

/-- The bytes `sendto_peer(peer, CTYPE, msg, |msg|)` hands to the socket;
`raw` is what `malloc` returned for `raw_msg`. -/
def sendtoPeer (raw : Mem) (ctype : UInt8) (msg : Bytes) : Bytes :=
  let raw := raw.write 0 [(clientVersion <<< 8 &&& 0xFF).toUInt8]
  let raw := raw.write 1 [(clientVersion &&& 0xFF).toUInt8]
  let raw := raw.write 2 [ctype]
  let raw := if 0 < msg.length then raw.write 1 msg else raw
  raw.slice 0 (msg.length + 1)

/-- The buffer of `handle_connection` after one `recvfrom` has delivered
`wire`: the rest of it still holds what earlier messages left there. -/
def recvMsg (stale : Mem) (wire : Bytes) : Mem := stale.load (wire.take maxMsgSize)

/-- `ntohs(btous(&msg[POS_MSG_VERSION]))`. -/
def msgVersion (o : ByteOrder) (msg : Mem) : UInt16 :=
  ntohs o (btous o (msg.shift posMsgVersion))

/-- `msg[POS_MSG_CTYPE]`. -/
def msgCtype (msg : Mem) : UInt8 := msg posMsgCtype

/-- The offsets of `for (i = CTYPE_GETDATA_POS_IDS; i < max; i += SIZE_SHA256)`. -/
def idOffsets (max : ℕ) : List ℕ :=
  List.range' ctypeGetdataPosIds ((max - ctypeGetdataPosIds + 31) / sizeSha256) sizeSha256

/-- The `<tx>` branch: the counts and the lock time, then the inputs and outputs
unless `m_tx_gen` gives up on their size. -/
def txFields (o : ByteOrder) (msg : Mem) : List (ℕ × ℕ) :=
  let inCount := (btous o (msg.shift (ctypeTxPosTx + posTxInCount))).toNat
  let outCount := (btous o (msg.shift (ctypeTxPosTx + posTxOutCount))).toNat
  [(ctypeTxPosTx + posTxInCount, 2), (ctypeTxPosTx + posTxOutCount, 2),
    (ctypeTxPosTx + posTxLockTime, 4)] ++
  if maxTxSize < sizeTxHeader + sizeTxInput * inCount + sizeTxOutput * outCount then []
  else [(ctypeTxPosTx + posTxBody, sizeTxInput * inCount),
    (ctypeTxPosTx + posTxBody + sizeTxInput * inCount, sizeTxOutput * outCount)]

/-- The fields, as position and length, that the branch of `handle_connection`
for content type `c` reads from its buffer. -/
def branchFields (o : ByteOrder) (c : UInt8) (msg : Mem) : List (ℕ × ℕ) :=
  if c = ctypeReject then [(ctypeRejectPosErrortype, 1)]
  else if c = ctypeGetblocks then
    [(ctypeGetblocksPosStartBlock, sizeSha256), (ctypeGetblocksPosBlockCount, 1)]
  else if c = ctypeInv then
    (ctypeInvPosDatatype, 1) ::
      if msg ctypeInvPosDatatype = dtypeBlock ∨ msg ctypeInvPosDatatype = dtypeTx then
        [(ctypeInvPosIdsCount, 1), (ctypeInvPosIds, (msg ctypeInvPosIdsCount).toNat * sizeSha256)]
      else []
  else if c = ctypeGetdata then
    (ctypeGetdataPosDatatype, 1) ::
      if msg ctypeGetdataPosDatatype = dtypeBlock then
        -- `uchar max = count * SIZE_SHA256`
        (ctypeGetdataPosIdsCount, 1) ::
          (idOffsets (msg ctypeGetdataPosIdsCount * 32).toNat).map fun i => (i, sizeSha256)
      else if msg ctypeGetdataPosDatatype = dtypeTx then
        (ctypeGetdataPosIdsCount, 1) ::
          (idOffsets (msg ctypeGetdataPosIdsCount).toNat).map fun i => (i, sizeSha256)
      else []
  else if c = ctypeBlock then
    let block := msg.shift ctypeBlockPosBlock
    [(ctypeBlockPosSize, 4), (ctypeBlockPosBlock,
      txEnd o block (blockGetTxCount o block).toNat sizeBlockHeader)]
  else if c = ctypeTx then txFields o msg
  else []

/-- The buffer `msg` is parsed as version `__VERSION`, content type `c` and, in
every field the branch reads, the bytes that `p` has at that position. -/
structure ParsedAs (o : ByteOrder) (c : UInt8) (p : Bytes) (msg : Mem) : Prop where
  version : msgVersion o msg = clientVersion
  ctype : msgCtype msg = c
  fields : ∀ f ∈ branchFields o c msg, ∀ i, f.1 ≤ i → i < f.1 + f.2 →
    ∀ b, p[i]? = some b → msg i = b

/-- Payload `p` sent with content type `c` arrives: whatever the two buffers
held before, it is parsed as what was sent, and all of it is sent. -/
def Framed (o : ByteOrder) (c : UInt8) (p : Bytes) : Prop :=
  ∀ raw stale : Mem,
    ParsedAs o c p (recvMsg stale (sendtoPeer raw c p)) ∧ p <:+ sendtoPeer raw c p

/-! ## What is on the wire -/

theorem sendtoPeer_eq (raw : Mem) (c : UInt8) (p : Bytes) : sendtoPeer raw c p = 0 :: p := by
  apply List.ext_getElem?
  intro i
  rw [sendtoPeer, Mem.slice_getElem?]
  have hzero : (clientVersion <<< 8 &&& 0xFF).toUInt8 = 0 := by decide
  cases i with
  | zero =>
      rw [hzero]
      by_cases hp : 0 < p.length
      · simp [hp, Mem.write]
      · simp [hp, Mem.write]
  | succ i =>
      by_cases hi : i < p.length
      · have hp : 0 < p.length := by omega
        simp [hp, hi, Mem.write]
      · simp [hi]

theorem recvMsg_zero {stale : Mem} {wire : Bytes} {b : UInt8} (h : wire[0]? = some b) :
    recvMsg stale wire 0 = b := by
  simp [recvMsg, Mem.load_apply, h]

/-- The payload arrives shifted by one byte. -/
theorem recvMsg_succ (raw stale : Mem) {c : UInt8} {p : Bytes}
    (hp : p.length ≤ maxMsgSize - 3) (i : ℕ) :
    recvMsg stale (sendtoPeer raw c p) (i + 1) = (p[i]?).getD (stale (i + 1)) := by
  have hlen : (0 :: p).take maxMsgSize = 0 :: p := List.take_of_length_le (by
    simp only [maxMsgSize, List.length_cons] at hp ⊢
    omega)
  rw [recvMsg, sendtoPeer_eq, hlen, Mem.load_apply]
  rfl

/-- The two byte swaps cancel: the version is the first two bytes, most
significant first, on every host. -/
theorem msgVersion_eq (o : ByteOrder) (msg : Mem) : msgVersion o msg = word16 (msg 0) (msg 1) := by
  cases o with
  | big => rfl
  | little =>
      rw [msgVersion, btous, ntohs_little, ntohs_little]
      rfl

theorem word16_eq_one {b : UInt8} (h : word16 0 b = clientVersion) : b = 1 := by
  have h' := congrArg UInt16.toNat h
  rw [word16_toNat] at h'
  apply UInt8.toNat_inj.mp
  simpa using h'

theorem btous_same (o : ByteOrder) {m : Mem} {v : UInt8} (h0 : m 0 = v) (h1 : m 1 = v) :
    (btous o m).toNat = 257 * v.toNat := by
  have h : btous o m = word16 v v := by
    cases o with
    | big => rw [btous, h0, h1]; rfl
    | little => rw [btous, h0, h1, ntohs_little]
  rw [h, word16_toNat]
  ring

/-! ## When the framing works

The receiver finds version and content type in the payload itself, and every
field one byte further on than it should. -/

/-- Past this offset the `<tx>` branch reads nothing of a payload whose count
bytes are all `v`: 257·v inputs and as many outputs follow, none of them when
that is more than `MAX_TX_SIZE`. -/
def txFieldsEnd (v : UInt8) : ℕ := 14 + if v.toNat ≤ 12 then 83782 * v.toNat else 0

/-- The content types whose branch reads the first byte of the buffer. -/
def readsFirstByte : List UInt8 :=
  [ctypeReject, ctypeGetblocks, ctypeInv, ctypeGetdata, ctypeBlock]

/-- The payload happens to carry the version and the content type in front,
its branch does not look at the first byte, and what a `<tx>` branch reads is
one byte repeated. -/
structure SelfFramed (c : UInt8) (p : Bytes) : Prop where
  head : ∃ rest, p = 1 :: c :: rest
  silent : c ∉ readsFirstByte
  constant : c = ctypeTx → ∀ v, p[5]? = some v →
    ∀ i, 6 ≤ i → i < txFieldsEnd v → ∀ b, p[i]? = some b → b = v

/-- Every branch in `readsFirstByte` has a field that starts at offset 0. -/
theorem first_field {o : ByteOrder} {c : UInt8} (h : c ∈ readsFirstByte) (msg : Mem) :
    ∃ f ∈ branchFields o c msg, f.1 = 0 ∧ 0 < f.2 := by
  simp only [readsFirstByte, List.mem_cons, List.not_mem_nil, or_false] at h
  rcases h with rfl | rfl | rfl | rfl | rfl
  · exact ⟨(0, 1), by simp [branchFields], rfl, by norm_num⟩
  · exact ⟨(0, 32), by simp [branchFields], rfl, by norm_num⟩
  · exact ⟨(0, 1), by simp [branchFields], rfl, by norm_num⟩
  · exact ⟨(0, 1), by simp [branchFields], rfl, by norm_num⟩
  · exact ⟨(0, 4), by simp [branchFields], rfl, by norm_num⟩

theorem branchFields_tx (o : ByteOrder) (msg : Mem) :
    branchFields o ctypeTx msg = txFields o msg := by
  simp [branchFields]

/-- A branch that neither reads the first byte nor parses a transaction reads
no field at all. -/
theorem branchFields_silent {o : ByteOrder} {c : UInt8} (h : c ∉ readsFirstByte)
    (htx : c ≠ ctypeTx) (msg : Mem) : branchFields o c msg = [] := by
  simp only [readsFirstByte, List.mem_cons, List.not_mem_nil, or_false, not_or] at h
  obtain ⟨h0, h1, h3, h4, h5⟩ := h
  simp only [branchFields, if_neg h0, if_neg h1, if_neg h3, if_neg h4, if_neg h5, if_neg htx]

/-- The last two fields of `<tx>` when the four count bytes in the buffer are `v`. -/
theorem txFields_same {o : ByteOrder} {msg : Mem} {v : UInt8}
    (h : ∀ i, 6 ≤ i → i < 10 → msg i = v) :
    txFields o msg = [(6, 2), (8, 2), (10, 4)] ++
      if v.toNat ≤ 12 then
        [(14, 290 * (257 * v.toNat)), (14 + 290 * (257 * v.toNat), 36 * (257 * v.toNat))]
      else [] := by
  have hin : (btous o (msg.shift 6)).toNat = 257 * v.toNat :=
    btous_same o (h 6 (by norm_num) (by norm_num)) (h 7 (by norm_num) (by norm_num))
  have hout : (btous o (msg.shift 8)).toNat = 257 * v.toNat :=
    btous_same o (h 8 (by norm_num) (by norm_num)) (h 9 (by norm_num) (by norm_num))
  simp only [txFields, ctypeTxPosTx, posTxInCount, posTxOutCount, posTxLockTime, posTxBody,
    sizeTxHeader, sizeTxInput, sizeTxOutput, maxTxSize, Nat.reduceAdd, hin, hout]
  by_cases hv : v.toNat ≤ 12
  · rw [if_neg (by omega), if_pos hv]
  · rw [if_pos (by omega), if_neg hv]

theorem txFields_start {o : ByteOrder} {msg : Mem} {f : ℕ × ℕ} (hf : f ∈ txFields o msg) :
    6 ≤ f.1 := by
  rw [txFields, List.mem_append] at hf
  rcases hf with hf | hf
  · simp only [List.mem_cons, List.not_mem_nil, or_false] at hf
    rcases hf with rfl | rfl | rfl <;> simp
  · split_ifs at hf
    · exact absurd hf List.not_mem_nil
    · simp only [List.mem_cons, List.not_mem_nil, or_false] at hf
      rcases hf with rfl | rfl
      · simp
      · simp only [ctypeTxPosTx, posTxBody]
        omega

theorem txFields_head {o : ByteOrder} {msg : Mem} {i : ℕ} (h6 : 6 ≤ i) (h14 : i < 14) :
    ∃ f ∈ txFields o msg, f.1 ≤ i ∧ i < f.1 + f.2 := by
  rcases Nat.lt_or_ge i 8 with h | h
  · exact ⟨(6, 2), by simp [txFields], h6, h⟩
  · rcases Nat.lt_or_ge i 10 with h' | h'
    · exact ⟨(8, 2), by simp [txFields], h, h'⟩
    · exact ⟨(10, 4), by simp [txFields], h', h14⟩

/-- The `<tx>` fields cover exactly the offsets from 6 to `txFieldsEnd`, once the
four count bytes are known to agree. -/
theorem txFields_cover {o : ByteOrder} {msg : Mem} {v : UInt8} {i : ℕ} (h6 : 6 ≤ i)
    (hcounts : 14 ≤ i → ∀ j, 6 ≤ j → j < 10 → msg j = v) :
    (∃ f ∈ txFields o msg, f.1 ≤ i ∧ i < f.1 + f.2) ↔ i < txFieldsEnd v := by
  rcases Nat.lt_or_ge i 14 with h14 | h14
  · constructor
    · intro _
      exact Nat.lt_of_lt_of_le h14 (Nat.le_add_right _ _)
    · intro _
      exact txFields_head h6 h14
  · rw [txFields_same (hcounts h14), txFieldsEnd]
    by_cases hv : v.toNat ≤ 12
    · rw [if_pos hv, if_pos hv]
      constructor
      · rintro ⟨f, hf, hlo, hhi⟩
        simp only [List.cons_append, List.nil_append, List.mem_cons, List.not_mem_nil,
          or_false] at hf
        rcases hf with rfl | rfl | rfl | rfl | rfl <;> simp only at hlo hhi <;> omega
      · intro hi
        by_cases hin : i < 14 + 290 * (257 * v.toNat)
        · exact ⟨(14, 290 * (257 * v.toNat)), by simp, h14, hin⟩
        · exact ⟨(14 + 290 * (257 * v.toNat), 36 * (257 * v.toNat)), by simp, by omega, by
            simp only; omega⟩
    · rw [if_neg hv, if_neg hv]
      constructor
      · rintro ⟨f, hf, hlo, hhi⟩
        simp only [List.append_nil, List.mem_cons, List.not_mem_nil, or_false] at hf
        rcases hf with rfl | rfl | rfl <;> simp only at hlo hhi <;> omega
      · intro hi
        omega

/-- What the receiver sees of a payload of at least two bytes. -/
theorem recvMsg_bytes (raw stale : Mem) {c a b : UInt8} {rest : Bytes}
    (hp : (a :: b :: rest).length ≤ maxMsgSize - 3) :
    recvMsg stale (sendtoPeer raw c (a :: b :: rest)) 0 = 0 ∧
    recvMsg stale (sendtoPeer raw c (a :: b :: rest)) 1 = a ∧
    recvMsg stale (sendtoPeer raw c (a :: b :: rest)) 2 = b :=
  ⟨recvMsg_zero (by rw [sendtoPeer_eq]; rfl), recvMsg_succ raw stale hp 0,
    recvMsg_succ raw stale hp 1⟩

/-- Without two payload bytes the content type is read from what the buffer
held before. -/
theorem Framed.two_bytes {o : ByteOrder} {c : UInt8} {p : Bytes}
    (hp : p.length ≤ maxMsgSize - 3) (h : Framed o c p) : ∃ a b rest, p = a :: b :: rest := by
  match p, hp, h with
  | a :: b :: rest, _, _ => exact ⟨a, b, rest, rfl⟩
  | [], hp, h | [_], hp, h =>
      have hc := (h (fun _ => 0) (fun _ => c + 1)).1.ctype
      have h2 := recvMsg_succ (fun _ => 0) (fun _ => c + 1) (c := c) hp 1
      simp only [msgCtype, posMsgCtype] at hc
      rw [show (2 : ℕ) = 1 + 1 from rfl, h2] at hc
      simp at hc

/-- The `<tx>` fields of a payload that arrives intact are one byte repeated:
each of them equals the byte before it. -/
theorem Framed.constant {o : ByteOrder} {p : Bytes} (hp : p.length ≤ maxMsgSize - 3)
    (h : Framed o ctypeTx p) {v : UInt8} (hv : p[5]? = some v) :
    ∀ i, 6 ≤ i → i < txFieldsEnd v → ∀ b, p[i]? = some b → b = v := by
  intro i
  induction i using Nat.strong_induction_on with
  | _ i ih =>
      intro h6 hend b hb
      have hilen : i < p.length := (List.getElem?_eq_some_iff.mp hb).1
      -- the bytes before `i` are already known to be `v`, among them the count bytes
      have hbefore : ∀ j, 5 ≤ j → j < i → p[j]? = some v := by
        intro j h5 hji
        have hj := List.getElem?_eq_getElem (show j < p.length by omega)
        rcases Nat.eq_or_lt_of_le h5 with rfl | h5
        · exact hv
        · rw [hj, ih j hji h5 (by omega) _ hj]
      have hmsg : ∀ j, 6 ≤ j → j ≤ i →
          recvMsg (fun _ => 0) (sendtoPeer (fun _ => 0) ctypeTx p) j = v := by
        intro j h6j hji
        obtain ⟨k, rfl⟩ : ∃ k, j = k + 1 := ⟨j - 1, by omega⟩
        rw [recvMsg_succ _ _ hp, hbefore k (by omega) (by omega)]
        rfl
      obtain ⟨f, hf, hlo, hhi⟩ := (txFields_cover (o := o) h6
        (fun h14 j h6j h10 => hmsg j h6j (by omega))).mpr hend
      have hfield := (h (fun _ => 0) (fun _ => 0)).1.fields f
        (by rw [branchFields_tx]; exact hf) i hlo hhi b hb
      rw [← hfield, hmsg i h6 (Nat.le_refl _)]

theorem selfFramed_of_framed {o : ByteOrder} {c : UInt8} {p : Bytes}
    (hp : p.length ≤ maxMsgSize - 3) (h : Framed o c p) : SelfFramed c p := by
  obtain ⟨a, b, rest, rfl⟩ := h.two_bytes hp
  obtain ⟨h0, h1, h2⟩ := recvMsg_bytes (fun _ => 0) (fun _ => 0) (c := c) hp
  have hparsed := (h (fun _ => 0) (fun _ => 0)).1
  have ha : a = 1 := by
    have hver := hparsed.version
    rw [msgVersion_eq, h0, h1] at hver
    exact word16_eq_one hver
  have hb : b = c := h2.symm.trans hparsed.ctype
  subst ha hb
  refine ⟨⟨rest, rfl⟩, ?_, ?_⟩
  · intro hmem
    obtain ⟨f, hf, hpos, hlen⟩ := first_field (o := o) hmem
      (recvMsg (fun _ => 0) (sendtoPeer (fun _ => 0) b (1 :: b :: rest)))
    have hzero := hparsed.fields f hf 0 (by omega) (by omega) 1 rfl
    rw [h0] at hzero
    exact absurd hzero (by decide)
  · rintro rfl v hv
    exact h.constant hp hv

/-- The fields of an arriving `<tx>` are the payload's own when these are all
the same byte. -/
theorem SelfFramed.tx_fields {o : ByteOrder} {p : Bytes} (hp : p.length ≤ maxMsgSize - 3)
    (h : SelfFramed ctypeTx p) (raw stale : Mem) {f : ℕ × ℕ}
    (hf : f ∈ txFields o (recvMsg stale (sendtoPeer raw ctypeTx p))) {i : ℕ}
    (hlo : f.1 ≤ i) (hhi : i < f.1 + f.2) {b : UInt8} (hb : p[i]? = some b) :
    recvMsg stale (sendtoPeer raw ctypeTx p) i = b := by
  have hilen : i < p.length := (List.getElem?_eq_some_iff.mp hb).1
  have h6 : 6 ≤ i := (txFields_start hf).trans hlo
  have hv := List.getElem?_eq_getElem (show 5 < p.length by omega)
  have hconst := h.constant rfl _ hv
  have hbytes : ∀ j, 5 ≤ j → j < p.length → j < txFieldsEnd p[5] → p[j]? = some p[5] := by
    intro j h5 hj hend
    have hj' := List.getElem?_eq_getElem hj
    rcases Nat.eq_or_lt_of_le h5 with rfl | h5
    · exact hj'
    · rw [hj', hconst j h5 hend _ hj']
  have hend14 : 14 ≤ txFieldsEnd p[5] := Nat.le_add_right _ _
  have hmsg : ∀ j, 6 ≤ j → j ≤ i → j - 1 < txFieldsEnd p[5] →
      recvMsg stale (sendtoPeer raw ctypeTx p) j = p[5] := by
    intro j h6j hji hend
    obtain ⟨k, rfl⟩ : ∃ k, j = k + 1 := ⟨j - 1, by omega⟩
    rw [recvMsg_succ _ _ hp, hbytes k (by omega) (by omega) (by omega)]
    rfl
  have hiend : i < txFieldsEnd p[5] := (txFields_cover (o := o) h6
    (fun _ j h6j h10 => hmsg j h6j (by omega) (by omega))).mp ⟨f, hf, hlo, hhi⟩
  rw [hmsg i h6 (Nat.le_refl _) (by omega), hconst i h6 hiend b hb]

theorem framed_of_selfFramed {o : ByteOrder} {c : UInt8} {p : Bytes}
    (hp : p.length ≤ maxMsgSize - 3) (h : SelfFramed c p) : Framed o c p := by
  intro raw stale
  obtain ⟨rest, rfl⟩ := h.head
  obtain ⟨h0, h1, h2⟩ := recvMsg_bytes raw stale (c := c) hp
  refine ⟨⟨?_, h2, ?_⟩, ?_⟩
  · rw [msgVersion_eq, h0, h1]
    decide
  · intro f hf i hlo hhi b hb
    by_cases htx : c = ctypeTx
    · subst htx
      rw [branchFields_tx] at hf
      exact h.tx_fields hp raw stale hf hlo hhi hb
    · rw [branchFields_silent h.silent htx] at hf
      exact absurd hf List.not_mem_nil
  · rw [sendtoPeer_eq]
    exact List.suffix_cons _ _

/-- **Framing.** A payload arrives as what was sent exactly when it frames
itself. -/
theorem framed_iff_selfFramed (o : ByteOrder) (c : UInt8) (p : Bytes)
    (hp : p.length ≤ maxMsgSize - 3) : Framed o c p ↔ SelfFramed c p :=
  ⟨selfFramed_of_framed hp, framed_of_selfFramed hp⟩

/-- A ping that carries its own version and content type as payload arrives. -/
theorem framed_ping_with_payload :
    [(1 : UInt8), 9].length ≤ maxMsgSize - 3 ∧ Framed .little 9 [1, 9] :=
  ⟨by decide, (framed_iff_selfFramed .little 9 [1, 9] (by decide)).mpr
    ⟨⟨[], rfl⟩, by decide, fun h => absurd h (by decide)⟩⟩

/-- A `<getblocks>` for ten blocks after the hash `aa..aa` does not arrive: the
receiver reads version 0xaa. -/
theorem getblocks_not_framed :
    ¬ Framed .little ctypeGetblocks (List.replicate 32 0xaa ++ [10]) := by
  intro h
  have hver := (h (fun _ => 0) (fun _ => 0)).1.version
  revert hver
  decide

end Freecoin
