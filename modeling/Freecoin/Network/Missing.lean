import Freecoin.Network.Inventory

/-!
# build.c: the ids that are missing

The two functions that answer an `<inv>` copy the ids that are not found. There
are at most 255 of them, so the loop never stops early and the count fits its
byte. Whether a list is left alone is a question about one memory that holds
both the list and the destination, so the loop is given there too, and related
to the one with two memories.

`build_missing_tx_list` looks for a transaction in the database of transactions
and not in the mempool, where the notes ask for the mempool.
-/

namespace Freecoin

open Lib

/-- The ids of a list. -/
def listIds (list : Mem) (is : List ℕ) : List Bytes :=
  is.map fun i => (list.shift (i * sizeSha256)).slice 0 sizeSha256

/-- The ids that are not found. -/
def absentIds (found : Mem → Bool) (ids : List Bytes) : List Bytes :=
  ids.filter fun id => !found (Mem.ofBytes id)

section Loop

variable {found : Mem → Bool} (hfound : ∀ id id' : Mem,
  id.slice 0 sizeSha256 = id'.slice 0 sizeSha256 → found id = found id')

include hfound

/-- **The loop** appends the ids that are not found to what it has copied already. -/
theorem missingLoop_spec (list : Mem) : ∀ (is : List ℕ) (missing : ℕ) (dest : Mem),
    missing + is.length ≤ 255 →
    missingLoop found list is missing dest =
      (missing + (absentIds found (listIds list is)).length,
        dest.write (sizeSha256 * missing) (absentIds found (listIds list is)).flatten) := by
  intro is
  induction is with
  | nil =>
      intro missing dest _
      rw [missingLoop]
      exact congrArg _ (Mem.write_nil dest _).symm
  | cons i rest ih =>
      intro missing dest hle
      rw [List.length_cons] at hle
      have hid : found (Mem.ofBytes ((list.shift (i * sizeSha256)).slice 0 sizeSha256)) =
          found (list.shift (i * sizeSha256)) :=
        hfound _ _ (slice_ofBytes (Mem.slice_length ..))
      rw [missingLoop, listIds, List.map_cons, ← listIds, absentIds, List.filter_cons, hid,
        ← absentIds]
      cases hcase : found (list.shift (i * sizeSha256)) with
      | true =>
          rw [if_pos rfl, if_neg (by omega), ih missing dest (by omega)]
          rfl
      | false =>
          have hstep := ih (missing + 1) (dest.write (sizeSha256 * missing)
            ((list.shift (i * sizeSha256)).slice 0 sizeSha256)) (by omega)
          -- an early stop would be one after the last id
          have hstop : missing + 1 = 255 → rest = [] := by
            intro h255
            exact List.length_eq_zero_iff.mp (by omega)
          have hbytes : dest.write (sizeSha256 * missing)
              ((list.shift (i * sizeSha256)).slice 0 sizeSha256 ++
                (absentIds found (listIds list rest)).flatten) =
              (dest.write (sizeSha256 * missing)
                ((list.shift (i * sizeSha256)).slice 0 sizeSha256)).write
                (sizeSha256 * (missing + 1)) (absentIds found (listIds list rest)).flatten := by
            rw [Mem.write_append, Mem.slice_length, Nat.mul_succ]
          have hcount : missing + ((absentIds found (listIds list rest)).length + 1) =
              missing + 1 + (absentIds found (listIds list rest)).length := by omega
          rw [Bool.not_false, if_pos rfl, List.length_cons, List.flatten_cons, hbytes,
            if_neg Bool.false_ne_true, hcount, ← hstep]
          dsimp only
          split
          · next h255 =>
              rw [hstop h255]
              rfl
          · rfl

theorem missingLoop_count (list dest : Mem) (count : UInt8) :
    missingLoop found list (List.range count.toNat) 0 dest =
      ((absentIds found (listIds list (List.range count.toNat))).length,
        dest.write 0 (absentIds found (listIds list (List.range count.toNat))).flatten) := by
  have hcount := count.toNat_lt
  have hspec := missingLoop_spec hfound list (List.range count.toNat) 0 dest
    (by rw [List.length_range]; omega)
  rwa [Nat.zero_add] at hspec

end Loop

/-! ## List and destination in one memory -/

/-- `missingLoop`, with the list and the destination at two places of one memory. -/
def missingLoopAt (found : Mem → Bool) (list dest : ℕ) : List ℕ → ℕ → Mem → ℕ × Mem
  | [], missing, m => (missing, m)
  | i :: rest, missing, m =>
      let id := m.shift (list + i * sizeSha256)
      let next := if found id then (missing, m)
        else (missing + 1, m.write (dest + sizeSha256 * missing) (id.slice 0 sizeSha256))
      if next.1 = 255 then next else missingLoopAt found list dest rest next.1 next.2

/-- `build_missing_blocks_list` in one memory. -/
def buildMissingBlocksListAt (B : Bdb) (dbs : Dbs) (m : Mem) (list : ℕ) (count : UInt8)
    (dest : ℕ) : UInt8 × Mem :=
  let out := missingLoopAt (dataBlocksExists B dbs) list dest (List.range count.toNat) 0 m
  (UInt8.ofNat out.1, out.2)

/-- Where the list and the places that are written lie apart, the copies are those of
the loop with two memories. -/
theorem missingLoopAt_eq {found : Mem → Bool} (hfound : ∀ id id' : Mem,
    id.slice 0 sizeSha256 = id'.slice 0 sizeSha256 → found id = found id') (list dest : ℕ) :
    ∀ (is : List ℕ) (missing : ℕ) (m : Mem),
      (∀ i ∈ is, list + i * sizeSha256 + sizeSha256 ≤ dest ∨
        dest + sizeSha256 * (missing + is.length) ≤ list + i * sizeSha256) →
      missingLoopAt found list dest is missing m =
        ((missingLoop found (m.shift list) is missing (m.shift dest)).1,
          m.splice dest (missingLoop found (m.shift list) is missing (m.shift dest)).2) := by
  intro is
  induction is with
  | nil =>
      intro missing m _
      rw [missingLoopAt, missingLoop, Mem.splice_shift]
  | cons i rest ih =>
      intro missing m hapart
      rw [List.length_cons] at hapart
      have hrest := (List.forall_mem_cons.mp hapart).2
      rw [missingLoopAt, missingLoop, Mem.shift_shift]
      cases found (m.shift (list + i * sizeSha256)) with
      | true =>
          rw [if_pos rfl, if_pos rfl]
          split
          · rw [Mem.splice_shift]
          · apply ih
            intro j hj
            have hj := hrest j hj
            simp only [sizeSha256] at hj ⊢
            omega
      | false =>
          rw [if_neg Bool.false_ne_true, if_neg Bool.false_ne_true]
          generalize hid : (m.shift (list + i * sizeSha256)).slice 0 sizeSha256 = id
          have hlength : id.length = sizeSha256 := by
            rw [← hid]
            exact Mem.slice_length ..
          split
          · rw [Mem.splice_shift_write]
          · -- the ids that follow are not written over
            have hids : ∀ j ∈ rest,
                (((m.write (dest + sizeSha256 * missing) id).shift list).shift
                  (j * sizeSha256)).slice 0 sizeSha256 =
                ((m.shift list).shift (j * sizeSha256)).slice 0 sizeSha256 := by
              intro j hj
              have hj := hrest j hj
              rw [Mem.shift_shift, Mem.shift_shift, Mem.slice_shift, Mem.slice_shift]
              apply Mem.slice_write_disjoint
              rw [hlength]
              simp only [sizeSha256] at hj ⊢
              omega
            dsimp only
            rw [ih, missingLoop_congr hfound rest _ _ hids, Mem.shift_write_add,
              Mem.splice_write _ _ (Nat.le_add_right ..)]
            intro j hj
            have hj := hrest j hj
            simp only [sizeSha256] at hj ⊢
            omega

/-! ## Blocks -/

/-- A count that is at most another one of one byte. -/
theorem ofNat_toNat_of_le {n : ℕ} {count : UInt8} (h : n ≤ count.toNat) :
    (UInt8.ofNat n).toNat = n := by
  rw [UInt8.toNat_ofNat', Nat.mod_eq_of_lt (Nat.lt_of_le_of_lt h count.toNat_lt)]

theorem filter_listIds_length (p : Bytes → Bool) (list : Mem) (count : UInt8) :
    ((listIds list (List.range count.toNat)).filter p).length ≤ count.toNat := by
  have hle := List.length_filter_le p (listIds list (List.range count.toNat))
  rwa [listIds, List.length_map, List.length_range] at hle

theorem listIds_length {list : Mem} {is : List ℕ} {id : Bytes} (h : id ∈ listIds list is) :
    id.length = sizeSha256 := by
  obtain ⟨i, -, rfl⟩ := List.mem_map.mp h
  exact Mem.slice_length ..

theorem flatten_length {ids : List Bytes} (h : ∀ id ∈ ids, id.length = sizeSha256) :
    ids.flatten.length = sizeSha256 * ids.length := by
  rw [List.length_flatten, List.map_congr_left h, List.map_const', List.sum_replicate,
    smul_eq_mul, Nat.mul_comm]

/-- The ids are copied to the destination, their number is returned, and no other byte
of memory changes; the list stays as it is. -/
structure CopiesIds (m : Mem) (list : ℕ) (count : UInt8) (dest : ℕ) (ids : List Bytes)
    (out : UInt8 × Mem) : Prop where
  number : out.1.toNat = ids.length
  copied : out.2.slice dest (sizeSha256 * ids.length) = ids.flatten
  frame : ∀ a, a < dest ∨ dest + sizeSha256 * ids.length ≤ a → out.2 a = m a
  list : out.2.slice list (sizeSha256 * count.toNat) = m.slice list (sizeSha256 * count.toNat)

/-- The hashes of a list that are absent from the database of blocks, in the order of
the list and as often as they occur. -/
def absentBlocks (dbs : Dbs) (list : Mem) (count : UInt8) : List Bytes :=
  (listIds list (List.range count.toNat)).filter fun id => dbs.blocks.lookup id = none

theorem absentBlocks_eq (dbs : Dbs) (list : Mem) (count : UInt8) :
    absentBlocks dbs list count =
      absentIds (dataBlocksExists .passed dbs) (listIds list (List.range count.toNat)) := by
  apply List.filter_congr
  intro id hid
  rw [dataBlocksExists_passed, slice_ofBytes (listIds_length hid)]
  cases dbs.blocks.lookup id <;> rfl

/-- The hash of `genesis` and another one, in a memory that holds nothing else. -/
def twoHashes : Mem := Mem.ofBytes (genesisHash ++ List.replicate 32 1)

/-- The ids of a list that are not in the database of transactions. -/
def absentTxs (dbs : Dbs) (list : Mem) (count : UInt8) : List Bytes :=
  (listIds list (List.range count.toNat)).filter fun id => dbs.txs.lookup id = none

/-- Those of them that are not in the mempool either. -/
def missingTxs (dbs : Dbs) (list : Mem) (count : UInt8) : List Bytes :=
  (absentTxs dbs list count).filter fun id => mempoolLookup dbs.mempool id = none

/-- What `build_missing_tx_list` copies. -/
theorem buildMissingTxList_eq (dbs : Dbs) (list : Mem) (count : UInt8) (dest : Mem) :
    buildMissingTxList .passed dbs list count dest =
      (UInt8.ofNat (absentTxs dbs list count).length,
        dest.write 0 (absentTxs dbs list count).flatten) := by
  have habsent : absentTxs dbs list count = absentIds
      (fun id => dataTxsExists .passed dbs (id.slice 0 sizeSha256))
      (listIds list (List.range count.toNat)) := by
    apply List.filter_congr
    intro id hid
    dsimp only
    rw [slice_ofBytes (listIds_length hid), dataTxsExists_passed dbs (listIds_length hid)]
    cases dbs.txs.lookup id <;> rfl
  have hfound : ∀ id id' : Mem, id.slice 0 sizeSha256 = id'.slice 0 sizeSha256 →
      dataTxsExists .passed dbs (id.slice 0 sizeSha256) =
        dataTxsExists .passed dbs (id'.slice 0 sizeSha256) :=
    fun _ _ h => congrArg (dataTxsExists .passed dbs) h
  rw [buildMissingTxList, missingLoop_count hfound, ← habsent]

/-- An `<inv>` of transactions is answered as documented: exactly the ids that are neither
in the mempool nor in the database of transactions are asked for. -/
structure AsksForMissing (dbs : Dbs) (resp msg : Mem) (missing : List Bytes) : Prop where
  number : (buildMissingTxList .passed dbs (msg.shift ctypeInvPosIds) (msg ctypeInvPosIdsCount)
    (resp.shift ctypeGetdataPosIds)).1.toNat = missing.length
  copied : (buildMissingTxList .passed dbs (msg.shift ctypeInvPosIds) (msg ctypeInvPosIdsCount)
    (resp.shift ctypeGetdataPosIds)).2.slice 0 (sizeSha256 * missing.length) = missing.flatten
  reply : (handleInv .passed dbs resp msg).2 =
    [.toPeer ctypeGetdata (dtypeTx :: UInt8.ofNat missing.length :: missing.flatten)]

/-- What is asked for is what is absent from the database of transactions. -/
theorem asksForMissing_absentTxs (dbs : Dbs) (resp msg : Mem)
    (hdtype : msg ctypeInvPosDatatype = dtypeTx) :
    AsksForMissing dbs resp msg
      (absentTxs dbs (msg.shift ctypeInvPosIds) (msg ctypeInvPosIdsCount)) := by
  have hlist := buildMissingTxList_eq dbs (msg.shift ctypeInvPosIds) (msg ctypeInvPosIdsCount)
    (resp.shift ctypeGetdataPosIds)
  have hle : (absentTxs dbs (msg.shift ctypeInvPosIds) (msg ctypeInvPosIdsCount)).length ≤
      (msg ctypeInvPosIdsCount).toNat := filter_listIds_length ..
  generalize hids : absentTxs dbs (msg.shift ctypeInvPosIds) (msg ctypeInvPosIdsCount) = ids
    at hlist hle ⊢
  have hflat : ids.flatten.length = sizeSha256 * ids.length := by
    apply flatten_length
    intro id hid
    rw [← hids] at hid
    exact listIds_length (List.mem_filter.mp hid).1
  refine ⟨?_, ?_, ?_⟩
  · rw [hlist]
    exact ofNat_toNat_of_le hle
  · rw [hlist]
    dsimp only
    exact Mem.slice_write_of_length hflat
  · have hblock : ¬ msg ctypeInvPosDatatype = dtypeBlock := by
      rw [hdtype]
      decide
    rw [handleInv, if_neg hblock, if_pos hdtype, hlist, idsReply_sent]
    dsimp only
    rw [ofNat_toNat_of_le hle, Mem.slice_write_of_length (by rw [hflat, Nat.mul_comm])]

/-- **Missing transactions.** The answer is right if and only if every transaction of the
list that is in the mempool is in the database of transactions too. -/
theorem asksForMissing_iff (dbs : Dbs) (resp msg : Mem)
    (hdtype : msg ctypeInvPosDatatype = dtypeTx) :
    AsksForMissing dbs resp msg
        (missingTxs dbs (msg.shift ctypeInvPosIds) (msg ctypeInvPosIdsCount)) ↔
      ∀ id ∈ listIds (msg.shift ctypeInvPosIds) (List.range (msg ctypeInvPosIdsCount).toNat),
        (mempoolLookup dbs.mempool id).isSome = true → (dbs.txs.lookup id).isSome = true := by
  have hasks := asksForMissing_absentTxs dbs resp msg hdtype
  constructor
  · intro h id hid hmempool
    by_contra hnone
    -- the filter has dropped an id, and the count has not
    have hlength := hasks.number.symm.trans h.number
    have hall := List.length_filter_eq_length_iff.mp hlength.symm
    have habsent : id ∈ absentTxs dbs (msg.shift ctypeInvPosIds) (msg ctypeInvPosIdsCount) := by
      apply List.mem_filter.mpr
      exact ⟨hid, by simpa using hnone⟩
    have hpool := of_decide_eq_true (hall id habsent)
    rw [hpool] at hmempool
    cases hmempool
  · intro h
    have hsame : missingTxs dbs (msg.shift ctypeInvPosIds) (msg ctypeInvPosIdsCount) =
        absentTxs dbs (msg.shift ctypeInvPosIds) (msg ctypeInvPosIdsCount) := by
      apply List.filter_eq_self.mpr
      intro id hid
      obtain ⟨hmem, hnone⟩ := List.mem_filter.mp hid
      have hnone := of_decide_eq_true hnone
      apply decide_eq_true
      cases hpool : mempoolLookup dbs.mempool id with
      | none => rfl
      | some e =>
          have hsome := h id hmem (by rw [hpool]; rfl)
          rw [hnone] at hsome
          cases hsome
    rw [hsame]
    exact hasks

/-- An `<inv>` of one transaction. -/
def oneTxInv : Mem := Mem.ofBytes ([dtypeTx, 1] ++ List.replicate 32 7)

/-- An `<inv>` of two transactions. -/
def twoTxInv : Mem := Mem.ofBytes ([dtypeTx, 2] ++ List.replicate 32 7 ++ List.replicate 32 8)

/-- A node that has the first of them in the mempool, and in a block too. -/
def indexedTxNode : Dbs :=
  { emptyNode with
    txs := AList.insert (List.replicate 32 7) (List.replicate 32 0) ∅
    mempool := poolOf [⟨List.replicate 32 7, [], 0, 0, []⟩] }

/-- It asks for the second one alone. -/
theorem asksForMissing_indexedTx :
    twoTxInv ctypeInvPosDatatype = dtypeTx ∧
    AsksForMissing indexedTxNode (fun _ => 0) twoTxInv
      (missingTxs indexedTxNode (twoTxInv.shift ctypeInvPosIds)
        (twoTxInv ctypeInvPosIdsCount)) ∧
    missingTxs indexedTxNode (twoTxInv.shift ctypeInvPosIds) (twoTxInv ctypeInvPosIdsCount) =
      [List.replicate 32 8] := by
  refine ⟨rfl, (asksForMissing_iff indexedTxNode (fun _ => 0) twoTxInv rfl).mpr ?_, ?_⟩
  · decide +kernel
  · decide +kernel

/-- A node that has it in the mempool, and not on the chain. -/
def mempoolOnlyNode : Dbs :=
  { emptyNode with mempool := poolOf [⟨List.replicate 32 7, [], 0, 0, []⟩] }

/-- A transaction that is in the mempool is asked for again. -/
theorem inv_asks_for_mempool_tx :
    (mempoolLookup mempoolOnlyNode.mempool (List.replicate 32 7)).isSome = true ∧
    (handleInv .passed mempoolOnlyNode (fun _ => 0) oneTxInv).2 =
      [.toPeer ctypeGetdata (dtypeTx :: 1 :: List.replicate 32 7)] ∧
    ¬ ∀ (dbs : Dbs) (resp msg : Mem), msg ctypeInvPosDatatype = dtypeTx →
      AsksForMissing dbs resp msg
        (missingTxs dbs (msg.shift ctypeInvPosIds) (msg ctypeInvPosIdsCount)) := by
  have habsent : absentTxs mempoolOnlyNode (oneTxInv.shift ctypeInvPosIds)
      (oneTxInv ctypeInvPosIdsCount) = [List.replicate 32 7] := by
    decide +kernel
  have hmissing : missingTxs mempoolOnlyNode (oneTxInv.shift ctypeInvPosIds)
      (oneTxInv ctypeInvPosIdsCount) = [] := by
    decide +kernel
  have hreply := (asksForMissing_absentTxs mempoolOnlyNode (fun _ => 0) oneTxInv rfl).reply
  rw [habsent] at hreply
  refine ⟨by decide +kernel, hreply, ?_⟩
  intro hall
  have hnothing := (hall mempoolOnlyNode (fun _ => 0) oneTxInv rfl).reply
  rw [hmissing, hreply] at hnothing
  exact absurd hnothing (by simp)

end Freecoin
