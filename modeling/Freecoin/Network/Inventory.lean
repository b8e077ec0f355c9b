import Freecoin.Build

/-!
# network.c: the branches that answer with a list of ids

`<getblocks>` and `<mempool>` are answered with an `<inv>`, an `<inv>` with a
`<getdata>`. Each branch lets a function of build.c put the ids into the
response buffer, writes the data type and the count in front of them, and
sends as many ids as the count says.
-/

namespace Freecoin

open Lib

/-- The end of the three branches: `list` is what the ids part of the response
buffer holds. The buffer and what was sent. -/
def idsReply (ctype dtype count : UInt8) (list resp : Mem) : Mem × List Sent :=
  let resp := resp.splice ctypeInvPosIds list
  let resp := (resp.write ctypeInvPosDatatype [dtype]).write ctypeInvPosIdsCount [count]
  (resp, [.toPeer ctype (resp.slice 0 (2 + count.toNat * sizeSha256))])

variable {B : Bdb} (env : Env B)

/-- The `CTYPE_GETBLOCKS` branch. -/
def handleGetblocks (u : BuildMem) (dbs : Dbs) (resp msg : Mem) : Mem × List Sent :=
  let list := buildBlockList env u dbs (msg.shift ctypeGetblocksPosStartBlock)
    (msg ctypeGetblocksPosBlockCount) (resp.shift ctypeInvPosIds)
  idsReply ctypeInv dtypeBlock list.ret list.dest resp

/-- The `CTYPE_MEMPOOL` branch; see `buildMempoolList` for `ret`. -/
def handleMempool (ret : UInt8) (dbs : Dbs) (resp : Mem) : Except Fault (Mem × List Sent) := do
  let list ← buildMempoolList ret dbs.mempool (resp.shift ctypeInvPosIds)
  return idsReply ctypeInv dtypeTx list.1 list.2 resp

/-- The `CTYPE_INV` branch. -/
def handleInv (B : Bdb) (dbs : Dbs) (resp msg : Mem) : Mem × List Sent :=
  let dtype := msg ctypeInvPosDatatype
  let ids := msg.shift ctypeInvPosIds
  let count := msg ctypeInvPosIdsCount
  if dtype = dtypeBlock then
    let list := buildMissingBlocksList B dbs ids count (resp.shift ctypeGetdataPosIds)
    idsReply ctypeGetdata dtypeBlock list.1 list.2 resp
  else if dtype = dtypeTx then
    let list := buildMissingTxList B dbs ids count (resp.shift ctypeGetdataPosIds)
    idsReply ctypeGetdata dtypeTx list.1 list.2 resp
  else (resp, [])

/-- The payload is the data type, the count and as many ids. -/
theorem idsReply_sent (ctype dtype count : UInt8) (list resp : Mem) :
    (idsReply ctype dtype count list resp).2 =
      [.toPeer ctype (dtype :: count :: list.slice 0 (count.toNat * sizeSha256))] := by
  have hids : Mem.slice (((resp.splice 2 list).write 0 [dtype]).write 1 [count]) 2
      (count.toNat * sizeSha256) = list.slice 0 (count.toNat * sizeSha256) := by
    have hshift := Mem.slice_shift (((resp.splice 2 list).write 0 [dtype]).write 1 [count]) 2 0
      (count.toNat * sizeSha256)
    rw [Mem.shift_write (by simp), Mem.shift_write (by simp), Mem.shift_splice] at hshift
    exact hshift.symm
  unfold idsReply
  dsimp only [ctypeInvPosIds, ctypeInvPosDatatype, ctypeInvPosIdsCount]
  rw [Mem.slice_append, hids]
  rfl

/-! ## The mempool -/

/-- A `<mempool>` is answered as documented: the list holds the hashes of the first
255 entries, or of all of them, and the `<inv>` counts them. -/
structure AnswersMempool (ret : UInt8) (dbs : Dbs) (entries : List MTx) (resp : Mem) :
    Prop where
  list : ∃ dest, buildMempoolList ret dbs.mempool (resp.shift ctypeInvPosIds) =
      .ok (UInt8.ofNat (min entries.length 255), dest) ∧
    ∀ i (hi : i < entries.length), i < 255 →
      dest.slice (sizeSha256 * i) sizeSha256 = entries[i].hash
  inv : ∃ resp' payload, handleMempool ret dbs resp = .ok (resp', [.toPeer ctypeInv payload]) ∧
    payload.length = 2 + sizeSha256 * min entries.length 255 ∧
    payload[ctypeInvPosIdsCount]? = some (UInt8.ofNat (min entries.length 255))

/-- **Answering `<mempool>`.** The answer is right if and only if the place of the
missing result holds it and every entry, read as 32 bytes, is its own hash. -/
theorem answersMempool_iff (ret : UInt8) (dbs : Dbs) (entries : List MTx)
    (hentries : Slots dbs.mempool entries) (resp : Mem) :
    AnswersMempool ret dbs entries resp ↔
      ret.toNat = min entries.length 255 ∧ ∀ tx ∈ entries.take 255, tx.shown = tx.hash := by
  obtain ⟨dest, hrun, hslots⟩ := buildMempoolList_slots hentries ret (resp.shift ctypeInvPosIds)
  have hnat : (UInt8.ofNat (min entries.length 255)).toNat = min entries.length 255 := by
    rw [UInt8.toNat_ofNat', Nat.mod_eq_of_lt (by omega)]
  constructor
  · rintro ⟨⟨dest', hrun', hids⟩, _⟩
    obtain ⟨hret, rfl⟩ := Prod.mk.inj (Except.ok.inj (hrun.symm.trans hrun'))
    refine ⟨by rw [hret, hnat], ?_⟩
    intro tx htx
    obtain ⟨i, hi, rfl⟩ := List.getElem_of_mem htx
    rw [List.length_take] at hi
    rw [List.getElem_take, ← hslots i (by omega)]
    exact hids i (by omega) (by omega)
  · rintro ⟨hret, hshown⟩
    have hret' : ret = UInt8.ofNat (min entries.length 255) :=
      UInt8.toNat_inj.mp (hret.trans hnat.symm)
    have hbranch : handleMempool ret dbs resp = .ok (idsReply ctypeInv dtypeTx ret dest resp) := by
      rw [handleMempool, hrun]
      rfl
    refine ⟨⟨dest, by rw [hrun, hret'], ?_⟩, ?_⟩
    · intro i hi h255
      rw [hslots i hi]
      refine hshown _ (List.mem_take_iff_getElem.mpr ⟨i, by omega, rfl⟩)
    · refine ⟨(idsReply ctypeInv dtypeTx ret dest resp).1,
        dtypeTx :: ret :: dest.slice 0 (ret.toNat * sizeSha256), ?_, ?_, ?_⟩
      · rw [hbranch, ← idsReply_sent]
      · simp only [List.length_cons, Mem.slice_length, hret]
        ring
      · rw [← hret']
        rfl

/-- An entry at an address that spells out its own hash is announced. -/
theorem answersMempool_lucky :
    Slots (poolOf [⟨List.replicate 32 7, [], 0, 0, List.replicate 32 7⟩])
      [⟨List.replicate 32 7, [], 0, 0, List.replicate 32 7⟩] ∧
    AnswersMempool 1
      { emptyNode with mempool := poolOf [⟨List.replicate 32 7, [], 0, 0, List.replicate 32 7⟩] }
      [⟨List.replicate 32 7, [], 0, 0, List.replicate 32 7⟩] fun _ => 0 :=
  ⟨slots_poolOf _, (answersMempool_iff 1 _ _ (slots_poolOf _) _).mpr ⟨by decide, by decide⟩⟩

/-- Any other entry is announced with bytes that are not its hash, even if the result
comes out right. -/
theorem answersMempool_pointer_bytes :
    Slots (poolOf [⟨List.replicate 32 7, [], 0, 0, List.replicate 32 0⟩])
      [⟨List.replicate 32 7, [], 0, 0, List.replicate 32 0⟩] ∧
    ¬ AnswersMempool 1
      { emptyNode with mempool := poolOf [⟨List.replicate 32 7, [], 0, 0, List.replicate 32 0⟩] }
      [⟨List.replicate 32 7, [], 0, 0, List.replicate 32 0⟩] fun _ => 0 := by
  refine ⟨slots_poolOf _, ?_⟩
  rintro ⟨⟨dest, hrun, hids⟩, _⟩
  obtain ⟨dest', hrun', hslots⟩ := buildMempoolList_slots
    (slots_poolOf [⟨List.replicate 32 7, [], 0, 0, List.replicate 32 0⟩]) 1
    (Mem.shift (fun _ => 0) ctypeInvPosIds)
  obtain ⟨_, rfl⟩ := Prod.mk.inj (Except.ok.inj (hrun'.symm.trans hrun))
  have hhash := (hslots 0 (by decide)).symm.trans (hids 0 (by decide) (by decide))
  exact absurd hhash (by decide)

end Freecoin
