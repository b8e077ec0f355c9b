import Freecoin.Data.Revert

/-!
# data.c: `data_limbo_scan`

A cursor runs down the limbo levels and stops at the first one that is not
above the chain height. Each hash of a level is traced back; the first one
whose branch is a valid chain starts a reorganisation. The `else` meant for
hashes that cannot be traced belongs to the inner `if`, so the request for
the missing block goes out for the traced hashes that start nothing.
-/

namespace Freecoin

open Lib Relation

/-- What the node sends. The two `msgall` functions are not defined; they are
recorded with their arguments, `msgall_inv` with the hash its list is built
from. -/
inductive Sent : Type where
  | toPeer (ctype : UInt8) (payload : Bytes)
  | msgallGetdata (dtype : UInt8) (hash : Bytes)
  | msgallInv (dtype : UInt8) (hash : Bytes) (count : UInt32)
deriving DecidableEq

/-- The memory that a call of `data_limbo_scan` is handed uninitialised. -/
structure ScanMem : Type where
  height : HeightMem
  index : Mem
  buffer : Mem
  revert : RevertMem

/-- What the loop carries from one hash to the next. -/
structure ScanState : Type where
  dbs : Dbs
  alreadySwapped : Bool
  sent : List Sent

variable {B : Bdb} (env : Env B)

/-- A traced hash that starts a reorganisation. -/
def startsReorg (s : ScanState) (hash : Mem) : Bool :=
  !s.alreadySwapped && env.isValidChain s.dbs hash (env.canTraceBack s.dbs hash).2

/-- The body of the loop over the hashes of a level; `above` is
`index - curr_height`. -/
def scanHash (u : RevertMem) (fuel : ℕ) (above : UInt32) (s : ScanState) (hash : Mem) :
    Except Fault ScanState :=
  let traced := env.canTraceBack s.dbs hash
  if traced.1 then
    if startsReorg env s hash then do
      let reverted ← dataBlocksRevert env u fuel s.dbs hash traced.2
      let inv := Sent.msgallInv dtypeBlock (hash.slice 0 sizeSha256) above
      return ⟨reverted.2, true, s.sent ++ [inv]⟩
    else
      let getdata := Sent.msgallGetdata dtypeBlock (traced.2.slice 0 sizeSha256)
      .ok { s with sent := s.sent ++ [getdata] }
  else .ok s

/-- The loop over the hashes of the level in `buffer`. -/
def scanLevel (u : RevertMem) (fuel : ℕ) (above : UInt32) (buffer : Mem) (s : ScanState) :
    Except Fault ScanState :=
  (List.range (limboArray env buffer).length.toNat).foldlM
    (fun s i => scanHash env u fuel above s (buffer.shift (4 + sizeSha256 * i))) s

/-- The loop over the levels, from cursor position `pos` on; `n` bounds the passes. -/
def scanLoop (u : RevertMem) (fuel : ℕ) (currHeight : UInt32) :
    ℕ → Option Bytes → Mem → Mem → ScanState → Except Fault ScanState
  | 0, _, _, _, _ => .error .outOfFuel
  | n + 1, pos, index, buffer, s =>
      match dbPrev s.dbs.limbo pos with
      | none => .ok s
      | some (key, record) =>
          if B.fits (newDbt index 4) key.length &&
              B.fits (newDbt buffer (limboBufferSize env)) record.length then
            let index := index.load key
            let buffer := buffer.load record
            let height := hostWord32 env.host index
            if height ≤ currHeight then .ok s
            else do
              let s ← scanLevel env u fuel (height - currHeight) buffer s
              scanLoop u fuel currHeight n (some key) index buffer s
          else .ok s

/-- `data_limbo_scan(dbs, network)`: the databases and what was sent. -/
def dataLimboScan (u : ScanMem) (fuel : ℕ) (dbs : Dbs) : Except Fault (Dbs × List Sent) := do
  let currHeight := dataChainGetHeight env u.height dbs
  let s ← scanLoop env u.revert fuel currHeight fuel none u.index u.buffer ⟨dbs, false, []⟩
  return (s.dbs, s.sent)

/-! ## A scan as a sequence of edits -/

section Edits

variable {env : Env .passed} {u : RevertMem} {blocks : Db} {fuel : ℕ}

theorem scanHash_edits {above : UInt32} {s s' : ScanState} {hash : Mem}
    (h : scanHash env u fuel above s hash = .ok s') (hblocks : s.dbs.blocks = blocks) :
    ReflTransGen (RevertEdit env u blocks) s.dbs s'.dbs := by
  rw [scanHash] at h
  split at h
  · split at h
    · obtain ⟨⟨done, dbs⟩, hrevert, hret⟩ := ok_of_bind h
      cases hret
      subst hblocks
      exact dataBlocksRevert_edits hrevert
    · cases h
      exact .refl
  · cases h
    exact .refl

theorem foldlM_scanHash_edits {above : UInt32} {hashes : ℕ → Mem} {is : List ℕ} :
    ∀ {s s' : ScanState},
      is.foldlM (fun s i => scanHash env u fuel above s (hashes i)) s = .ok s' →
      s.dbs.blocks = blocks → ReflTransGen (RevertEdit env u blocks) s.dbs s'.dbs := by
  induction is with
  | nil =>
      intro s s' h _
      cases h
      exact .refl
  | cons i rest ih =>
      intro s s' h hblocks
      rw [List.foldlM_cons] at h
      obtain ⟨mid, hhash, hrest⟩ := ok_of_bind h
      have hedits := scanHash_edits hhash hblocks
      exact hedits.trans (ih hrest ((edits_blocks_eq hedits).trans hblocks))

theorem scanLoop_edits {currHeight : UInt32} {n : ℕ} :
    ∀ {pos : Option Bytes} {index buffer : Mem} {s s' : ScanState},
      scanLoop env u fuel currHeight n pos index buffer s = .ok s' →
      s.dbs.blocks = blocks → ReflTransGen (RevertEdit env u blocks) s.dbs s'.dbs := by
  induction n with
  | zero =>
      intro pos index buffer s s' h
      cases h
  | succ n ih =>
      intro pos index buffer s s' h hblocks
      rw [scanLoop] at h
      split at h
      · cases h
        exact .refl
      · split at h
        · dsimp only at h
          split at h
          · cases h
            exact .refl
          · obtain ⟨mid, hlevel, hrest⟩ := ok_of_bind h
            have hedits := foldlM_scanHash_edits hlevel hblocks
            exact hedits.trans (ih hrest ((edits_blocks_eq hedits).trans hblocks))
        · cases h
          exact .refl

/-- **Every scan is a sequence of the edits of `data_blocks_revert`.** -/
theorem dataLimboScan_edits {u : ScanMem} {s s' : Dbs} {sent : List Sent}
    (h : dataLimboScan env u fuel s = .ok (s', sent)) :
    ReflTransGen (RevertEdit env u.revert s.blocks) s s' := by
  obtain ⟨last, hloop, hret⟩ := ok_of_bind h
  cases hret
  exact scanLoop_edits hloop rfl

end Edits

/-! ## The hashes that a scan meets -/

/-- The hashes on the limbo levels above the chain, as the cursor comes to them. -/
def limboHashes (currHeight : UInt32) (limbo : Db) : ℕ → Option Bytes → Mem → Mem → List Mem
  | 0, _, _, _ => []
  | n + 1, pos, index, buffer =>
      match dbPrev limbo pos with
      | none => []
      | some (key, record) =>
          if B.fits (newDbt index 4) key.length &&
              B.fits (newDbt buffer (limboBufferSize env)) record.length then
            let index := index.load key
            let buffer := buffer.load record
            if hostWord32 env.host index ≤ currHeight then []
            else
              (List.range (limboArray env buffer).length.toNat).map
                (fun i => buffer.shift (4 + sizeSha256 * i)) ++
                limboHashes currHeight limbo n (some key) index buffer
          else []

/-- The hash is at the end of a branch that the node would change to. -/
def reorgsTo (dbs : Dbs) (hash : Mem) : Bool :=
  (env.canTraceBack dbs hash).1 && env.isValidChain dbs hash (env.canTraceBack dbs hash).2

/-- The hashes that a scan of these databases looks at, as long as it changes nothing. -/
def scannedHashes (u : ScanMem) (dbs : Dbs) : List Mem :=
  limboHashes env (dataChainGetHeight env u.height dbs) dbs.limbo (dbRecords dbs.limbo).length
    none u.index u.buffer

/-- No hash that the scan meets starts a reorganisation. -/
def NoReorg (u : ScanMem) (dbs : Dbs) : Prop :=
  ∀ hash ∈ scannedHashes env u dbs, reorgsTo env dbs hash = false

variable {env}

/-- More passes than there are levels in front of the cursor find no further hash. -/
theorem limboHashes_subset {currHeight : UInt32} {limbo : Db} {n : ℕ} :
    ∀ {m : ℕ} {pos : Option Bytes} {index buffer : Mem}, dbRemaining limbo pos ≤ m →
      limboHashes env currHeight limbo n pos index buffer ⊆
        limboHashes env currHeight limbo m pos index buffer := by
  induction n with
  | zero =>
      intro m pos index buffer _
      exact List.nil_subset _
  | succ n ih =>
      intro m pos index buffer hm
      rw [limboHashes]
      cases hprev : dbPrev limbo pos with
      | none => exact List.nil_subset _
      | some r =>
          have hless := dbPrev_remaining hprev
          cases m with
          | zero => exact absurd (hless.trans_le hm) (Nat.not_lt_zero _)
          | succ m =>
              have hrest := Nat.lt_succ_iff.mp (hless.trans_le hm)
              rw [limboHashes, hprev]
              dsimp only
              split_ifs with hfits hheight
              · exact List.nil_subset _
              · exact List.append_subset.mpr ⟨List.subset_append_left _ _,
                  List.subset_append_of_subset_right _ (ih hrest)⟩
              · exact List.nil_subset _

/-- Every pass of a scan that may start nothing meets hashes that start nothing. -/
theorem NoReorg.limboHashes {u : ScanMem} {dbs : Dbs} (h : NoReorg env u dbs) (n : ℕ) :
    ∀ hash ∈ limboHashes env (dataChainGetHeight env u.height dbs) dbs.limbo n none u.index
      u.buffer, reorgsTo env dbs hash = false :=
  fun hash hmem => h hash (limboHashes_subset (Nat.le_refl _) hmem)

/-! ## Scans that start no reorganisation -/

section Quiet

variable {env : Env .passed} {dbs : Dbs}

theorem scanHash_quiet {hash : Mem} (hno : reorgsTo env dbs hash = false) (u : RevertMem)
    (fuel : ℕ) (above : UInt32) (swapped : Bool) (sent : List Sent) :
    ∃ sent', scanHash env u fuel above ⟨dbs, swapped, sent⟩ hash = .ok ⟨dbs, swapped, sent'⟩ := by
  rw [scanHash]
  by_cases htraced : (env.canTraceBack dbs hash).1 = true
  · rw [reorgsTo, htraced, Bool.true_and] at hno
    have hstart : startsReorg env ⟨dbs, swapped, sent⟩ hash = false := by
      rw [startsReorg, hno, Bool.and_false]
    simp [htraced, hstart]
  · simp [htraced]

theorem foldlM_scanHash_quiet (u : RevertMem) (fuel : ℕ) (above : UInt32) (hashes : ℕ → Mem)
    {is : List ℕ} (hno : ∀ i ∈ is, reorgsTo env dbs (hashes i) = false) :
    ∀ (swapped : Bool) (sent : List Sent), ∃ sent',
      is.foldlM (fun s i => scanHash env u fuel above s (hashes i)) ⟨dbs, swapped, sent⟩ =
        .ok ⟨dbs, swapped, sent'⟩ := by
  induction is with
  | nil => intro swapped sent; exact ⟨sent, rfl⟩
  | cons i rest ih =>
      intro swapped sent
      obtain ⟨mid, hmid⟩ := scanHash_quiet (hno i (List.mem_cons_self ..)) u fuel above swapped sent
      obtain ⟨last, hlast⟩ := ih (fun j hj => hno j (List.mem_cons_of_mem _ hj)) swapped mid
      exact ⟨last, by rw [List.foldlM_cons, hmid]; exact hlast⟩

/-- A level with hashes that start nothing changes nothing. -/
theorem scanLevel_quiet {buffer : Mem} {later : List Mem}
    (hno : ∀ hash ∈ (List.range (limboArray env buffer).length.toNat).map
      (fun i => buffer.shift (4 + sizeSha256 * i)) ++ later, reorgsTo env dbs hash = false)
    (u : RevertMem) (fuel : ℕ) (above : UInt32) (swapped : Bool) (sent : List Sent) :
    ∃ sent', scanLevel env u fuel above buffer ⟨dbs, swapped, sent⟩ =
      .ok ⟨dbs, swapped, sent'⟩ :=
  foldlM_scanHash_quiet u fuel above _
    (fun _ hi => hno _ (List.mem_append_left _ (List.mem_map_of_mem hi))) swapped sent

theorem scanLoop_quiet (u : RevertMem) (fuel : ℕ) (currHeight : UInt32) {n : ℕ} :
    ∀ (pos : Option Bytes) (index buffer : Mem) (swapped : Bool) (sent : List Sent),
      (∀ hash ∈ limboHashes env currHeight dbs.limbo n pos index buffer,
        reorgsTo env dbs hash = false) →
      (n ≤ dbRemaining dbs.limbo pos ∧
        scanLoop env u fuel currHeight n pos index buffer ⟨dbs, swapped, sent⟩ =
          .error .outOfFuel) ∨
      ∃ sent', scanLoop env u fuel currHeight n pos index buffer ⟨dbs, swapped, sent⟩ =
        .ok ⟨dbs, swapped, sent'⟩ := by
  -- the databases stay as they are, so every pass has fewer levels in front of it
  induction n with
  | zero =>
      intro pos index buffer swapped sent _
      exact .inl ⟨Nat.zero_le _, rfl⟩
  | succ n ih =>
      intro pos index buffer swapped sent hno
      rw [limboHashes] at hno
      rw [scanLoop]
      cases hprev : dbPrev dbs.limbo pos with
      | none => exact .inr ⟨sent, rfl⟩
      | some r =>
          have hless := dbPrev_remaining hprev
          rw [hprev] at hno
          simp only at hno ⊢
          split_ifs at hno ⊢ with hfits hheight
          · exact .inr ⟨sent, rfl⟩
          · obtain ⟨mid, hmid⟩ := scanLevel_quiet hno u fuel _ swapped sent
            rw [hmid]
            rcases ih (some r.1) (index.load r.1) (buffer.load r.2) swapped mid
              (fun hash hmem => hno hash (List.mem_append_right _ hmem)) with
              ⟨hshort, hfuel⟩ | ⟨last, hlast⟩
            · exact .inl ⟨Nat.succ_le_of_lt (hshort.trans_lt hless), hfuel⟩
            · exact .inr ⟨last, hlast⟩
          · exact .inr ⟨sent, rfl⟩

/-- A scan that starts no reorganisation leaves the databases alone, and with fuel
for every level it returns. -/
theorem dataLimboScan_quiet {u : ScanMem} (hno : NoReorg env u dbs) (fuel : ℕ) :
    (fuel ≤ (dbRecords dbs.limbo).length ∧ dataLimboScan env u fuel dbs = .error .outOfFuel) ∨
    ∃ sent, dataLimboScan env u fuel dbs = .ok (dbs, sent) := by
  rcases scanLoop_quiet u.revert fuel (dataChainGetHeight env u.height dbs) none u.index u.buffer
    false [] (hno.limboHashes fuel) with ⟨hshort, hfuel⟩ | ⟨sent, hloop⟩
  · exact .inl ⟨hshort, by rw [dataLimboScan, hfuel]; rfl⟩
  · exact .inr ⟨sent, by rw [dataLimboScan, hloop]; rfl⟩

end Quiet

end Freecoin
