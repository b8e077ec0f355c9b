import Freecoin.Locks.Calls
import Freecoin.Reorg.Atomicity
import Freecoin.Reorg.Termination

/-!
# The mempool is only touched under its mutex

Above the mempool functions data.c says that their callers shall do the
locking. The branches of `handle_connection` that call them directly do, so
what is left is the reorganisation that a `<block>` may start, and the miner.
Neither locks anything: a connection keeps to the rule as long as none of its
reorganisations comes across a transaction, and the miner as long as it does
not get to its check for new transactions at all.
-/

namespace Freecoin.Locks

open Lib Lib.Traced

/-! ## What is done without the mutex -/

section Touches

variable {B : Bdb} {env : Env B}

theorem oldTxs_touches {u : ℕ → EntryMem} {txs : List Mem} : ∀ {j : ℕ} {dbs : Dbs},
    Records (· = .touch) (oldTxs env u txs j dbs) := by
  induction txs with
  | nil => intro j dbs; exact .pure dbs
  | cons tx rest ih =>
      intro j dbs
      exact (Records.touching _).bind fun mempool => ih

theorem oldBlocks_touches {u : RevertMem} {common n : ℕ} : ∀ {s : RevertState},
    Records (· = .touch) (oldBlocks env u common n s) := by
  induction n with
  | zero => intro s; exact .pure _
  | succ n ih =>
      intro s
      rw [oldBlocks]
      split
      · exact oldTxs_touches.bind fun dbs => ih
      · exact .pure _

theorem newTxs_touches {blockHash : Bytes} {txs : List Mem} : ∀ {dbs : Dbs},
    Records (· = .touch) (newTxs env blockHash txs dbs) := by
  induction txs with
  | nil => intro dbs; exact .pure dbs
  | cons tx rest ih =>
      intro dbs
      exact (Records.touching _).bind fun deleted => ih

theorem newBlocks_touches {u : RevertMem} {common : UInt32} {fuel : ℕ} :
    ∀ {k : ℕ} {s : RevertState}, Records (· = .touch) (newBlocks env u common fuel k s) := by
  induction fuel with
  | zero => intro k s; exact .lift _
  | succ fuel ih =>
      intro k s
      rw [newBlocks]
      dsimp only
      split
      · exact .pure _
      · exact newTxs_touches.bind fun dbs => ih

theorem dataBlocksRevert_touches (u : RevertMem) (fuel : ℕ) (dbs : Dbs) (common newLatest : Mem) :
    Records (· = .touch) (dataBlocksRevert env u fuel dbs common newLatest) := by
  rw [dataBlocksRevert]
  dsimp only
  split
  · refine oldBlocks_touches.bind fun old => ?_
    split
    · exact newBlocks_touches.bind fun s => .pure _
    · exact .pure _
  · exact .pure _

theorem scanHash_touches (u : RevertMem) (fuel : ℕ) (above : UInt32) (s : ScanState)
    (hash : Mem) : Records (· = .touch) (scanHash env u fuel above s hash) := by
  rw [scanHash]
  dsimp only
  split
  · split
    · exact (dataBlocksRevert_touches ..).bind fun reverted => .pure _
    · exact .pure _
  · exact .pure _

theorem scanLevel_touches (u : RevertMem) (fuel : ℕ) (above : UInt32) (buffer : Mem)
    (s : ScanState) : Records (· = .touch) (scanLevel env u fuel above buffer s) :=
  Records.foldlM (fun _ _ => scanHash_touches ..) _ s

theorem scanLoop_touches {u : RevertMem} {fuel : ℕ} {currHeight : UInt32} {n : ℕ} :
    ∀ {pos : Option Bytes} {index buffer : Mem} {s : ScanState},
      Records (· = .touch) (scanLoop env u fuel currHeight n pos index buffer s) := by
  induction n with
  | zero => intro pos index buffer s; exact .lift _
  | succ n ih =>
      intro pos index buffer s
      rw [scanLoop]
      cases dbPrev s.dbs.limbo pos with
      | none => exact .pure _
      | some r =>
          dsimp only
          split
          · split
            · exact .pure _
            · exact (scanLevel_touches ..).bind fun s => ih
          · exact .pure _

theorem handleBlock_touches (u : BlockMem) (fuel : ℕ) (dbs : Dbs) (msg : Mem) :
    Records (· = .touch) (handleBlock env u fuel dbs msg) :=
  (scanLoop_touches.bind fun _ => .pure _).bind fun _ => .pure _

end Touches

/-! ## A reorganisation that finds no transaction -/

section Reorg

variable (env : Env .passed)

/-- No block that a call of `data_blocks_revert` comes across holds a transaction: none
of the old blocks that are stored and, if all of them are, none of the blocks in the
buffer of the second loop, down to the common height. -/
def RevertMovesNoTx (u : RevertMem) (fuel : ℕ) (dbs : Dbs) (common newLatest : Mem) : Prop :=
  (dataBlocksGetHeader .passed dbs common u.commonBlock).1 = true →
    (∀ b ∈ (revertOldWalk env u dbs common).blocks, blockTxs env.host b.2 = []) ∧
    ((revertOldWalk env u dbs common).found = true → ∀ n < fuel,
      (∀ m ≤ n, blockGetHeight env.host ((revertBuffers env u dbs common newLatest).block dbs m) ≠
        commonHeight env u dbs common) →
      blockTxs env.host ((revertBuffers env u dbs common newLatest).block dbs n) = [])

variable {env}

theorem oldTxs_quiet_iff (u : ℕ → EntryMem) (txs : List Mem) (j : ℕ) (dbs : Dbs) :
    (oldTxs env u txs j dbs).events = [] ↔ txs = [] := by
  cases txs with
  | nil => exact iff_of_true rfl rfl
  | cons tx rest => exact iff_of_false (List.cons_ne_nil _ _) (List.cons_ne_nil _ _)

theorem newTxs_quiet_iff (blockHash : Bytes) (txs : List Mem) (dbs : Dbs) :
    (newTxs env blockHash txs dbs).events = [] ↔ txs = [] := by
  cases txs with
  | nil => exact iff_of_true rfl rfl
  | cons tx rest => exact iff_of_false (List.cons_ne_nil _ _) (List.cons_ne_nil _ _)

theorem oldBlocks_quiet_iff {u : RevertMem} {dbs : Dbs} {common n : ℕ} : ∀ {s : RevertState},
    SameReads env s.dbs dbs → ((oldBlocks env u common n s).events = [] ↔
      ∀ b ∈ (oldWalk env dbs common n s.currBlock s.currBlockHash).blocks,
        blockTxs env.host b.2 = []) := by
  induction n with
  | zero => intro s _; exact iff_of_true rfl fun b hb => absurd hb List.not_mem_nil
  | succ n ih =>
      intro s hreads
      rw [oldBlocks, hreads.chain, hreads.get, oldWalk]
      generalize (dataChainGet env dbs (UInt32.ofNat (common + (n + 1))) s.currBlockHash).2 = hash
      generalize dataBlocksGet .passed dbs hash s.currBlock = got
      obtain ⟨ret, block⟩ := got
      cases ret with
      | false => exact iff_of_true rfl fun b hb => absurd hb List.not_mem_nil
      | true =>
          simp only [if_true, List.forall_mem_cons]
          rw [events_bind, List.append_eq_nil_iff, oldTxs_quiet_iff]
          refine and_congr_right fun hnone => ?_
          rw [hnone]
          have hreads' : SameReads env
              (dataLimboSafeAdd env (u.limboAdd (common + (n + 1))) s.dbs block) dbs :=
            ⟨hreads.blocks, hreads.chain⟩
          exact ih hreads'

/-- The passes of the second loop, with the first of them apart. -/
theorem forall_pass_succ_iff {fuel : ℕ} {goesOn quiet : ℕ → Prop} :
    (∀ n < fuel + 1, (∀ m ≤ n, goesOn m) → quiet n) ↔
      (goesOn 0 → quiet 0 ∧ ∀ n < fuel, (∀ m ≤ n, goesOn (m + 1)) → quiet (n + 1)) := by
  constructor
  · intro h hzero
    refine ⟨h 0 (Nat.succ_pos fuel) fun m hm => ?_, fun n hn hgoes => ?_⟩
    · rw [Nat.le_zero.mp hm]
      exact hzero
    · refine h (n + 1) (Nat.succ_lt_succ hn) fun m hm => ?_
      cases m with
      | zero => exact hzero
      | succ m => exact hgoes m (Nat.le_of_succ_le_succ hm)
  · intro h n hn hgoes
    obtain ⟨hfirst, hlater⟩ := h (hgoes 0 (Nat.zero_le n))
    cases n with
    | zero => exact hfirst
    | succ n =>
        exact hlater n (Nat.lt_of_succ_lt_succ hn) fun m hm => hgoes (m + 1) (Nat.succ_le_succ hm)

theorem newBlocks_quiet_iff {u : RevertMem} {dbs : Dbs} {common : UInt32} {fuel : ℕ} :
    ∀ {k : ℕ} {s : RevertState} {b : Buffers}, SameReads env s.dbs dbs →
      b = ⟨s.currBlock, s.currBlockHash⟩ → ((newBlocks env u common fuel k s).events = [] ↔
        ∀ n < fuel, (∀ m ≤ n, blockGetHeight env.host (b.block dbs m) ≠ common) →
          blockTxs env.host (b.block dbs n) = []) := by
  induction fuel with
  | zero =>
      intro k s b _ _
      exact iff_of_true rfl fun n hn => absurd hn (Nat.not_lt_zero n)
  | succ fuel ih =>
      intro k s b hreads hb
      rw [forall_pass_succ_iff]
      simp only [Buffers.block_succ]
      subst hb
      rw [newBlocks, hreads.get]
      have hblock : (dataBlocksGet .passed dbs s.currBlockHash s.currBlock).2 =
          Buffers.block dbs ⟨s.currBlock, s.currBlockHash⟩ 0 := rfl
      rw [hblock]
      dsimp only
      split
      · rename_i hheight
        exact iff_of_true rfl fun hgoes => absurd hheight hgoes
      · rename_i hheight
        rw [events_bind, List.append_eq_nil_iff, newTxs_quiet_iff, forall_prop_of_true hheight]
        refine and_congr_right fun hnone => ?_
        rw [hnone]
        exact ih (hreads.filed _ _ _) rfl

/-- Blocks without transactions leave the mempool alone. -/
theorem fileOld_noTx {u : RevertMem} {blocks : List (ℕ × Mem)} (dbs : Dbs)
    (h : ∀ b ∈ blocks, blockTxs env.host b.2 = []) :
    ∃ filed, fileOld env u blocks dbs = .ok filed := by
  have hnone : oldEntries env u blocks = [] := by
    refine List.flatMap_eq_nil_iff.mpr fun b hb => ?_
    rw [h b hb]
    rfl
  rw [fileOld_eq, hnone]
  exact ⟨_, rfl⟩

/-- **A call** leaves the mempool alone exactly if it finds no transaction. -/
theorem dataBlocksRevert_quiet_iff (u : RevertMem) (fuel : ℕ) (dbs : Dbs) (common newLatest : Mem) :
    (dataBlocksRevert env u fuel dbs common newLatest).events = [] ↔
      RevertMovesNoTx env u fuel dbs common newLatest := by
  rw [dataBlocksRevert, RevertMovesNoTx]
  dsimp only
  split
  · rename_i hheader
    rw [forall_prop_of_true hheader, events_bind, List.append_eq_nil_iff,
      oldBlocks_quiet_iff (.refl dbs)]
    refine and_congr_right fun hold => ?_
    obtain ⟨filed, hfiled⟩ := fileOld_noTx (u := u) dbs hold
    rw [oldBlocks_result, oldBlocks_eq (.refl dbs), hfiled]
    show Traced.events (if (revertOldWalk env u dbs common).found then _ else _) = [] ↔ _
    split
    · rename_i hfound
      rw [forall_prop_of_true hfound, events_bind_pure]
      exact newBlocks_quiet_iff (fileOld_sameReads hfiled) rfl
    · rename_i hfound
      exact iff_of_true rfl fun h => absurd h hfound
  · rename_i hheader
    exact iff_of_true rfl fun h => absurd h hheader

end Reorg

/-! ## The one reorganisation of a scan -/

section Scan

variable {B : Bdb} (env : Env B)

/-- The hash for which a scan starts its reorganisation, if it does. -/
def scanReorg (u : ScanMem) (fuel : ℕ) (dbs : Dbs) : Option Mem :=
  (limboHashes env (dataChainGetHeight env u.height dbs) dbs.limbo fuel none u.index
    u.buffer).find? (reorgsTo env dbs)

/-- What a reorganisation for the hash does to the mempool. -/
def reorgEvents (u : RevertMem) (fuel : ℕ) (dbs : Dbs) : Option Mem → List MutexEvent
  | none => []
  | some hash => (dataBlocksRevert env u fuel dbs hash (env.canTraceBack dbs hash).2).events

/-- What a part of a scan that looks at the given hashes can do: nothing but ask for
blocks, or reorganise the chain for the first of the hashes that it can. -/
inductive ScanPart (u : RevertMem) (fuel : ℕ) (s : ScanState) (hashes : List Mem)
    (x : Thread ScanState) : Prop where
  | quiet (h : s.alreadySwapped = true ∨ hashes.find? (reorgsTo env s.dbs) = none)
      (sent : List Sent) (hx : x = pure { s with sent := sent }) : ScanPart u fuel s hashes x
  | reorg (h : s.alreadySwapped = false) (hash : Mem)
      (hfind : hashes.find? (reorgsTo env s.dbs) = some hash)
      (hevents : x.events = reorgEvents env u fuel s.dbs (some hash))
      (hafter : ∀ s', x.result = .ok s' → s'.alreadySwapped = true) : ScanPart u fuel s hashes x

variable {env} {u : RevertMem} {fuel : ℕ}

/-- Once the flag is up, a part of a scan does nothing. -/
theorem ScanPart.swapped {s : ScanState} {hashes : List Mem} {x : Thread ScanState}
    (hx : ScanPart env u fuel s hashes x) (h : s.alreadySwapped = true) :
    ∃ sent, x = pure { s with sent := sent } := by
  cases hx with
  | quiet _ sent hx => exact ⟨sent, hx⟩
  | reorg hnot => exact absurd (hnot.symm.trans h) (by decide)

/-- Two parts, one after the other. -/
theorem ScanPart.bind {s : ScanState} {hashes later : List Mem} {x : Thread ScanState}
    {f : ScanState → Thread ScanState} (hx : ScanPart env u fuel s hashes x)
    (hf : ∀ s, ScanPart env u fuel s later (f s)) :
    ScanPart env u fuel s (hashes ++ later) (x >>= f) := by
  cases hx with
  | quiet hquiet sent hx =>
      rw [hx, pure_bind]
      cases hf { s with sent := sent } with
      | quiet hlater sent hf =>
          refine .quiet ?_ sent hf
          rw [List.find?_append, Option.or_eq_none_iff]
          rcases hquiet with hswapped | hnone
          · exact .inl hswapped
          · exact hlater.imp_right fun hrest => ⟨hnone, hrest⟩
      | reorg hswapped hash hfind hevents hafter =>
          refine .reorg hswapped hash ?_ hevents hafter
          rw [List.find?_append, hquiet.resolve_left (by rw [hswapped]; decide), Option.none_or]
          exact hfind
  | reorg hswapped hash hfind hevents hafter =>
      refine .reorg hswapped hash ?_ ?_ ?_
      · rw [List.find?_append, hfind, Option.some_or]
      · rw [events_bind_quiet, hevents]
        intro mid hmid
        obtain ⟨sent, hrest⟩ := (hf mid).swapped (hafter mid hmid)
        rw [hrest]
        rfl
      · intro s' h
        rw [result_bind] at h
        obtain ⟨mid, hmid, hlast⟩ := ok_of_bind h
        obtain ⟨sent, hrest⟩ := (hf mid).swapped (hafter mid hmid)
        rw [hrest] at hlast
        cases hlast
        exact hafter mid hmid

theorem scanHash_part (above : UInt32) (s : ScanState) (hash : Mem) :
    ScanPart env u fuel s [hash] (scanHash env u fuel above s hash) := by
  rw [scanHash]
  dsimp only
  split
  · rename_i htraced
    have hreorgs : reorgsTo env s.dbs hash =
        env.isValidChain s.dbs hash (env.canTraceBack s.dbs hash).2 := by
      rw [reorgsTo, htraced, Bool.true_and]
    split
    · rename_i hstarts
      rw [startsReorg, Bool.and_eq_true, Bool.not_eq_true', ← hreorgs] at hstarts
      refine .reorg hstarts.1 hash (List.find?_cons_of_pos hstarts.2) (events_bind_pure _ _) ?_
      intro s' h
      rw [result_bind] at h
      obtain ⟨reverted, -, hret⟩ := ok_of_bind h
      cases hret
      rfl
    · rename_i hstarts
      rw [startsReorg, Bool.and_eq_true, Bool.not_eq_true', not_and_or, ← hreorgs] at hstarts
      refine .quiet ?_ _ rfl
      exact hstarts.imp Bool.eq_true_of_not_eq_false fun hnot => List.find?_cons_of_neg hnot
  · rename_i htraced
    refine .quiet (.inr (List.find?_cons_of_neg ?_)) s.sent rfl
    rw [reorgsTo, Bool.eq_false_of_not_eq_true htraced, Bool.false_and]
    decide

theorem foldlM_scanHash_part (above : UInt32) (hashes : ℕ → Mem) (is : List ℕ) :
    ∀ s : ScanState, ScanPart env u fuel s (is.map hashes)
      (is.foldlM (fun s i => scanHash env u fuel above s (hashes i)) s) := by
  induction is with
  | nil => intro s; exact .quiet (.inr rfl) s.sent rfl
  | cons i rest ih =>
      intro s
      rw [List.foldlM_cons, List.map_cons]
      exact (scanHash_part above s (hashes i)).bind ih

/-- Once a scan has reorganised the chain, it leaves the mempool alone. -/
theorem scanLoop_swapped {currHeight : UInt32} {n : ℕ} :
    ∀ {pos : Option Bytes} {index buffer : Mem} {s : ScanState}, s.alreadySwapped = true →
      (scanLoop env u fuel currHeight n pos index buffer s).events = [] := by
  induction n with
  | zero => intro pos index buffer s _; rfl
  | succ n ih =>
      intro pos index buffer s hswapped
      rw [scanLoop]
      cases dbPrev s.dbs.limbo pos with
      | none => rfl
      | some r =>
          dsimp only
          split
          · split
            · rfl
            · obtain ⟨sent, hlevel⟩ := (foldlM_scanHash_part _ _ _ s).swapped hswapped
              rw [scanLevel, hlevel, pure_bind]
              exact ih hswapped
          · rfl

/-- **A scan** does to the mempool what its reorganisation does. -/
theorem scanLoop_events {currHeight : UInt32} {n : ℕ} :
    ∀ {pos : Option Bytes} {index buffer : Mem} {s : ScanState}, s.alreadySwapped = false →
      (scanLoop env u fuel currHeight n pos index buffer s).events =
        reorgEvents env u fuel s.dbs ((limboHashes env currHeight s.dbs.limbo n pos index
          buffer).find? (reorgsTo env s.dbs)) := by
  induction n with
  | zero => intro pos index buffer s _; rfl
  | succ n ih =>
      intro pos index buffer s hswapped
      rw [scanLoop, limboHashes]
      cases dbPrev s.dbs.limbo pos with
      | none => rfl
      | some r =>
          dsimp only
          split
          · split
            · rfl
            · rw [scanLevel, List.find?_append]
              cases foldlM_scanHash_part _ _ _ s with
              | quiet hquiet sent hlevel =>
                  rw [hlevel, pure_bind, hquiet.resolve_left (by rw [hswapped]; decide),
                    Option.none_or]
                  exact ih hswapped
              | reorg _ hash hfind hevents hafter =>
                  rw [hfind, Option.some_or, events_bind_quiet, hevents]
                  intro mid hmid
                  exact scanLoop_swapped (hafter mid hmid)
          · rfl

theorem handleBlock_events (u : BlockMem) (dbs : Dbs) (msg : Mem) :
    (handleBlock env u fuel dbs msg).events =
      reorgEvents env u.scan.revert fuel (fileBlock env u dbs (msg.shift ctypeBlockPosBlock))
        (scanReorg env u.scan fuel (fileBlock env u dbs (msg.shift ctypeBlockPosBlock))) := by
  rw [handleBlock, events_bind_pure, dataLimboScan, events_bind_pure]
  exact scanLoop_events rfl

end Scan

/-! ## A connection -/

section Connection

variable (env : Env .passed) (net : Net)

/-- The reorganisation that a scan starts, if it does, finds no transaction. -/
def ScanMovesNoTx (u : ScanMem) (fuel : ℕ) (dbs : Dbs) : Prop :=
  ∀ hash, scanReorg env u fuel dbs = some hash →
    RevertMovesNoTx env u.revert fuel dbs hash (env.canTraceBack dbs hash).2

/-- If the message is a `<block>`, that holds of the scan after the block is stored and
filed. -/
def MessageMovesNoTx (u : MsgMem) (fuel : ℕ) (dbs : Dbs) (msg : Mem) : Prop :=
  msgCtype msg = ctypeBlock → net.lastOpens = true →
    ScanMovesNoTx env u.block.scan fuel
      (fileBlock env u.block dbs (msg.shift ctypeBlockPosBlock))

/-- A message of the right version: its number, and the databases it finds. -/
structure Received : Type where
  k : ℕ
  dbs : Dbs
  msg : Mem

/-- The messages that a run of `handle_connection` comes to handle. -/
def receivedMessages (others : ℕ → Dbs → Dbs) (u : ℕ → MsgMem) (fuel : ℕ) :
    List Bytes → ℕ → Mem → Conn → List Received
  | [], _, _, _ => []
  | chunk :: rest, k, stale, s =>
      let msg := recvMsg stale chunk
      if chunk = [] then []
      else if msgVersion env.host msg = clientVersion then
        ⟨k, others k s.dbs, msg⟩ ::
          match Freecoin.handleMessage env net (u k) fuel { s with dbs := others k s.dbs } msg with
          | .error _ => []
          | .ok (s', _) => receivedMessages others u fuel rest (k + 1) msg s'
      else []

variable {env net}

theorem answerTx_touches (mempool : Mempool) (msg resp : Mem) (i : ℕ) :
    Records (· = .touch) (answerTx mempool msg resp i) := by
  refine (Records.touching _).bind fun found => ?_
  split
  · refine (Records.touching _).bind fun got => ?_
    split
    · exact .lift _
    · exact .pure _
  · exact .pure _

theorem answerTxs_touches (mempool : Mempool) (msg : Mem) : ∀ (is : List ℕ) (resp : Mem),
    Records (· = .touch) (answerTxs mempool msg is resp) := by
  intro is
  induction is with
  | nil => intro resp; exact .pure _
  | cons i rest ih =>
      intro resp
      exact (answerTx_touches ..).bind fun done => (ih done.1).bind fun _ => .pure _

theorem handleMempool_bracketed (ret : UInt8) (dbs : Dbs) (resp : Mem) :
    Bracketed (handleMempool ret dbs resp) := by
  refine (Bracketed.map (.locked ?_) _).map _
  exact (Records.touching _).bind fun max => .foldlM (fun _ _ => .touching _) _ _

theorem handleGetdata_bracketed (addr : UInt8) (dbs : Dbs) (resp msg : Mem) :
    Bracketed (handleGetdata env net addr dbs resp msg) := by
  rw [handleGetdata]
  split
  · exact .locked (answerTxs_touches ..)
  · exact .lift _

theorem handleTx_bracketed (dest : Mem) (u : EntryMem) (dbs : Dbs) (msg : Mem) :
    Bracketed (handleTx env dest u dbs msg) := by
  refine .locked ((Records.touching _).bind fun count => ?_)
  split
  · exact (Records.lift _).bind fun tx => (Records.touching _).bind fun mempool => .pure _
  · exact .pure _

theorem handleBlock_disciplined_iff (u : BlockMem) (fuel : ℕ) (dbs : Dbs) (msg : Mem) :
    Disciplined false (handleBlock env u fuel dbs msg).events ↔
      ScanMovesNoTx env u.scan fuel (fileBlock env u dbs (msg.shift ctypeBlockPosBlock)) := by
  rw [disciplined_free_touches_iff (handleBlock_touches ..).kind, handleBlock_events,
    ScanMovesNoTx]
  generalize fileBlock env u dbs (msg.shift ctypeBlockPosBlock) = filed
  cases scanReorg env u.scan fuel filed with
  | none =>
      refine iff_of_true rfl ?_
      intro hash h
      cases h
  | some hash =>
      simp only [Option.some_inj, forall_eq']
      exact dataBlocksRevert_quiet_iff ..

/-- Outside the `<block>` branch the code does its own locking. -/
theorem handleMessage_bracketed {u : MsgMem} {fuel : ℕ} {s : Conn} {msg : Mem}
    (hblock : msgCtype msg ≠ ctypeBlock) : Bracketed (handleMessage env net u fuel s msg) := by
  rw [handleMessage]
  split
  · exact (handleMempool_bracketed ..).map _
  · split
    · exact (handleGetdata_bracketed ..).map _
    · split
      · exact (handleTx_bracketed ..).map _
      · exact .lift _

theorem handleMessage_blockEvents {u : MsgMem} {fuel : ℕ} {s : Conn} {msg : Mem}
    (hblock : msgCtype msg = ctypeBlock) :
    (handleMessage env net u fuel s msg).events =
      if net.lastOpens then (handleBlock env u.block fuel s.dbs msg).events else [] := by
  rw [handleMessage, hblock]
  show Traced.events (if net.lastOpens then _ else _) = _
  split
  · exact events_bind_pure _ _
  · rfl

/-- **A message** is handled with discipline exactly if it moves no transaction. -/
theorem handleMessage_disciplined_iff (u : MsgMem) (fuel : ℕ) (s : Conn) (msg : Mem) :
    Disciplined false (handleMessage env net u fuel s msg).events ↔
      MessageMovesNoTx env net u fuel s.dbs msg := by
  by_cases hblock : msgCtype msg = ctypeBlock
  · rw [handleMessage_blockEvents hblock, MessageMovesNoTx, forall_prop_of_true hblock]
    split
    · rename_i hopens
      rw [forall_prop_of_true hopens]
      exact handleBlock_disciplined_iff ..
    · rename_i hopens
      exact iff_of_true trivial fun h => absurd h hopens
  · exact iff_of_true (handleMessage_bracketed hblock).disciplined fun h => absurd h hblock

/-- The mutex is free between two messages. -/
theorem handleMessage_released {u : MsgMem} {fuel : ℕ} {s : Conn} {msg : Mem}
    {out : Conn × List Sent} (h : (handleMessage env net u fuel s msg).result = .ok out) :
    heldAfter false (handleMessage env net u fuel s msg).events = false := by
  by_cases hblock : msgCtype msg = ctypeBlock
  · rw [handleMessage_blockEvents hblock]
    split
    · exact heldAfter_touches (handleBlock_touches ..).kind false
    · rfl
  · exact (handleMessage_bracketed hblock).released out h

/-- **A connection** is disciplined exactly if all of its messages are. -/
theorem handleConnection_disciplined_iff {others : ℕ → Dbs → Dbs} {u : ℕ → MsgMem} {fuel : ℕ}
    {chunks : List Bytes} : ∀ {k : ℕ} {stale : Mem} {s : Conn},
      Disciplined false (handleConnection env net others u fuel chunks k stale s).1 ↔
        ∀ m ∈ receivedMessages env net others u fuel chunks k stale s,
          MessageMovesNoTx env net (u m.k) fuel m.dbs m.msg := by
  induction chunks with
  | nil => intro k stale s; exact iff_of_true trivial fun m hm => absurd hm List.not_mem_nil
  | cons chunk rest ih =>
      intro k stale s
      rw [handleConnection, receivedMessages]
      dsimp only
      have hnone : ∀ m ∈ ([] : List Received), MessageMovesNoTx env net (u m.k) fuel m.dbs m.msg :=
        List.forall_mem_nil _
      split
      · exact iff_of_true trivial hnone
      · split
        · rw [List.forall_mem_cons, ← handleMessage_result]
          cases hresult : (handleMessage env net (u k) fuel { s with dbs := others k s.dbs }
              (recvMsg stale chunk)).result with
          | error e => exact (handleMessage_disciplined_iff ..).trans (and_iff_left hnone).symm
          | ok out =>
              dsimp only
              rw [disciplined_append, handleMessage_released hresult,
                handleMessage_disciplined_iff]
              exact and_congr_right fun _ => ih
        · exact iff_of_true trivial hnone

end Connection

/-! ## The miner -/

/-- No block that is started is worked on: the chain has moved on each time. -/
def NeverMines (o : ByteOrder) (H : Digest) (addr : UInt8) :
    List (NewBlock × List Pass) → Mem → Prop
  | [], _ => True
  | block :: rest, workblock => ∀ started, startBlock o H addr block.1 workblock = .ok started →
      block.2 = [] ∧ NeverMines o H addr rest started

theorem addMempoolTxs_touches {o : ByteOrder} {addr : UInt8} {mempool : Mempool} {n : ℕ} :
    ∀ {i : ℕ} {workblock : Mem},
      Records (· = .touch) (addMempoolTxs o addr mempool n i workblock) := by
  induction n with
  | zero => intro i workblock; exact .pure _
  | succ n ih =>
      intro i workblock
      exact (Records.touching _).bind fun tx => (Records.lift _).bind fun added => ih

theorem minerLoop_touches {o : ByteOrder} {addr : UInt8} {passes : List Pass} :
    ∀ {workblock : Mem}, Records (· = .touch) (minerLoop o addr passes workblock) := by
  induction passes with
  | nil => intro workblock; exact .pure _
  | cons pass rest ih =>
      intro workblock
      refine Records.bind ?_ fun refreshed => ih.bind fun later => .pure _
      exact (Records.touching _).bind fun diff => addMempoolTxs_touches

theorem minerRun_touches {o : ByteOrder} {H : Digest} {addr : UInt8}
    {blocks : List (NewBlock × List Pass)} : ∀ {workblock : Mem},
      Records (· = .touch) (minerRun o H addr blocks workblock) := by
  induction blocks with
  | nil => intro workblock; exact .pure _
  | cons block rest ih =>
      intro workblock
      refine (Records.lift _).bind fun started => minerLoop_touches.bind fun done => ?_
      exact ih.bind fun later => .pure _

theorem minerLoop_quiet_iff (o : ByteOrder) (addr : UInt8) (passes : List Pass) (workblock : Mem) :
    (minerLoop o addr passes workblock).events = [] ↔ passes = [] := by
  cases passes with
  | nil => exact iff_of_true rfl rfl
  | cons pass rest => exact iff_of_false (List.cons_ne_nil _ _) (List.cons_ne_nil _ _)

theorem minerRun_quiet_iff {o : ByteOrder} {H : Digest} {addr : UInt8}
    {blocks : List (NewBlock × List Pass)} : ∀ {workblock : Mem},
      (minerRun o H addr blocks workblock).events = [] ↔ NeverMines o H addr blocks workblock := by
  induction blocks with
  | nil => intro workblock; exact iff_of_true rfl trivial
  | cons block rest ih =>
      intro workblock
      rw [minerRun, NeverMines, events_bind, events_lift, List.nil_append, result_lift]
      cases startBlock o H addr block.1 workblock with
      | error e =>
          refine iff_of_true rfl ?_
          intro started h
          cases h
      | ok started =>
          simp only [Except.ok.injEq, forall_eq', eventsAfter_ok]
          rw [events_bind, List.append_eq_nil_iff, minerLoop_quiet_iff]
          refine and_congr_right fun hnone => ?_
          rw [hnone]
          show Traced.events
            (minerRun o H addr rest started >>= fun later => pure ([] ++ later)) = [] ↔ _
          rw [events_bind_pure]
          exact ih

/-- **Lock discipline.** In a run of `handle_connection` the mempool is only touched
under its mutex if and only if no `<block>` in it starts a reorganisation that finds
a transaction, whatever the other threads do to the databases between its messages;
in a run of the miner, if and only if no block is worked on. -/
theorem mempool_locked_iff (env : Env .passed) (net : Net) (others : ℕ → Dbs → Dbs)
    (u : ℕ → MsgMem) (fuel : ℕ) (chunks : List Bytes) (stale : Mem) (s : Conn) (o : ByteOrder)
    (H : Digest) (addr : UInt8) (blocks : List (NewBlock × List Pass)) (workblock : Mem) :
    (Disciplined false (handleConnection env net others u fuel chunks 0 stale s).1 ↔
      ∀ m ∈ receivedMessages env net others u fuel chunks 0 stale s,
        MessageMovesNoTx env net (u m.k) fuel m.dbs m.msg) ∧
    (Disciplined false (minerRun o H addr blocks workblock).events ↔
      NeverMines o H addr blocks workblock) := by
  refine ⟨handleConnection_disciplined_iff, ?_⟩
  rw [disciplined_free_touches_iff minerRun_touches.kind]
  exact minerRun_quiet_iff

/-! ## A reorganisation and a pass of the miner -/

/-- A block of height 0 with one transaction of ten zeros. Its nonce makes bytes 6 to 9
of its hash zero, as that of `genesis`. -/
def baseRecord : Bytes :=
  List.replicate 75 0 ++ [33, 119, 0, 0] ++ ([1, 0, 0, 0] ++ List.replicate 10 0)

def baseHash : Bytes := [22, 0, 0, 107, 117, 168, 48, 167].flatMap (List.replicate 4)

/-- A block on top of it. -/
def rivalRecord : Bytes :=
  List.replicate 6 0 ++ [1, 0, 0, 0] ++ baseHash ++
    (List.replicate 37 0 ++ [1, 0, 0, 0] ++ List.replicate 10 0)

def rivalHash : Bytes := [6, 34, 47, 137, 192, 230, 49, 68].flatMap (List.replicate 4)

/-- The chain is the lower block, and the upper one is in limbo. -/
def rivalNode : Dbs where
  blocks := AList.insert rivalHash rivalRecord (AList.insert baseHash baseRecord ∅)
  chain := AList.insert (hostBytes32 .little 0) baseHash ∅
  limbo := AList.insert (hostBytes32 .little 1) ([1, 0, 0, 0] ++ rivalHash) ∅
  txs := AList.insert (sha256 zeroTx) baseHash ∅
  mempool := mempoolInit

/-- The block in limbo is traced back to the one on the chain. -/
def rivalEnv : Env .passed :=
  { sampleEnv with
    canTraceBack := fun _ _ => (true, Mem.ofBytes baseHash)
    isValidChain := fun _ _ _ => true }

/-- A peer sends the block that is on the chain. -/
def baseMessage : Bytes := [0, 1, ctypeBlock, 0] ++ baseRecord

/-- The scan that follows deletes from the mempool, and nobody has locked it. -/
theorem baseMessage_events :
    recordHash rivalEnv baseRecord = baseHash ∧ recordHash rivalEnv rivalRecord = rivalHash ∧
    (handleConnection rivalEnv ⟨[], true⟩ (fun _ dbs => dbs) (fun _ => .zero) 1 [baseMessage] 0
      (fun _ => 0) ⟨rivalNode, fun _ => 0⟩).1 = [.touch] := by
  decide +kernel

/-- One pass over an empty mempool. -/
theorem soloBlock_events :
    (minerRun .big sha256 0 [(soloBlock, [⟨mempoolInit, 0, 0⟩])] fun _ => 0).events =
      [.touch] := by
  decide +kernel

/-- Neither of them keeps to the rule. -/
theorem mempool_touched_without_lock :
    (¬ ∀ (env : Env .passed) (net : Net) (others : ℕ → Dbs → Dbs) (u : ℕ → MsgMem) (fuel : ℕ)
      (chunks : List Bytes) (stale : Mem) (s : Conn),
      Disciplined false (handleConnection env net others u fuel chunks 0 stale s).1) ∧
    ¬ ∀ (o : ByteOrder) (H : Digest) (addr : UInt8) (blocks : List (NewBlock × List Pass))
      (workblock : Mem), Disciplined false (minerRun o H addr blocks workblock).events := by
  constructor
  · intro hall
    have hrun : ∀ (env : Env .passed) net others u fuel chunks stale s events,
        (handleConnection env net others u fuel chunks 0 stale s).1 = events →
        Disciplined false events := by
      rintro env net others u fuel chunks stale s _ rfl
      exact hall env net others u fuel chunks stale s
    exact Bool.false_ne_true (hrun _ _ _ _ _ _ _ _ _ baseMessage_events.2.2).1
  · intro hall
    have hrun : ∀ o H addr blocks workblock events,
        (minerRun o H addr blocks workblock).events = events → Disciplined false events := by
      rintro o H addr blocks workblock _ rfl
      exact hall o H addr blocks workblock
    exact Bool.false_ne_true (hrun _ _ _ _ _ _ soloBlock_events).1

end Freecoin.Locks
