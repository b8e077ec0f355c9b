import Freecoin.Lib.HashLinks
import Freecoin.Network.Node

/-!
# What a node has stored

Whatever is sent to a node, its blocks database is a log of the headers of the blocks it
accepted, each filed under its hash. What is read of headers follows from that log
alone: neither the order in which messages of different connections come nor anything
else they do matters. So a header that is there stays there, nodes that have the same
hashes have the same headers, and from one hash back they have the same chain of
parents; or else two of the headers they accepted have the same hash.

The databases are maps on the bytes that the code passes (`Bdb.passed`), and a connection
goes on after its response buffer is there (`RespCheck.meant`).
-/

namespace Freecoin

open Lib Relation

variable {B : Bdb} (env : Env B)

/-- The block of a `<block>` message that was accepted. -/
def acceptedBlock (o : Output) : Option Mem :=
  match o.event with
  | .handled ctype _ _ _ =>
      let block := o.msg.shift ctypeBlockPosBlock
      if ctype = ctypeBlock ∧ env.validBlock block then some block else none
  | _ => none

/-- The headers of the accepted blocks, in the order in which they came. -/
def acceptedHeaders (outs : List Output) : List Bytes :=
  (outs.filterMap (acceptedBlock env)).map fun block => block.slice 0 sizeBlockHeader

/-- The header stored under a hash. -/
def storedHeader (dbs : Dbs) (hash : Bytes) : Option Bytes :=
  (dbs.blocks.lookup hash).map (List.take sizeBlockHeader)

variable {env}

theorem acceptedHeaders_nil : acceptedHeaders env [] = [] := rfl

theorem acceptedHeaders_rejected {i : ℕ} {msg : Mem} {reply : Sent} :
    acceptedHeaders env [⟨i, msg, .rejected reply⟩] = [] := rfl

theorem acceptedHeaders_append (outs later : List Output) :
    acceptedHeaders env (outs ++ later) =
      acceptedHeaders env outs ++ acceptedHeaders env later := by
  rw [acceptedHeaders, List.filterMap_append, List.map_append]
  rfl

theorem acceptedHeaders_of_ctype {i : ℕ} {msg : Mem} {c : UInt8} {chunk : Bytes} {dbs : Dbs}
    {sent : List Sent} (hctype : c ≠ ctypeBlock) :
    acceptedHeaders env [⟨i, msg, .handled c chunk dbs sent⟩] = [] := by
  have hnone : acceptedBlock env ⟨i, msg, .handled c chunk dbs sent⟩ = none :=
    if_neg fun h => hctype h.1
  rw [acceptedHeaders, List.filterMap_cons, hnone]
  rfl

theorem acceptedHeaders_block (env : Env B) (i : ℕ) (msg : Mem) (chunk : Bytes) (dbs : Dbs)
    (sent : List Sent) :
    acceptedHeaders env [⟨i, msg, .handled ctypeBlock chunk dbs sent⟩] =
      if env.validBlock (msg.shift 4) then [(msg.shift 4).slice 0 sizeBlockHeader] else [] := by
  by_cases hvalid : env.validBlock (msg.shift 4) = true
  · have hsome : acceptedBlock env ⟨i, msg, .handled ctypeBlock chunk dbs sent⟩ =
        some (msg.shift 4) := if_pos ⟨rfl, hvalid⟩
    rw [acceptedHeaders, List.filterMap_cons, hsome, if_pos hvalid]
    rfl
  · have hnone : acceptedBlock env ⟨i, msg, .handled ctypeBlock chunk dbs sent⟩ = none :=
      if_neg fun h => hvalid h.2
    rw [acceptedHeaders, List.filterMap_cons, hnone, if_neg hvalid]
    rfl

/-! ## The log -/

/-- The headers that are stored are those of `log`, each under its hash. -/
def HeadersFiled (env : Env B) (log : List Bytes) (dbs : Dbs) : Prop :=
  ∀ hash, storedHeader dbs hash = filed env.digest log hash

theorem HeadersFiled.congr {log : List Bytes} {dbs dbs' : Dbs} (h : HeadersFiled env log dbs)
    (hblocks : dbs'.blocks = dbs.blocks) : HeadersFiled env log dbs' := by
  intro hash
  rw [storedHeader, hblocks]
  exact h hash

section Passed

variable {env : Env .passed}

theorem headersFiled_empty {dbs : Dbs} (hempty : dbs.blocks = ∅) : HeadersFiled env [] dbs := by
  intro hash
  rw [storedHeader, hempty, AList.lookup_empty]
  rfl

/-- Storing a block adds its header to the log if it is accepted. -/
theorem HeadersFiled.store {log : List Bytes} {dbs : Dbs} (h : HeadersFiled env log dbs)
    (u : BlockMem) (block : Mem) :
    HeadersFiled env
      (log ++ if env.validBlock block then [block.slice 0 sizeBlockHeader] else [])
      (storeBlock env u dbs block) := by
  by_cases hvalid : env.validBlock block = true
  · rw [if_pos hvalid, storeBlock_of_valid u dbs hvalid]
    intro hash
    rw [filed_concat, storedHeader]
    by_cases hhash : env.digest (block.slice 0 sizeBlockHeader) = hash
    · subst hhash
      rw [if_pos rfl]
      dsimp only
      rw [blockComputeHash, AList.lookup_insert, Option.map_some, blockRecord,
        Mem.slice_take _ _ _ _ (header_le_blockComputeSize ..)]
    · have hne : hash ≠ blockComputeHash env.digest block := fun heq => hhash heq.symm
      rw [if_neg hhash]
      dsimp only
      rw [AList.lookup_insert_ne hne]
      exact h hash
  · rw [if_neg hvalid, List.append_nil, storeBlock_of_invalid u dbs (by simpa using hvalid)]
    exact h

/-- One step of a node adds the headers that it accepts. -/
theorem HeadersFiled.step {log : List Bytes} {n n' : NodeState} {e : NodeEvent}
    {outs : List Output} (h : HeadersFiled env log n.dbs)
    (hstep : nodeStep env n e = .ok (n', outs)) :
    HeadersFiled env (log ++ acceptedHeaders env outs) n'.dbs := by
  cases nodeStep_cases hstep with
  | silent =>
      rw [acceptedHeaders_nil, List.append_nil]
      exact h
  | rejected =>
      rw [acceptedHeaders_rejected, List.append_nil]
      exact h
  | @handled i net u fuel chunk link msg s sent links hlink hmsg =>
      have hmoves := handleMessage_moves hmsg
      revert hmoves
      generalize s.dbs = dbs
      intro hmoves
      cases hmoves with
      | block hctype hhandles =>
          rw [hctype, acceptedHeaders_block]
          exact (h.store u.block _).congr hhandles.blocks_eq
      | tx hctype hhandles =>
          rw [acceptedHeaders_of_ctype (by rw [hctype]; decide), List.append_nil]
          exact h.congr hhandles.blocks_eq
      | read hblock _ =>
          rw [acceptedHeaders_of_ctype hblock, List.append_nil]
          exact h

theorem HeadersFiled.run {log : List Bytes} {events : List NodeEvent} {n n' : NodeState}
    {outs : List Output} (h : HeadersFiled env log n.dbs)
    (hrun : nodeRun env events n = .ok (n', outs)) :
    HeadersFiled env (log ++ acceptedHeaders env outs) n'.dbs := by
  show HeadersFiled env (log ++ acceptedHeaders env ([] ++ outs)) n'.dbs
  refine collectState_log (P := fun outs n => HeadersFiled env (log ++ acceptedHeaders env outs)
    (NodeState.dbs n)) ?_ hrun ?_
  · intro before n e n' outs hstep hn
    rw [acceptedHeaders_append, ← List.append_assoc]
    exact hn.step hstep
  · rw [acceptedHeaders_nil, List.append_nil]
    exact h

/-- What `data_blocks_get_header` delivers is the stored header. -/
theorem dataBlocksGetHeader_stored (dbs : Dbs) (hash dest : Mem) :
    dataBlocksGetHeader .passed dbs hash dest =
      match storedHeader dbs (hash.slice 0 sizeSha256) with
      | none => (false, dest)
      | some header => (true, dest.load header) := by
  rcases dataBlocksGetHeader_cases dbs hash dest with ⟨r, hr, hget⟩ | ⟨hr, hget⟩
  · rw [hget, storedHeader, sizeSha256, hr]
    rfl
  · rw [hget, storedHeader, sizeSha256, hr]
    rfl

theorem dataBlocksExists_stored_iff (dbs : Dbs) (hash : Mem) :
    dataBlocksExists .passed dbs hash = (storedHeader dbs (hash.slice 0 sizeSha256)).isSome := by
  rw [dataBlocksExists_passed, storedHeader, Option.isSome_map]

/-- **The blocks database is a log.** A node that starts without blocks has run, over any
number of connections. Then a hash is known exactly when a block with that hash was
accepted, and the header read for it is that of the last one. -/
theorem header_reads_log (env : Env .passed) {events : List NodeEvent} {start n : NodeState}
    {outs : List Output} (hempty : start.dbs.blocks = ∅)
    (hrun : nodeRun env events start = .ok (n, outs)) (hash dest : Mem) :
    dataBlocksExists .passed n.dbs hash =
      (filed env.digest (acceptedHeaders env outs) (hash.slice 0 sizeSha256)).isSome ∧
    dataBlocksGetHeader .passed n.dbs hash dest =
      match filed env.digest (acceptedHeaders env outs) (hash.slice 0 sizeSha256) with
      | none => (false, dest)
      | some header => (true, dest.load header) := by
  have hfiled : HeadersFiled env (acceptedHeaders env outs) n.dbs :=
    (headersFiled_empty hempty).run hrun
  rw [dataBlocksExists_stored_iff, dataBlocksGetHeader_stored, hfiled]
  exact ⟨rfl, rfl⟩

/-- Connection `k`, over which one `<block>` with this header comes. -/
def blockEvents (k fuel : ℕ) (header : Bytes) : List NodeEvent :=
  [.connect (fun _ => 0) (fun _ => 0),
    .receive k ⟨[], true⟩ .zero fuel ([0, 1, ctypeBlock, 0] ++ header)]

/-- Where every block is valid and no chain is taken over, it is accepted. -/
theorem block_accepted (env : Env .passed) (hvalid : ∀ block, env.validBlock block = true)
    (hno : ∀ dbs, NoReorg env BlockMem.zero.scan dbs) (n : NodeState) {header : Bytes}
    (hheader : header.length = sizeBlockHeader) : ∃ fuel n' o,
    nodeRun env (blockEvents n.links.length fuel header) n = .ok (n', [o]) ∧
    n'.links.length = n.links.length + 1 ∧ acceptedHeaders env [o] = [header] := by
  let chunk : Bytes := [0, 1, ctypeBlock, 0] ++ header
  let msg := recvMsg (fun _ => 0) chunk
  let dbs := fileBlock env .zero n.dbs (msg.shift 4)
  let resp := blockResp env .zero n.dbs (msg.shift 4) fun _ => 0
  obtain ⟨fuel, sent, hblock⟩ : Handles env n.dbs (.block .zero msg) dbs :=
    (handleBlock_quiet (hno _) _).mpr rfl
  have hchunk : chunk ≠ [] := List.cons_ne_nil _ _
  have hversion : msgVersion env.host msg = clientVersion :=
    (rightVersion_iff env.host rfl).mpr rfl
  have hmsg : handleMessage env ⟨[], true⟩ .zero fuel ⟨n.dbs, fun _ => 0⟩ msg =
      .ok (⟨dbs, resp⟩, sent) := by
    rw [handleMessage_block env rfl, if_pos rfl]
    show (handleBlock env .zero fuel n.dbs msg >>= _) = _
    rw [hblock]
    rfl
  have hpass : receivePass env ⟨[], true⟩ .zero fuel n.dbs ⟨true, fun _ => 0, fun _ => 0⟩ chunk =
      .ok (dbs, ⟨true, msg, resp⟩, some (.handled ctypeBlock chunk dbs sent)) := by
    rw [receivePass]
    dsimp only
    rw [if_neg hchunk, if_pos hversion, hmsg]
    rfl
  have hslice : (msg.shift 4).slice 0 sizeBlockHeader = header := by
    have hfits : chunk.length ≤ maxMsgSize := by
      rw [List.length_append, hheader]
      decide
    have hmsg : msg = Mem.ofBytes chunk := by
      show Mem.load _ (chunk.take maxMsgSize) = _
      rw [List.take_of_length_le hfits]
      rfl
    rw [hmsg, Mem.slice_shift, Nat.add_zero,
      Mem.slice_ofBytes_inside (by rw [List.length_append, hheader]; decide), ← hheader]
    exact List.take_length
  have haccepted := acceptedHeaders_block env n.links.length msg chunk dbs sent
  rw [if_pos (hvalid _), hslice] at haccepted
  exact ⟨fuel, _, _, nodeRun_first hpass, List.length_append, haccepted⟩

/-- Two of them, over two connections. -/
def twoBlockEvents (fuel fuel' : ℕ) (header header' : Bytes) : List NodeEvent :=
  blockEvents 0 fuel header ++ blockEvents 1 fuel' header'

theorem twoBlocks_accepted (env : Env .passed) (hvalid : ∀ block, env.validBlock block = true)
    (hno : ∀ dbs, NoReorg env BlockMem.zero.scan dbs) {header header' : Bytes}
    (hheader : header.length = sizeBlockHeader) (hheader' : header'.length = sizeBlockHeader) :
    ∃ fuel fuel' n outs,
      nodeRun env (twoBlockEvents fuel fuel' header header') ⟨emptyNode, []⟩ = .ok (n, outs) ∧
      acceptedHeaders env outs = [header, header'] := by
  obtain ⟨fuel, n, o, hrun, hlinks, hlog⟩ := block_accepted env hvalid hno ⟨emptyNode, []⟩ hheader
  obtain ⟨fuel', n', o', hrun', -, hlog'⟩ := block_accepted env hvalid hno n hheader'
  rw [hlinks] at hrun'
  refine ⟨fuel, fuel', n', [o] ++ [o'], collectState_append hrun hrun', ?_⟩
  rw [acceptedHeaders_append, hlog, hlog']
  rfl

/-- The header of `genesis`, and that of its child. -/
def genesisHeader : Bytes := List.replicate 75 0 ++ [164, 11, 2, 0] ++ List.replicate 4 0

def childHeader : Bytes := childRecord.take sizeBlockHeader

theorem length_genesisHeader : genesisHeader.length = sizeBlockHeader := rfl

theorem length_childHeader : childHeader.length = sizeBlockHeader := rfl

theorem digest_genesisHeader : sampleEnv.digest genesisHeader = genesisHash := genesisHash_eq

theorem digest_childHeader : sampleEnv.digest childHeader = childHash := childHash_eq

/-- What a log of the two finds, in either order. -/
theorem filed_genesisHash {log : List Bytes}
    (h : log = [genesisHeader, childHeader] ∨ log = [childHeader, genesisHeader]) :
    filed sampleEnv.digest log genesisHash = some genesisHeader := by
  rcases h with rfl | rfl
  · have hconcat := filed_concat sampleEnv.digest [genesisHeader] childHeader genesisHash
    have hfirst := filed_concat sampleEnv.digest [] genesisHeader genesisHash
    rw [digest_childHeader, if_neg (by decide)] at hconcat
    rw [digest_genesisHeader, if_pos rfl] at hfirst
    exact hconcat.trans hfirst
  · have hconcat := filed_concat sampleEnv.digest [childHeader] genesisHeader genesisHash
    rwa [digest_genesisHeader, if_pos rfl] at hconcat

theorem filed_childHash {log : List Bytes}
    (h : log = [genesisHeader, childHeader] ∨ log = [childHeader, genesisHeader]) :
    filed sampleEnv.digest log childHash = some childHeader := by
  rcases h with rfl | rfl
  · have hconcat := filed_concat sampleEnv.digest [genesisHeader] childHeader childHash
    rwa [digest_childHeader, if_pos rfl] at hconcat
  · have hconcat := filed_concat sampleEnv.digest [childHeader] genesisHeader childHash
    have hfirst := filed_concat sampleEnv.digest [] childHeader childHash
    rw [digest_genesisHeader, if_neg (by decide)] at hconcat
    rw [digest_childHeader, if_pos rfl] at hfirst
    exact hconcat.trans hfirst

/-- Both headers are read under their hashes, and the second names the first. -/
theorem header_reads_log_child : ∃ fuel fuel' n outs,
    nodeRun sampleEnv (twoBlockEvents fuel fuel' genesisHeader childHeader) ⟨emptyNode, []⟩ =
      .ok (n, outs) ∧
    recordPrevHash childHeader = genesisHash ∧
    (∀ dest, dataBlocksGetHeader .passed n.dbs (Mem.ofBytes genesisHash) dest =
      (true, dest.load genesisHeader)) ∧
    ∀ dest, dataBlocksGetHeader .passed n.dbs (Mem.ofBytes childHash) dest =
      (true, dest.load childHeader) := by
  obtain ⟨fuel, fuel', n, outs, hrun, hlog⟩ := twoBlocks_accepted sampleEnv (fun _ => rfl)
    (sampleEnv_noReorg _) length_genesisHeader length_childHeader
  have hreads := fun hash dest => (header_reads_log sampleEnv rfl hrun hash dest).2
  have hkey : (Mem.ofBytes genesisHash).slice 0 sizeSha256 = genesisHash := slice_ofBytes rfl
  have hkey' : (Mem.ofBytes childHash).slice 0 sizeSha256 = childHash := slice_ofBytes rfl
  refine ⟨fuel, fuel', n, outs, hrun, by decide, ?_, ?_⟩
  · intro dest
    rw [hreads, hlog, hkey, filed_genesisHash (.inl rfl)]
  · intro dest
    rw [hreads, hlog, hkey', filed_childHash (.inl rfl)]

/-! ## What the log implies -/

theorem HeadersFiled.foundIn {log : List Bytes} {dbs : Dbs} (h : HeadersFiled env log dbs) :
    FoundIn env.digest log (storedHeader dbs) := by
  intro hash header hheader
  rw [h hash] at hheader
  exact filed_some env.digest hheader

/-- The same stored headers are read in the same way. -/
theorem dataBlocksGetHeader_of_stored {dbs dbs' : Dbs} {hash : Mem}
    (h : storedHeader dbs' (hash.slice 0 sizeSha256) = storedHeader dbs (hash.slice 0 sizeSha256))
    (dest : Mem) :
    dataBlocksGetHeader .passed dbs' hash dest = dataBlocksGetHeader .passed dbs hash dest := by
  rw [dataBlocksGetHeader_stored, dataBlocksGetHeader_stored, h]

/-- **Permanence.** While a node goes on, every header that can be read stays as it is; or
a block with another header and the same hash was accepted later. -/
theorem headers_permanent (env : Env .passed) {before after : List NodeEvent}
    {start n n' : NodeState} {outs later : List Output} (hempty : start.dbs.blocks = ∅)
    (hbefore : nodeRun env before start = .ok (n, outs))
    (hafter : nodeRun env after n = .ok (n', later)) :
    (∀ hash dest, (dataBlocksGetHeader .passed n.dbs hash dest).1 = true →
      dataBlocksGetHeader .passed n'.dbs hash dest = dataBlocksGetHeader .passed n.dbs hash dest) ∨
    Collides env.digest (acceptedHeaders env outs) (acceptedHeaders env later) := by
  by_contra hnone
  rw [not_or] at hnone
  obtain ⟨hchanged, hfree⟩ := hnone
  have hfiled : HeadersFiled env (acceptedHeaders env outs) n.dbs :=
    (headersFiled_empty hempty).run hbefore
  have hfiled' := hfiled.run hafter
  apply hchanged
  intro hash dest hread
  apply dataBlocksGetHeader_of_stored
  rw [dataBlocksGetHeader_stored] at hread
  cases hheader : storedHeader n.dbs (hash.slice 0 sizeSha256) with
  | none =>
      rw [hheader] at hread
      cases hread
  | some header =>
      rw [hfiled] at hheader
      rw [hfiled']
      exact (filed_append env.digest hheader _).resolve_right hfree

/-- No two byte strings of these lists have the same hash. -/
theorem family_free {log log' : List Bytes}
    (h : ∀ r ∈ log ++ log', r = genesisHeader ∨ r = childHeader) :
    ¬ Collides sampleEnv.digest log log' := by
  rintro ⟨a, ha, b, hb, hne, hsame⟩
  have hdiff : genesisHash ≠ childHash := by decide
  rcases h a (List.mem_append_left _ ha) with rfl | rfl <;>
    rcases h b (List.mem_append_right _ hb) with rfl | rfl
  · exact hne rfl
  · rw [digest_genesisHeader, digest_childHeader] at hsame
    exact hdiff hsame
  · rw [digest_genesisHeader, digest_childHeader] at hsame
    exact hdiff hsame.symm
  · exact hne rfl

/-- A node has `genesis`, and then its child comes over a second connection. -/
theorem headers_permanent_child : ∃ fuel fuel' n n' o o',
    nodeRun sampleEnv (blockEvents 0 fuel genesisHeader) ⟨emptyNode, []⟩ = .ok (n, [o]) ∧
    nodeRun sampleEnv (blockEvents 1 fuel' childHeader) n = .ok (n', [o']) ∧
    ∀ hash dest, (dataBlocksGetHeader .passed n.dbs hash dest).1 = true →
      dataBlocksGetHeader .passed n'.dbs hash dest =
        dataBlocksGetHeader .passed n.dbs hash dest := by
  obtain ⟨fuel, n, o, hrun, hlinks, hlog⟩ := block_accepted sampleEnv (fun _ => rfl)
    (sampleEnv_noReorg _) ⟨emptyNode, []⟩ length_genesisHeader
  obtain ⟨fuel', n', o', hrun', -, hlog'⟩ := block_accepted sampleEnv (fun _ => rfl)
    (sampleEnv_noReorg _) n length_childHeader
  rw [hlinks] at hrun'
  refine ⟨fuel, fuel', n, n', o, o', hrun, hrun', ?_⟩
  refine (headers_permanent sampleEnv rfl hrun hrun').resolve_right (family_free ?_)
  rw [hlog, hlog']
  simp

/-- The same on a big-endian host. -/
def bigEndianEnv : Env .passed := { sampleEnv with host := .big }

/-- Two nodes, one on a host of either kind, accept both blocks, each in another order. -/
theorem family_twoHosts : ∃ fuel₁ fuel₂ fuel₃ fuel₄ n n' outs outs',
    nodeRun sampleEnv (twoBlockEvents fuel₁ fuel₂ genesisHeader childHeader) ⟨emptyNode, []⟩ =
      .ok (n, outs) ∧
    nodeRun bigEndianEnv (twoBlockEvents fuel₃ fuel₄ childHeader genesisHeader) ⟨emptyNode, []⟩ =
      .ok (n', outs') ∧
    acceptedHeaders sampleEnv outs = [genesisHeader, childHeader] ∧
    acceptedHeaders bigEndianEnv outs' = [childHeader, genesisHeader] ∧
    HeadersFiled sampleEnv [genesisHeader, childHeader] n.dbs ∧
    HeadersFiled bigEndianEnv [childHeader, genesisHeader] n'.dbs := by
  obtain ⟨fuel₁, fuel₂, n, outs, hrun, hlog⟩ := twoBlocks_accepted sampleEnv (fun _ => rfl)
    (sampleEnv_noReorg _) length_genesisHeader length_childHeader
  obtain ⟨fuel₃, fuel₄, n', outs', hrun', hlog'⟩ := twoBlocks_accepted bigEndianEnv
    (fun _ => rfl) (fun _ _ _ => rfl) length_childHeader length_genesisHeader
  have hfiled := (headersFiled_empty rfl).run hrun
  have hfiled' := (headersFiled_empty rfl).run hrun'
  rw [hlog] at hfiled
  rw [hlog'] at hfiled'
  exact ⟨fuel₁, fuel₂, fuel₃, fuel₄, n, n', outs, outs', hrun, hrun', hlog, hlog', hfiled, hfiled'⟩

section Two

variable (env env' : Env .passed) {events events' : List NodeEvent} {start start' n n' : NodeState}
  {outs outs' : List Output}

/-- **Convergence.** Two nodes that have accepted blocks in whatever order, each from peers
of its own, and know the same hashes read the same headers; or they have accepted
different headers with one hash. -/
theorem headers_converge (hdigest : env'.digest = env.digest) (hempty : start.dbs.blocks = ∅)
    (hempty' : start'.dbs.blocks = ∅) (hrun : nodeRun env events start = .ok (n, outs))
    (hrun' : nodeRun env' events' start' = .ok (n', outs'))
    (hknow : ∀ hash, dataBlocksExists .passed n.dbs hash = dataBlocksExists .passed n'.dbs hash) :
    (∀ hash dest,
      dataBlocksGetHeader .passed n.dbs hash dest = dataBlocksGetHeader .passed n'.dbs hash dest) ∨
    Collides env.digest (acceptedHeaders env outs) (acceptedHeaders env' outs') := by
  have hfiled : HeadersFiled env (acceptedHeaders env outs) n.dbs :=
    (headersFiled_empty hempty).run hrun
  have hfiled' : HeadersFiled env' (acceptedHeaders env' outs') n'.dbs :=
    (headersFiled_empty hempty').run hrun'
  rw [HeadersFiled, hdigest] at hfiled'
  have hsame : ∀ k, (∃ a ∈ acceptedHeaders env outs, env.digest a = k) ↔
      ∃ b ∈ acceptedHeaders env' outs', env.digest b = k := by
    intro k
    by_cases hk : k.length = 32
    · have hexists := hknow (Mem.ofBytes k)
      rw [dataBlocksExists_stored_iff, dataBlocksExists_stored_iff, sizeSha256, slice_ofBytes hk,
        hfiled, hfiled'] at hexists
      rw [← filed_isSome_iff, ← filed_isSome_iff, hexists]
    · refine iff_of_false ?_ ?_
      · rintro ⟨a, -, rfl⟩
        exact hk (Digest.length ..)
      · rintro ⟨b, -, rfl⟩
        exact hk (Digest.length ..)
  rcases filed_converge env.digest hsame with hall | hc
  · refine .inl fun hash dest => dataBlocksGetHeader_of_stored ?_ dest
    rw [hfiled, hfiled']
    exact hall _
  · exact .inr hc

/-- The two hosts read the same headers. -/
theorem headers_converge_twoHosts : ∃ fuel₁ fuel₂ fuel₃ fuel₄ n n' outs outs',
    nodeRun sampleEnv (twoBlockEvents fuel₁ fuel₂ genesisHeader childHeader) ⟨emptyNode, []⟩ =
      .ok (n, outs) ∧
    nodeRun bigEndianEnv (twoBlockEvents fuel₃ fuel₄ childHeader genesisHeader) ⟨emptyNode, []⟩ =
      .ok (n', outs') ∧
    ∀ hash dest, dataBlocksGetHeader .passed n.dbs hash dest =
      dataBlocksGetHeader .passed n'.dbs hash dest := by
  obtain ⟨fuel₁, fuel₂, fuel₃, fuel₄, n, n', outs, outs', hrun, hrun', hlog, hlog', hfiled,
    hfiled'⟩ := family_twoHosts
  refine ⟨fuel₁, fuel₂, fuel₃, fuel₄, n, n', outs, outs', hrun, hrun', ?_⟩
  have hknow : ∀ hash,
      dataBlocksExists .passed n.dbs hash = dataBlocksExists .passed n'.dbs hash := by
    intro hash
    rw [dataBlocksExists_stored_iff, dataBlocksExists_stored_iff, hfiled, hfiled']
    exact filed_isSome_perm sampleEnv.digest (.swap ..) _
  refine (headers_converge sampleEnv bigEndianEnv rfl rfl rfl hrun hrun' hknow).resolve_right
    (family_free ?_)
  rw [hlog, hlog']
  simp

/-- The headers met from `hash` back along `prev_hash`, as far as they are stored. -/
def ancestry (dbs : Dbs) (depth : ℕ) (hash : Bytes) : List Bytes :=
  history recordPrevHash (storedHeader dbs) depth hash

/-- What a node shows that has the two blocks. -/
theorem ancestry_childHash {env : Env .passed} (hdigest : env.digest = sampleEnv.digest)
    {dbs : Dbs} {log : List Bytes} (hfiled : HeadersFiled env log dbs)
    (hlog : log = [genesisHeader, childHeader] ∨ log = [childHeader, genesisHeader]) :
    ancestry dbs 2 childHash = [childHeader, genesisHeader] := by
  have hprev : recordPrevHash childHeader = genesisHash := by decide
  rw [HeadersFiled, hdigest] at hfiled
  rw [ancestry, history, hfiled, filed_childHash hlog]
  dsimp only
  rw [hprev, history, hfiled, filed_genesisHash hlog]
  rfl

/-- **Agreement.** Two nodes show the same ancestors of a hash, however many of them each
has; or they have accepted different headers with one hash. -/
theorem ancestry_agree (hdigest : env'.digest = env.digest) (hempty : start.dbs.blocks = ∅)
    (hempty' : start'.dbs.blocks = ∅) (hrun : nodeRun env events start = .ok (n, outs))
    (hrun' : nodeRun env' events' start' = .ok (n', outs')) (depth : ℕ) (hash : Bytes) :
    ancestry n.dbs depth hash <+: ancestry n'.dbs depth hash ∨
    ancestry n'.dbs depth hash <+: ancestry n.dbs depth hash ∨
    Collides env.digest (acceptedHeaders env outs) (acceptedHeaders env' outs') := by
  have hfiled : HeadersFiled env (acceptedHeaders env outs) n.dbs :=
    (headersFiled_empty hempty).run hrun
  have hfiled' : HeadersFiled env' (acceptedHeaders env' outs') n'.dbs :=
    (headersFiled_empty hempty').run hrun'
  have hfound := hfiled'.foundIn
  rw [hdigest] at hfound
  exact history_agree hfiled.foundIn hfound depth hash

/-- Both show the child and its parent. -/
theorem ancestry_agree_twoHosts : ∃ fuel₁ fuel₂ fuel₃ fuel₄ n n' outs outs',
    nodeRun sampleEnv (twoBlockEvents fuel₁ fuel₂ genesisHeader childHeader) ⟨emptyNode, []⟩ =
      .ok (n, outs) ∧
    nodeRun bigEndianEnv (twoBlockEvents fuel₃ fuel₄ childHeader genesisHeader) ⟨emptyNode, []⟩ =
      .ok (n', outs') ∧
    (∀ depth hash, ancestry n.dbs depth hash <+: ancestry n'.dbs depth hash ∨
      ancestry n'.dbs depth hash <+: ancestry n.dbs depth hash) ∧
    ancestry n.dbs 2 childHash = [childHeader, genesisHeader] ∧
    ancestry n'.dbs 2 childHash = [childHeader, genesisHeader] := by
  obtain ⟨fuel₁, fuel₂, fuel₃, fuel₄, n, n', outs, outs', hrun, hrun', hlog, hlog', hfiled,
    hfiled'⟩ := family_twoHosts
  refine ⟨fuel₁, fuel₂, fuel₃, fuel₄, n, n', outs, outs', hrun, hrun', ?_, ?_, ?_⟩
  · intro depth hash
    rcases ancestry_agree sampleEnv bigEndianEnv rfl rfl rfl hrun hrun' depth hash with
      hle | hge | hc
    · exact .inl hle
    · exact .inr hge
    · refine absurd hc (family_free ?_)
      rw [hlog, hlog']
      simp
  · exact ancestry_childHash rfl hfiled (.inl rfl)
  · exact ancestry_childHash rfl hfiled' (.inr rfl)

end Two

end Passed

/-! ## How many blocks there is room for -/

/-- What `sha256_final` writes for the low bytes of the eight words. -/
def spread (low : Fin 8 → Fin 256) : Bytes :=
  (List.ofFn low).flatMap fun b => List.replicate 4 (UInt8.ofNat b)

theorem sha256Final_words (ctx : ShaCtx) : ∃ s : ShaState, sha256Final ctx =
    [s.a, s.b, s.c, s.d, s.e, s.f, s.g, s.h].flatMap fun w => List.replicate 4 w.toUInt8 := by
  unfold sha256Final
  exact ⟨_, rfl⟩

theorem sha256Final_spread (ctx : ShaCtx) : ∃ low, spread low = sha256Final ctx := by
  obtain ⟨s, hs⟩ := sha256Final_words ctx
  have hbyte : ∀ w : UInt32, UInt8.ofNat (w.toNat % 256) = w.toUInt8 := by
    intro w
    apply UInt8.toNat_inj.mp
    rw [UInt8.toNat_ofNat', UInt32.toNat_toUInt8, Nat.mod_mod]
  let low : UInt32 → Fin 256 := fun w => ⟨w.toNat % 256, Nat.mod_lt _ (by decide)⟩
  refine ⟨![low s.a, low s.b, low s.c, low s.d, low s.e, low s.f, low s.g, low s.h], ?_⟩
  rw [hs, spread]
  simp [low, hbyte, List.ofFn_succ]

/-- There are at most 2⁶⁴ digests. -/
theorem sha256_range : ∃ range : Finset Bytes, range.card ≤ 2 ^ 64 ∧ ∀ m, sha256 m ∈ range := by
  refine ⟨Finset.univ.image spread, ?_, ?_⟩
  · refine Nat.le_trans Finset.card_image_le (Nat.le_of_eq ?_)
    rw [Finset.card_univ, Fintype.card_fun, Fintype.card_fin, Fintype.card_fin]
    norm_num
  · intro m
    simp only [Finset.mem_image, Finset.mem_univ, true_and]
    exact sha256Final_spread _

/-- **Room for blocks.** With the hash function as it is written, no node ever has more than
2⁶⁴ blocks, and of more than 2⁶⁴ different headers that a node accepts two have the same
hash, so that the later one takes the place of the other. -/
theorem blocks_bounded (env : Env .passed) (hdigest : env.digest = sha256)
    {events : List NodeEvent} {start n : NodeState} {outs : List Output}
    (hempty : start.dbs.blocks = ∅) (hrun : nodeRun env events start = .ok (n, outs)) :
    n.dbs.blocks.keys.length ≤ 2 ^ 64 ∧
    (2 ^ 64 < (acceptedHeaders env outs).dedup.length →
      Collides sha256 (acceptedHeaders env outs) (acceptedHeaders env outs)) := by
  obtain ⟨range, hcard, hrange⟩ := sha256_range
  have hfiled : HeadersFiled env (acceptedHeaders env outs) n.dbs :=
    (headersFiled_empty hempty).run hrun
  have hkeys : n.dbs.blocks.keys.toFinset ⊆ range := by
    intro k hk
    have hlookup := AList.lookup_isSome.mpr (AList.mem_keys.mpr (List.mem_toFinset.mp hk))
    obtain ⟨r, hr⟩ := Option.isSome_iff_exists.mp hlookup
    have hheader : storedHeader n.dbs k = some (r.take sizeBlockHeader) := by
      rw [storedHeader, hr]
      rfl
    obtain ⟨-, rfl⟩ := hfiled.foundIn k _ hheader
    rw [hdigest]
    exact hrange _
  refine ⟨?_, ?_⟩
  · rw [← List.toFinset_card_of_nodup n.dbs.blocks.keys_nodup]
    exact Nat.le_trans (Finset.card_le_card hkeys) hcard
  · intro hmany
    exact collides_of_card_lt sha256 (fun r _ => hrange r) (Nat.lt_of_le_of_lt hcard hmany)

/-- A node with two blocks is far from that. -/
theorem blocks_bounded_child : ∃ fuel fuel' n outs,
    nodeRun sampleEnv (twoBlockEvents fuel fuel' genesisHeader childHeader) ⟨emptyNode, []⟩ =
      .ok (n, outs) ∧
    n.dbs.blocks.keys.length ≤ 2 ^ 64 := by
  obtain ⟨fuel, fuel', n, outs, hrun, -⟩ := twoBlocks_accepted sampleEnv (fun _ => rfl)
    (sampleEnv_noReorg _) length_genesisHeader length_childHeader
  exact ⟨fuel, fuel', n, outs, hrun, (blocks_bounded sampleEnv rfl rfl hrun).1⟩

end Freecoin
