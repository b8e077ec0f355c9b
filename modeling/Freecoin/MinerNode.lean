import Freecoin.Difficulty
import Freecoin.Network.Node

/-!
# mine.c: `main` on a node

The loops of `main` work on the databases and the mempool that the threads of the
connections change at the same time, and hold no mutex. So `main` is taken here one
access at a time, and between two of them the node may handle any message.

Whatever it handles, `main` never works on top of a block that was received or found: the
entry of the chain that a header names was there when the process started, and `succeed`
does not store anything either.

As in the node, the databases are maps on the bytes that the code passes (`Bdb.passed`)
and the threads of the connections are past line 78 of `network.c` (`RespCheck.meant`).
-/

namespace Freecoin

open Lib

/-- Where `main` is in its loops. -/
inductive MainPc : Type where
  /-- "Starting a new block". -/
  | newBlock
  /-- `data_chain_get_height` has returned. -/
  | height (latestHeight : UInt32)
  /-- `data_chain_get` has returned 0. -/
  | latest (latestHeight : UInt32)
  /-- At the head of the inner loop. -/
  | check
  /-- `data_chain_get_height` has returned there. -/
  | compare (height : UInt32)
  /-- The workblock is not stale. -/
  | count
  /-- `i` and how often the loop over new transactions is still run. -/
  | adding (i left : ℕ)

structure MainState : Type where
  node : NodeState
  pc : MainPc
  latestBlockHash : Mem
  cmpBuffer : Mem
  workblock : Mem

/-- What a statement of `main` finds: variables and memory that nobody has set, what the clock
says, and how often `mine` gets to increment the nonce. -/
structure MainMem : Type where
  heightMem : HeightMem
  fns : TargetFns
  targetMem : TargetMem
  currTime : UInt32
  time : UInt32
  gccVersion : UInt16
  outs : Mem
  dest : Mem
  raw : Bytes
  addr : UInt8
  nonces : ℕ

inductive MainEvent : Type where
  | node (e : NodeEvent)
  | main (u : MainMem)

variable {B : Bdb} (env : Env B)

/-- The new block of `main`. -/
def MainState.newBlock (s : MainState) (u : MainMem) (latestHeight : UInt32) : NewBlock where
  version := clientVersion
  time := u.time
  height := latestHeight + 1
  prevHash := s.latestBlockHash
  target := (computeNextTarget env u.fns u.currTime u.targetMem s.node.dbs
    s.latestBlockHash).toUInt8
  gccVersion := u.gccVersion
  outs := u.outs
  dest := u.dest
  raw := u.raw

/-- The next thing `main` does, and the workblock if it is handed to `mine`. -/
def mainNext (s : MainState) (u : MainMem) : Except Fault (MainState × List Mem) :=
  let dbs := s.node.dbs
  match s.pc with
  | .newBlock => .ok ({ s with pc := .height (dataChainGetHeight env u.heightMem dbs) }, [])
  | .height latestHeight =>
      let got := dataChainGet env dbs latestHeight s.latestBlockHash
      if got.1 then .ok ({ s with pc := .latest latestHeight, latestBlockHash := got.2 }, [])
      else .error (.fatal "data_chain_get failed: %d")
  | .latest latestHeight => do
      let workblock ← startBlock env.host env.digest u.addr (s.newBlock env u latestHeight)
        s.workblock
      return ({ s with pc := .check, workblock := workblock }, [])
  | .check => .ok ({ s with pc := .compare (dataChainGetHeight env u.heightMem dbs) }, [])
  | .compare height =>
      let cmpBuffer := (dataChainGet env dbs height s.cmpBuffer).2
      if cmpBuffer.slice 0 sizeSha256 = s.latestBlockHash.slice 0 sizeSha256 then
        .ok ({ s with pc := .count, cmpBuffer := cmpBuffer }, [])
      else .ok ({ s with pc := .newBlock, cmpBuffer := cmpBuffer }, [])
  | .count => .ok ({ s with pc := .adding 0 (newTxCount env.host dbs.mempool s.workblock) }, [])
  | .adding i (left + 1) => do
      let workblock ← blockAddTx env.host u.addr s.workblock (dataMempoolGet dbs.mempool i)
      return ({ s with pc := .adding (i + 1) left, workblock := workblock }, [])
  | .adding _ 0 =>
      let entered := s.workblock.write posBlockTime (uitob u.time)
      .ok ({ s with pc := .check, workblock := nthHeader env.host entered u.nonces }, [entered])

/-- What happens next in the process. -/
def mainStep (s : MainState) : MainEvent → Except Fault (MainState × List Mem)
  | .node e => do
      let (node, _) ← nodeStep env s.node e
      return ({ s with node := node }, [])
  | .main u => mainNext env s u

/-- A run of the process: every workblock that is handed to `mine`. -/
def mainRun : List MainEvent → MainState → Except Fault (MainState × List Mem) :=
  collectState (mainStep env)

/-! ## Undisturbed -/

section Alone

variable {env} {s s' : MainState} {u : MainMem} {out : List Mem}

theorem mainRun_one (h : mainNext env s u = .ok (s', out)) :
    mainRun env [.main u] s = .ok (s', out) := by
  rw [mainRun, collectState, mainStep, h]
  show Except.ok (s', out ++ []) = _
  rw [List.append_nil]

theorem mainRun_adding_alone : ∀ {n i : ℕ} {w w' : Mem},
    addMempoolTxs env.host u.addr s.node.dbs.mempool n i w = .ok w' →
      mainRun env (List.replicate n (.main u)) { s with pc := .adding i n, workblock := w } =
        .ok ({ s with pc := .adding (i + n) 0, workblock := w' }, []) := by
  intro n
  induction n with
  | zero =>
      intro i w w' h
      cases h
      rfl
  | succ n ih =>
      intro i w w' h
      obtain ⟨added, hadd, hrest⟩ := ok_of_bind h
      have hstep : mainStep env { s with pc := .adding i (n + 1), workblock := w } (.main u) =
          .ok ({ s with pc := .adding (i + 1) n, workblock := added }, []) := by
        rw [mainStep, mainNext]
        show (blockAddTx env.host u.addr w (dataMempoolGet s.node.dbs.mempool i) >>= _) = _
        rw [hadd]
        rfl
      rw [List.replicate_succ, mainRun, collectState, hstep]
      show (mainRun env (List.replicate n (.main u)) _ >>= _) = _
      rw [ih hrest, Nat.add_assoc, Nat.add_comm 1 n]
      rfl

/-- **A pass of the inner loop.** Where no message comes in between, `main` does what the
loop over whole passes does. -/
theorem mainRun_pass_alone (hpc : s.pc = .count) {w' : Mem} {entered : List Mem}
    (h : minerLoop env.host u.addr [⟨s.node.dbs.mempool, u.time, u.nonces⟩] s.workblock =
      .ok (w', entered)) :
    ∃ n, mainRun env (List.replicate n (.main u)) s =
      .ok ({ s with pc := .check, workblock := w' }, entered) := by
  obtain ⟨refreshed, hrefresh, h⟩ := ok_of_bind h
  cases h
  have hcount : mainRun env [.main u] s = .ok ({ s with
      pc := .adding 0 (newTxCount env.host s.node.dbs.mempool s.workblock) }, []) := by
    apply mainRun_one
    rw [mainNext, hpc]
  have hadding := mainRun_adding_alone (s := s) (u := u) hrefresh
  exact ⟨1 + newTxCount env.host s.node.dbs.mempool s.workblock + 1, by
    rw [List.replicate_succ', List.replicate_add]
    exact collectState_append (collectState_append hcount hadding) rfl⟩

end Alone

/-! ## What `main` works on -/

/-- `data_chain_get` finds `hash` at this height. -/
def EntryAt (env : Env B) (dbs : Dbs) (height : UInt32) (hash : Mem) : Prop :=
  ∃ dest, dataChainGet env dbs height dest = (true, hash)

theorem EntryAt.hasEntry {dbs : Dbs} {height : UInt32} {hash : Mem}
    (h : EntryAt env dbs height hash) : HasEntry env dbs height := by
  obtain ⟨dest, hget⟩ := h
  exact ⟨dest, congrArg Prod.fst hget⟩

/-- A header for the block after an entry of the chain. -/
def FollowsEntry (env : Env B) (dbs : Dbs) (block : Mem) : Prop :=
  ∃ height hash, EntryAt env dbs height hash ∧
    blockGetPrevHash block = hash.slice 0 sizeSha256 ∧
    block.slice posBlockHeight 4 = uitob (height + 1)

theorem FollowsEntry.congr {dbs : Dbs} {block block' : Mem} (h : FollowsEntry env dbs block)
    (hsame : ∀ i, posBlockHeight ≤ i → i < posBlockMerkleRoot → block' i = block i) :
    FollowsEntry env dbs block' := by
  obtain ⟨height, hash, hentry, hprev, hheight⟩ := h
  refine ⟨height, hash, hentry, ?_, ?_⟩
  · rw [← hprev, blockGetPrevHash, blockGetPrevHash, Mem.slice_eq_iff]
    intro i hi
    apply hsame
    · exact Nat.le_trans (by decide) (Nat.le_add_right posBlockPrevHash i)
    · exact Nat.add_lt_add_left hi posBlockPrevHash
  · rw [← hheight, Mem.slice_eq_iff]
    intro i hi
    apply hsame
    · exact Nat.le_add_right _ _
    · exact Nat.lt_trans (Nat.add_lt_add_left hi posBlockHeight) (by decide)

/-- What `main` has found of the chain of `dbs` is right, wherever it stands. -/
def MainState.Follows (s : MainState) (env : Env B) (dbs : Dbs) : Prop :=
  match s.pc with
  | .newBlock | .height _ => True
  | .latest latestHeight => EntryAt env dbs latestHeight s.latestBlockHash
  | .check | .compare _ | .count | .adding _ _ => FollowsEntry env dbs s.workblock

section Steps

variable {env} {dbs : Dbs} {s s' : MainState}

theorem startBlock_follows {u : MainMem} {latestHeight : UInt32} {w : Mem}
    (hentry : EntryAt env dbs latestHeight s.latestBlockHash)
    (h : startBlock env.host env.digest u.addr (s.newBlock env u latestHeight) s.workblock =
      .ok w) : FollowsEntry env dbs w := by
  have hheader : FollowsEntry env dbs ((s.newBlock env u latestHeight).header s.workblock) :=
    ⟨latestHeight, s.latestBlockHash, hentry, blockAddHeader_prevHash ..,
      blockAddHeader_field _ _ _ _ _ _ .height⟩
  exact hheader.congr env fun i _ hi => startBlock_frame h (Nat.lt_trans hi (by decide))

/-- **A statement of `main`.** -/
theorem mainNext_follows {u : MainMem} {out : List Mem}
    (hchain : dataChainGet env s.node.dbs = dataChainGet env dbs) (hs : s.Follows env dbs)
    (h : mainNext env s u = .ok (s', out)) :
    s'.node = s.node ∧ s'.Follows env dbs ∧ ∀ w ∈ out, FollowsEntry env dbs w := by
  have hnone : ∀ w ∈ ([] : List Mem), FollowsEntry env dbs w := List.forall_mem_nil _
  rw [mainNext] at h
  rw [MainState.Follows] at hs
  cases hpc : s.pc with
  | newBlock =>
      rw [hpc] at h
      cases h
      exact ⟨rfl, trivial, hnone⟩
  | height latestHeight =>
      rw [hpc] at h
      dsimp only at h
      split at h
      · next hget =>
          cases h
          refine ⟨rfl, ⟨s.latestBlockHash, ?_⟩, hnone⟩
          rw [← hchain]
          exact Prod.ext hget rfl
      · cases h
  | latest latestHeight =>
      rw [hpc] at h hs
      obtain ⟨w, hstart, hret⟩ := ok_of_bind h
      cases hret
      exact ⟨rfl, startBlock_follows hs hstart, hnone⟩
  | check =>
      rw [hpc] at h hs
      cases h
      exact ⟨rfl, hs, hnone⟩
  | compare height =>
      rw [hpc] at h hs
      dsimp only at h
      split at h
      · cases h
        exact ⟨rfl, hs, hnone⟩
      · cases h
        exact ⟨rfl, trivial, hnone⟩
  | count =>
      rw [hpc] at h hs
      cases h
      exact ⟨rfl, hs, hnone⟩
  | adding i left =>
      rw [hpc] at h hs
      cases left with
      | zero =>
          cases h
          have hentered : FollowsEntry env dbs (s.workblock.write posBlockTime (uitob u.time)) :=
            FollowsEntry.congr env hs fun i hlo _ => Mem.write_after (Nat.le_trans (by simp) hlo)
          refine ⟨rfl, hentered.congr env fun i _ hhi => ?_, fun w hw => ?_⟩
          · exact nthHeader_frame env.host _ (.inl (Nat.lt_trans hhi (by decide))) _
          · rw [List.mem_singleton.mp hw]
            exact hentered
      | succ left =>
          obtain ⟨w, hadd, hret⟩ := ok_of_bind h
          cases hret
          refine ⟨rfl, FollowsEntry.congr env hs fun i _ hhi => ?_, hnone⟩
          exact blockAddTx_frame hadd (Nat.lt_trans hhi (by decide))

end Steps

section Passed

variable {env : Env .passed}

theorem nodeStep_chainGet {n n' : NodeState} {e : NodeEvent} {outs : List Output}
    (h : nodeStep env n e = .ok (n', outs)) :
    dataChainGet env n'.dbs = dataChainGet env n.dbs :=
  run_frame (fun _ _ ⟨_, hstep⟩ => hstep.chainGet_eq) (nodeStep_handles h)

/-- **A step of the process.** -/
theorem mainStep_follows {dbs : Dbs} {s s' : MainState} {e : MainEvent} {out : List Mem}
    (h : mainStep env s e = .ok (s', out))
    (hs : dataChainGet env s.node.dbs = dataChainGet env dbs ∧ s.Follows env dbs) :
    (dataChainGet env s'.node.dbs = dataChainGet env dbs ∧ s'.Follows env dbs) ∧
      ∀ w ∈ out, FollowsEntry env dbs w := by
  obtain ⟨hchain, hfollows⟩ := hs
  cases e with
  | node e =>
      obtain ⟨⟨n, outs⟩, hstep, hret⟩ := ok_of_bind h
      cases hret
      exact ⟨⟨(nodeStep_chainGet hstep).trans hchain, hfollows⟩,
        List.forall_mem_nil _⟩
  | main u =>
      obtain ⟨hnode, hfollows', hout⟩ := mainNext_follows hchain hfollows h
      exact ⟨⟨hnode ▸ hchain, hfollows'⟩, hout⟩

section Runs

variable {events : List MainEvent} {start s : MainState} {entered : List Mem}
  (hpc : start.pc = .newBlock) (hrun : mainRun env events start = .ok (s, entered))

include hpc hrun

theorem mainRun_follows : ∀ block ∈ entered, FollowsEntry env start.node.dbs block := by
  have hstart : start.Follows env start.node.dbs := by
    rw [MainState.Follows, hpc]
    trivial
  exact (collectState_invariant (fun _ _ _ _ h hs => mainStep_follows h hs) hrun
    ⟨rfl, hstart⟩).2

/-- Without a chain nothing is mined, whatever is received. -/
theorem mainRun_no_chain (hnone : ∀ height, ¬ HasEntry env start.node.dbs height) :
    entered = [] := by
  apply List.eq_nil_iff_forall_not_mem.mpr
  intro block hblock
  obtain ⟨height, hash, hentry, -⟩ := mainRun_follows hpc hrun block hblock
  exact hnone height (hentry.hasEntry env)

/-- **What the miner works on.** However `main` and the messages of the connections are
interleaved: every workblock that is handed to `mine` names in `prev_hash` an entry that the
chain had when the process started, and its height is one more than that of the entry. With one
entry, all blocks that are ever mined are for the height after it. -/
theorem mined_blocks_follow_start {block : Mem} (hblock : block ∈ entered) :
    FollowsEntry env start.node.dbs block ∧
    ∀ only, (∀ height, HasEntry env start.node.dbs height → height = only) →
      block.slice posBlockHeight 4 = uitob (only + 1) := by
  have hfollows := mainRun_follows hpc hrun block hblock
  refine ⟨hfollows, fun only honly => ?_⟩
  obtain ⟨height, hash, hentry, -, hheight⟩ := hfollows
  rw [hheight, honly height (hentry.hasEntry env)]

end Runs

end Passed

theorem hasEntry_genesisNode {height : UInt32} (h : HasEntry sampleEnv genesisNode height) :
    height = 0 := by
  obtain ⟨dest, hget⟩ := h
  obtain ⟨r, hr, -⟩ := dataChainGet_success sampleEnv hget
  by_contra hne
  have hkey : hostBytes32 .little height ≠ hostBytes32 .little 0 := fun heq =>
    hne (hostBytes32_injective _ heq)
  have hnone : genesisNode.chain.lookup (hostBytes32 .little height) = none := by
    rw [genesisNode, AList.lookup_insert_ne hkey]
    rfl
  cases hr.symm.trans hnone

/-- A chain with `genesis` alone, and a connection that comes while the first block is begun. -/
theorem mined_blocks_follow_start_genesis : ∃ events s block,
    mainRun sampleEnv events ⟨⟨genesisNode, []⟩, .newBlock, fun _ => 0, fun _ => 0, fun _ => 0⟩ =
      .ok (s, [block]) ∧
    FollowsEntry sampleEnv genesisNode block ∧ block.slice posBlockHeight 4 = uitob 1 := by
  let zero : Mem := fun _ => 0
  let u : MainMem := ⟨⟨0, zero⟩, default, zeroTargetMem, 0, 0, 0, zero, zero, [], 0, 0⟩
  let n : NodeState := ⟨genesisNode, [⟨true, zero, zero⟩]⟩
  have hentry : ChainHas sampleEnv genesisNode 0 genesisHash :=
    genesisNode_chainHas.mpr ⟨rfl, rfl⟩
  let start : MainState := ⟨⟨genesisNode, []⟩, .newBlock, zero, zero, zero⟩
  let latest := (dataChainGet sampleEnv genesisNode 0 zero).2
  let begun : MainState := ⟨n, .latest 0, latest, zero, zero⟩
  have hheight : mainRun sampleEnv [.main u] start = .ok ({ start with pc := .height 0 }, []) := by
    apply mainRun_one
    rw [mainNext]
    dsimp only [start]
    rw [genesisNode_height]
  have hconnect : mainRun sampleEnv [.node (.connect zero zero)] { start with pc := .height 0 } =
      .ok (⟨n, .height 0, zero, zero, zero⟩, []) := rfl
  have hlatest : mainRun sampleEnv [.main u] ⟨n, .height 0, zero, zero, zero⟩ =
      .ok (begun, []) := by
    apply mainRun_one
    rw [mainNext]
    exact if_pos (hentry zero).1
  obtain ⟨w, hstart, hholds⟩ := startBlock_holds (o := sampleEnv.host) (H := sampleEnv.digest)
    (b := begun.newBlock sampleEnv u 0) (w := zero) (.inl rfl : StartsWell _ _ 0 _ _)
  have hmake : mainRun sampleEnv [.main u] begun =
      .ok ({ begun with pc := .check, workblock := w }, []) := by
    apply mainRun_one
    show (startBlock sampleEnv.host sampleEnv.digest 0 (begun.newBlock sampleEnv u 0) zero >>=
      _) = _
    rw [hstart]
    rfl
  have hcheck : mainRun sampleEnv [.main u] { begun with pc := .check, workblock := w } =
      .ok ({ begun with pc := .compare 0, workblock := w }, []) := by
    apply mainRun_one
    rw [mainNext]
    dsimp only
    rw [genesisNode_height]
  have hcompare : mainRun sampleEnv [.main u] { begun with pc := .compare 0, workblock := w } =
      .ok ({ begun with pc := .count, cmpBuffer := latest, workblock := w }, []) := by
    apply mainRun_one
    rw [mainNext]
    exact if_pos rfl
  have hslots : Slots genesisNode.mempool [] := slots_poolOf []
  have hloop : minerLoop sampleEnv.host 0 [⟨genesisNode.mempool, 0, 0⟩] w =
      .ok (w.write posBlockTime (uitob 0), [w.write posBlockTime (uitob 0)]) := by
    rw [minerLoop, refresh_same hslots hholds (.inr rfl)]
    rfl
  have hpass : ∃ k, mainRun sampleEnv (List.replicate k (.main u))
      { begun with pc := .count, cmpBuffer := latest, workblock := w } = .ok (_, _) :=
    mainRun_pass_alone rfl hloop
  obtain ⟨k, hpass⟩ := hpass
  have hrun := collectState_append (collectState_append (collectState_append
    (collectState_append (collectState_append (collectState_append hheight hconnect) hlatest)
      hmake) hcheck) hcompare) hpass
  obtain ⟨hfollows, honly⟩ := mined_blocks_follow_start rfl hrun (List.mem_singleton_self _)
  exact ⟨_, _, _, hrun, hfollows, honly 0 fun height hhas => hasEntry_genesisNode hhas⟩

end Freecoin
