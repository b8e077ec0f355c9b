import Freecoin.Network.Connection

/-!
# network.c: a node

One set of databases and any number of connections, each with a thread in
`handle_connection` and the two buffers that this thread has allocated. What happens
next is that a connection is accepted, that `recvfrom` delivers something on one of
them, or that one of them ends. A message is handled at one go, and the messages of the
connections come in any order.

For the databases a run of a node is a sequence of messages, so that what was shown of
such sequences is true of nodes. Here it is used for the answers to `<getblocks>`: whatever
a node is sent, it answers from the chain that it started with, and an empty chain stays
empty. How many hashes an answer has comes from the chain; the hashes themselves are what
the response buffer of the connection still has in it.

A thread is here past the line `if (resp == NULL);`, read as it is meant
(`RespCheck.meant`): as it is written no thread comes to its first message.
-/

namespace Freecoin

open Lib Relation

/-- A connection: whether its thread is still in the loop, and the buffers `msg` and
`resp`. -/
structure Link : Type where
  isOpen : Bool
  msg : Mem
  resp : Mem

structure NodeState : Type where
  dbs : Dbs
  links : List Link

/-- What happens to a node. A connection is known by its place in `links`. -/
inductive NodeEvent : Type where
  /-- A connection, with the buffers as `malloc` returned them. -/
  | connect (msg resp : Mem)
  /-- `recvfrom` delivers a chunk. -/
  | receive (i : ℕ) (net : Net) (u : MsgMem) (fuel : ℕ) (chunk : Bytes)
  /-- `recvfrom` returns 0 or less. -/
  | hangUp (i : ℕ)

/-- What can be seen of a `recvfrom`, with the receive buffer as it was read. -/
structure Output : Type where
  link : ℕ
  msg : Mem
  event : Event

variable {B : Bdb} (env : Env B)

/-- A pass of the loop of `handle_connection`: the databases, the connection, and what
can be seen. Nothing is seen of an empty chunk (`n == 0`), with which the loop ends. -/
def receivePass (net : Net) (u : MsgMem) (fuel : ℕ) (dbs : Dbs) (link : Link) (chunk : Bytes) :
    Except Fault (Dbs × Link × Option Event) :=
  let msg := recvMsg link.msg chunk
  if chunk = [] then .ok (dbs, { link with isOpen := false }, none)
  else if msgVersion env.host msg = clientVersion then do
    let out ← handleMessage env net u fuel ⟨dbs, link.resp⟩ msg
    return (out.1.dbs, ⟨true, msg, out.1.resp⟩,
      some (.handled (msgCtype msg) chunk out.1.dbs out.2))
  else .ok (dbs, ⟨false, msg, link.resp⟩, some (.rejected (rejectReply link.resp)))

/-- One step of a node. On a connection that has ended nothing is received. -/
def nodeStep (n : NodeState) : NodeEvent → Except Fault (NodeState × List Output)
  | .connect msg resp => .ok (⟨n.dbs, n.links ++ [⟨true, msg, resp⟩]⟩, [])
  | .hangUp i => .ok (⟨n.dbs, n.links.modify i fun link => { link with isOpen := false }⟩, [])
  | .receive i net u fuel chunk =>
      match n.links[i]? with
      | none => .ok (n, [])
      | some link =>
          if link.isOpen then do
            let (dbs, link, event) ← receivePass env net u fuel n.dbs link chunk
            return (⟨dbs, n.links.set i link⟩, event.toList.map fun e => ⟨i, link.msg, e⟩)
          else .ok (n, [])

/-- A run, up to where the process stops if it does. -/
def nodeRun : List NodeEvent → NodeState → Except Fault (NodeState × List Output) :=
  collectState (nodeStep env)

/-! ## What a step does -/

/-- What a message of content type `msgCtype msg` does to the databases. -/
inductive MessageMoves (u : MsgMem) (s : Dbs) (msg : Mem) : Dbs → Prop
  | block {s' : Dbs} (hctype : msgCtype msg = ctypeBlock)
      (h : Handles env s (.block u.block msg) s') : MessageMoves u s msg s'
  | tx {s' : Dbs} (hctype : msgCtype msg = ctypeTx)
      (h : Handles env s (.tx u.dest u.entry msg) s') : MessageMoves u s msg s'
  | read (hblock : msgCtype msg ≠ ctypeBlock) (htx : msgCtype msg ≠ ctypeTx) :
      MessageMoves u s msg s

variable {env}

theorem handleMessage_moves {net : Net} {u : MsgMem} {fuel : ℕ} {s s' : Conn} {msg : Mem}
    {sent : List Sent} (h : handleMessage env net u fuel s msg = .ok (s', sent)) :
    MessageMoves env u s.dbs msg s'.dbs := by
  by_cases hblock : msgCtype msg = ctypeBlock
  · rw [handleMessage_block env hblock] at h
    split at h
    · obtain ⟨⟨dbs, out⟩, hrun, hret⟩ := ok_of_bind h
      cases hret
      exact .block hblock ⟨fuel, out, hrun⟩
    · cases h
  · by_cases htx : msgCtype msg = ctypeTx
    · rw [handleMessage_tx env htx] at h
      obtain ⟨dbs, hrun, hret⟩ := ok_of_bind h
      cases hret
      exact .tx htx hrun
    · have hsame : s'.dbs = s.dbs := by
        unfold handleMessage at h
        dsimp only at h
        rw [if_neg hblock, if_neg htx] at h
        split_ifs at h
        all_goals first
          | (cases h; rfl)
          | (obtain ⟨out, -, hret⟩ := ok_of_bind h; cases hret; rfl)
      rw [hsame]
      exact .read hblock htx

/-- A step of a node, by what it does. -/
inductive NodeMoves (env : Env B) (n : NodeState) : NodeEvent → NodeState → List Output → Prop
  | silent {e : NodeEvent} {links : List Link} : NodeMoves env n e ⟨n.dbs, links⟩ []
  | rejected {e : NodeEvent} {links : List Link} {i : ℕ} {msg : Mem} {reply : Sent} :
      NodeMoves env n e ⟨n.dbs, links⟩ [⟨i, msg, .rejected reply⟩]
  | handled {i : ℕ} {net : Net} {u : MsgMem} {fuel : ℕ} {chunk : Bytes} {link : Link} {msg : Mem}
      {s : Conn} {sent : List Sent} {links : List Link} (hlink : n.links[i]? = some link)
      (h : handleMessage env net u fuel ⟨n.dbs, link.resp⟩ msg = .ok (s, sent)) :
      NodeMoves env n (.receive i net u fuel chunk) ⟨s.dbs, links⟩
        [⟨i, msg, .handled (msgCtype msg) chunk s.dbs sent⟩]

theorem nodeStep_cases {n n' : NodeState} {e : NodeEvent} {outs : List Output}
    (h : nodeStep env n e = .ok (n', outs)) : NodeMoves env n e n' outs := by
  cases e with
  | connect msg resp =>
      cases h
      exact .silent
  | hangUp i =>
      cases h
      exact .silent
  | receive i net u fuel chunk =>
      rw [nodeStep] at h
      split at h
      · cases h
        exact .silent
      · next link hlink =>
          split at h
          · obtain ⟨⟨dbs, link', event⟩, hpass, hret⟩ := ok_of_bind h
            cases hret
            rw [receivePass] at hpass
            split at hpass
            · cases hpass
              exact .silent
            · split at hpass
              · obtain ⟨out, hmsg, hret⟩ := ok_of_bind hpass
                cases hret
                exact .handled hlink hmsg
              · cases hpass
                exact .rejected
          · cases h
            exact .silent

/-- What a node may do to its databases. -/
abbrev HandlesRun (env : Env B) : Dbs → Dbs → Prop :=
  ReflTransGen fun s s' => ∃ m, Handles env s m s'

theorem MessageMoves.handles {u : MsgMem} {s s' : Dbs} {msg : Mem}
    (h : MessageMoves env u s msg s') : HandlesRun env s s' := by
  cases h with
  | block _ hstep => exact .single ⟨_, hstep⟩
  | tx _ hstep => exact .single ⟨_, hstep⟩
  | read _ _ => exact .refl

theorem nodeStep_handles {n n' : NodeState} {e : NodeEvent} {outs : List Output}
    (h : nodeStep env n e = .ok (n', outs)) :
    HandlesRun env n.dbs n'.dbs := by
  cases nodeStep_cases h with
  | silent => exact .refl
  | rejected => exact .refl
  | handled _ hmsg => exact (handleMessage_moves hmsg).handles

/-- **Rule for nodes.** What every message keeps of the databases a node keeps. -/
theorem nodeRun_rule {P : Dbs → Prop} (hP : ∀ s m s', Handles env s m s' → P s → P s')
    {events : List NodeEvent} {n n' : NodeState} {outs : List Output}
    (h : nodeRun env events n = .ok (n', outs)) (hn : P n.dbs) : P n'.dbs := by
  have hstep : ∀ m e m' out, nodeStep env m e = .ok (m', out) → P m.dbs →
      P m'.dbs ∧ ∀ o ∈ out, True := by
    intro m e m' out hstep hm
    refine ⟨?_, fun _ _ => trivial⟩
    exact run_invariant (fun s s' ⟨_, hs⟩ => hP _ _ _ hs) (nodeStep_handles hstep) hm
  exact (collectState_invariant (P := fun m => P (NodeState.dbs m)) hstep h hn).1

/-- A message is handled on the databases that the node has, with the response buffer of its
connection. -/
theorem nodeStep_handled {n n' : NodeState} {e : NodeEvent} {outs : List Output}
    (h : nodeStep env n e = .ok (n', outs)) {o : Output} (ho : o ∈ outs) {ctype : UInt8}
    {chunk : Bytes} {dbs : Dbs} {sent : List Sent}
    (hevent : o.event = .handled ctype chunk dbs sent) :
    ctype = msgCtype o.msg ∧ ∃ link, n.links[o.link]? = some link ∧
      ∃ net u fuel s, handleMessage env net u fuel ⟨n.dbs, link.resp⟩ o.msg = .ok (s, sent) := by
  cases nodeStep_cases h with
  | silent => exact absurd ho List.not_mem_nil
  | rejected =>
      rw [List.mem_singleton.mp ho] at hevent
      cases hevent
  | handled hlink hmsg =>
      rw [List.mem_singleton.mp ho] at hevent ⊢
      cases hevent
      exact ⟨rfl, _, hlink, _, _, _, _, hmsg⟩

/-! ## One connection -/

/-- The first message of a new connection. -/
theorem nodeRun_first {net : Net} {u : MsgMem} {fuel : ℕ} {n : NodeState} {dbs : Dbs}
    {msg resp : Mem} {chunk : Bytes} {link : Link} {event : Event}
    (h : receivePass env net u fuel n.dbs ⟨true, msg, resp⟩ chunk =
      .ok (dbs, link, some event)) :
    nodeRun env [.connect msg resp, .receive n.links.length net u fuel chunk] n =
      .ok (⟨dbs, n.links ++ [link]⟩, [⟨n.links.length, link.msg, event⟩]) := by
  have hstep : nodeStep env ⟨n.dbs, n.links ++ [⟨true, msg, resp⟩]⟩
      (.receive n.links.length net u fuel chunk) =
        .ok (⟨dbs, n.links ++ [link]⟩, [⟨n.links.length, link.msg, event⟩]) := by
    have hset : (n.links ++ [Link.mk true msg resp]).set n.links.length link =
        n.links ++ [link] := by
      rw [List.set_append_right _ _ (Nat.le_refl _), Nat.sub_self]
      rfl
    rw [nodeStep, List.getElem?_concat_length]
    show (receivePass env net u fuel n.dbs ⟨true, msg, resp⟩ chunk >>= _) = _
    rw [h, ← hset]
    rfl
  rw [nodeRun, collectState]
  show (collectState (nodeStep env) [.receive n.links.length net u fuel chunk]
    ⟨n.dbs, n.links ++ [⟨true, msg, resp⟩]⟩ >>= _) = _
  rw [collectState, hstep]
  rfl

/-- What `recvfrom` delivers on the first connection, message by message. -/
def deliveries (net : Net) (u : ℕ → MsgMem) (fuel : ℕ) : List Bytes → ℕ → List NodeEvent
  | [], _ => []
  | chunk :: rest, k => .receive 0 net (u k) fuel chunk :: deliveries net u fuel rest (k + 1)

section Alone

variable {net : Net} {u : ℕ → MsgMem} {fuel : ℕ}

/-- After a connection has ended nothing is seen of it. -/
theorem nodeRun_closed (chunks : List Bytes) (k : ℕ) (dbs : Dbs) (msg resp : Mem) :
    nodeRun env (deliveries net u fuel chunks k) ⟨dbs, [⟨false, msg, resp⟩]⟩ =
      .ok (⟨dbs, [⟨false, msg, resp⟩]⟩, []) := by
  induction chunks generalizing k with
  | nil => rfl
  | cons chunk rest ih =>
      have hrest := ih (k + 1)
      rw [nodeRun] at hrest ⊢
      rw [deliveries, collectState]
      show (collectState (nodeStep env) (deliveries net u fuel rest (k + 1))
        ⟨dbs, [⟨false, msg, resp⟩]⟩ >>= fun later => pure (later.1, [] ++ later.2)) = _
      rw [hrest]
      rfl

/-- **One connection.** A node with one connection shows what `handle_connection` shows. -/
theorem nodeRun_alone {chunks : List Bytes} {k : ℕ} {dbs : Dbs} {msg resp : Mem} {n : NodeState}
    {outs : List Output}
    (h : nodeRun env (deliveries net u fuel chunks k) ⟨dbs, [⟨true, msg, resp⟩]⟩ = .ok (n, outs)) :
    outs.map Output.event = handleConnection env net u fuel chunks k msg ⟨dbs, resp⟩ := by
  induction chunks generalizing k dbs msg resp outs with
  | nil =>
      cases h
      rfl
  | cons chunk rest ih =>
      obtain ⟨⟨m, first⟩, hstep, h⟩ := ok_of_bind h
      obtain ⟨⟨m', later⟩, hlater, hret⟩ := ok_of_bind h
      cases hret
      obtain ⟨⟨dbs', link, event⟩, hpass, hret⟩ := ok_of_bind hstep
      cases hret
      rw [handleConnection]
      rw [receivePass] at hpass
      by_cases hend : chunk = []
      · rw [if_pos hend] at hpass ⊢
        cases hpass
        cases (nodeRun_closed rest (k + 1) dbs msg resp).symm.trans hlater
        rfl
      rw [if_neg hend] at hpass ⊢
      by_cases hversion : msgVersion env.host (recvMsg msg chunk) = clientVersion
      · rw [if_pos hversion] at hpass ⊢
        obtain ⟨⟨s, sent⟩, hmsg, hret⟩ := ok_of_bind hpass
        cases hret
        rw [hmsg]
        exact congrArg _ (ih hlater)
      · rw [if_neg hversion] at hpass ⊢
        cases hpass
        cases (nodeRun_closed rest (k + 1) dbs _ resp).symm.trans hlater
        rfl

end Alone

/-! ## Announcing blocks -/

/-- The chain has an entry at this height. -/
def HasEntry (env : Env B) (dbs : Dbs) (h : UInt32) : Prop :=
  ∃ dest, (dataChainGet env dbs h dest).1 = true

/-- The list that `build_block_list` counts goes over entries of the chain. -/
theorem blockListLoop_entries (dbs : Dbs) : ∀ (n : ℕ) (i : UInt32) (count : ℕ) (buffer : Mem),
    ∀ k, count + k < (blockListLoop env dbs n i count buffer).1 →
      HasEntry env dbs (i + UInt32.ofNat k) := by
  intro n
  induction n with
  | zero =>
      intro i count buffer k hk
      exact absurd hk (Nat.not_lt.mpr (Nat.le_add_right count k))
  | succ n ih =>
      intro i count buffer k hk
      rw [blockListLoop] at hk
      dsimp only at hk
      split at hk
      · next hget =>
          cases k with
          | zero => exact ⟨buffer, by simpa using hget⟩
          | succ k =>
              have hlater : count + 1 + k = count + (k + 1) := by omega
              have hnext := ih (i + 1) (count + 1) _ k (hlater ▸ hk)
              have hindex : i + 1 + UInt32.ofNat k = i + UInt32.ofNat (k + 1) := by
                rw [UInt32.ofNat_add, UInt32.add_assoc, UInt32.add_comm 1]
                rfl
              exact hindex ▸ hnext
      · exact absurd hk (Nat.not_lt.mpr (Nat.le_add_right count k))

theorem buildBlockList_entries (env : Env B) (u : BuildMem) (dbs : Dbs) (start : Mem) (r : UInt8)
    (dest : Mem) :
    ∃ h, ∀ k < (buildBlockList env u dbs start r dest).ret.toNat,
      HasEntry env dbs (h + UInt32.ofNat k) := by
  refine ⟨blockListIndex env u dbs start, ?_⟩
  intro k hk
  rw [buildBlockList] at hk
  split at hk
  · have hle : ∀ n : ℕ, (UInt8.ofNat n).toNat ≤ n := by
      intro n
      rw [UInt8.toNat_ofNat']
      exact Nat.mod_le _ _
    apply blockListLoop_entries dbs _ _ 0 u.hashBuffer k
    rw [Nat.zero_add]
    exact Nat.lt_of_lt_of_le hk (hle _)
  · cases hk

/-- The answer to a `<getblocks>`: a count for which `dbs` has as many entries on the chain one
after the other, and for ids what stood in `resp`, where `build_block_list` writes nothing. -/
def CountsEntries (env : Env B) (dbs : Dbs) (resp : Mem) (sent : List Sent) : Prop :=
  ∃ (count : UInt8) (h : UInt32),
    sent = [.toPeer ctypeInv (dtypeBlock :: count ::
      resp.slice ctypeInvPosIds (count.toNat * sizeSha256))] ∧
    ∀ k < count.toNat, HasEntry env dbs (h + UInt32.ofNat k)

theorem handleMessage_counts {net : Net} {u : MsgMem} {fuel : ℕ} {s s' : Conn} {msg : Mem}
    {sent : List Sent} (hctype : msgCtype msg = ctypeGetblocks)
    (h : handleMessage env net u fuel s msg = .ok (s', sent)) :
    CountsEntries env s.dbs s.resp sent := by
  rw [handleMessage, hctype] at h
  cases h
  obtain ⟨height, hentries⟩ := buildBlockList_entries env u.build s.dbs
    (msg.shift ctypeGetblocksPosStartBlock) (msg ctypeGetblocksPosBlockCount)
    (s.resp.shift ctypeInvPosIds)
  refine ⟨_, height, ?_, hentries⟩
  rw [handleGetblocks, idsReply_sent, buildBlockList_dest, Mem.slice_shift, Nat.add_zero]

/-- Without a chain there is nothing to count. -/
theorem CountsEntries.nothing {dbs : Dbs} {resp : Mem} {sent : List Sent}
    (h : CountsEntries env dbs resp sent) (hnone : ∀ height, ¬ HasEntry env dbs height) :
    sent = [.toPeer ctypeInv [dtypeBlock, 0]] := by
  obtain ⟨count, height, rfl, hentries⟩ := h
  have hcount : count.toNat = 0 := by
    by_contra hpos
    exact hnone _ (hentries 0 (Nat.pos_of_ne_zero hpos))
  have hzero : count = 0 := UInt8.toNat_inj.mp hcount
  rw [hcount, hzero]
  rfl

/-- A block off the tip leaves its hash where the ids of the next answer come from. -/
theorem blockResp_ids {u : BlockMem} {dbs : Dbs} {block : Mem} (resp : Mem)
    (h : offTip (blockGetHeight env.host block) (dataChainGetHeight env u.height dbs) = true) :
    (blockResp env u dbs block resp).slice ctypeInvPosIds sizeSha256 =
      blockComputeHash env.digest block := by
  rw [blockResp, if_pos h, Mem.slice_write_disjoint (.inr (by decide)),
    Mem.slice_write_disjoint (.inr (by decide))]
  exact Mem.slice_write_of_length (Digest.length ..)

/-- **What a node announces.** Whatever it was sent, over however many connections and in
whatever order, a node answers the next `<getblocks>` with a count that goes by the chain it
was started with: it had as many entries then, one after the other. The ids do not go by the
chain: they are what the response buffer of the connection holds, for instance the hash of a
block that has just come. If there was no entry, there are no ids. -/
theorem getblocks_answered_from_start (env : Env .passed) {before : List NodeEvent}
    {e : NodeEvent} {start n n' : NodeState} {outs outs' : List Output}
    (hrun : nodeRun env before start = .ok (n, outs))
    (hstep : nodeStep env n e = .ok (n', outs')) {o : Output} (ho : o ∈ outs') {chunk : Bytes}
    {dbs : Dbs} {sent : List Sent}
    (hevent : o.event = .handled ctypeGetblocks chunk dbs sent) :
    ∃ link, n.links[o.link]? = some link ∧ CountsEntries env start.dbs link.resp sent ∧
      ((∀ height, ¬ HasEntry env start.dbs height) →
        sent = [.toPeer ctypeInv [dtypeBlock, 0]]) := by
  have hkeeps : ∀ s m s', Handles env s m s' → dataChainGet env s = dataChainGet env start.dbs →
      dataChainGet env s' = dataChainGet env start.dbs := by
    intro s m s' hstep hs
    exact hstep.chainGet_eq.trans hs
  have hget : dataChainGet env n.dbs = dataChainGet env start.dbs := nodeRun_rule hkeeps hrun rfl
  obtain ⟨hctype, link, hlink, net, u, fuel, s, hmsg⟩ := nodeStep_handled hstep ho hevent
  have hcounts := handleMessage_counts hctype.symm hmsg
  rw [CountsEntries] at hcounts
  simp only [HasEntry, hget] at hcounts
  exact ⟨link, hlink, hcounts, CountsEntries.nothing hcounts⟩

/-! ### One request -/

/-- The bytes of a request for a block, which are its version and content type too. -/
def askedHash : Bytes := [0, 1, ctypeGetblocks] ++ List.replicate 29 0

/-- A node that has the block asked for at height 0, and an entry for the height after it. -/
def twoEntries : Dbs :=
  { emptyNode with
    blocks := AList.insert askedHash (List.replicate 83 0) ∅
    chain := AList.insert (hostBytes32 .little 1) (List.replicate 32 3) ∅ }

/-- The memory of a message for which the chain height is found as 1. -/
def heightOne : MsgMem :=
  { MsgMem.zero with build := ⟨⟨1, fun _ => 0⟩, fun _ => 0, fun _ => 0⟩ }

/-- It counts the entry, and announces the sevens that stand in the buffer. -/
theorem getblocks_answered_twoEntries :
    ∃ (n n' : NodeState) (o : Output) (chunk : Bytes) (dbs : Dbs) (sent : List Sent) (link : Link),
      nodeRun sampleEnv [.connect (fun _ => 0) (fun _ => 7)] ⟨twoEntries, []⟩ = .ok (n, []) ∧
      nodeStep sampleEnv n (.receive 0 ⟨[], true⟩ heightOne 0 (askedHash ++ [1])) =
        .ok (n', [o]) ∧
      o.event = .handled ctypeGetblocks chunk dbs sent ∧
      sent = [.toPeer ctypeInv (dtypeBlock :: 1 :: List.replicate 32 7)] ∧
      CountsEntries sampleEnv twoEntries link.resp sent := by
  have hrun : nodeRun sampleEnv [.connect (fun _ => 0) (fun _ => 7)] ⟨twoEntries, []⟩ =
      .ok (⟨twoEntries, [⟨true, fun _ => 0, fun _ => 7⟩]⟩, []) := rfl
  have hstep : nodeStep sampleEnv ⟨twoEntries, [⟨true, fun _ => 0, fun _ => 7⟩]⟩
      (.receive 0 ⟨[], true⟩ heightOne 0 (askedHash ++ [1])) =
        .ok (_, [⟨0, recvMsg (fun _ => 0) (askedHash ++ [1]),
          .handled ctypeGetblocks (askedHash ++ [1]) twoEntries _⟩]) := rfl
  obtain ⟨link, -, hcounts, -⟩ := getblocks_answered_from_start sampleEnv hrun hstep
    (List.mem_singleton_self _) rfl
  exact ⟨_, _, _, _, _, _, link, hrun, hstep, rfl, by decide, hcounts⟩

end Freecoin
