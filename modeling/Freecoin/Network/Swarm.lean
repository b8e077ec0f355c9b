import Freecoin.Network.Node
import Freecoin.Network.OwnBytes

/-!
# network.c: nodes among themselves

Any number of nodes that all run this program, the connections between them, and the
bytes that `sendto_peer` has put on the way. A connection is a stream: `recvfrom` may
cut it anywhere, and what is on the way to different ends arrives in any order. Of its
own accord a node sends one message, the question of `join_network` for nodes:
`join_network` does not return, and the functions with which `main` would then ask for
blocks and for the mempool are not written.

The question goes out as a zero byte and its data type, which is no version, so it is
answered with a `<reject>`; and a `<reject>` is the one message that survives its
framing, since the byte for a bad version is 1. Nothing else is ever sent.

This is so if the threads of the connections get to their loops. As lines 78 and 79 are
written they do not, and a node stops when the first of them runs.
-/

namespace Freecoin

open Lib

/-- One end of a connection: a node, and the place of the connection among its links. -/
abbrev LinkEnd (ι : Type) : Type := ι × ℕ

structure Swarm (ι : Type) : Type where
  nodes : ι → NodeState
  /-- The other end of a connection. -/
  other : LinkEnd ι → LinkEnd ι
  /-- What was sent to this end and has not been received. -/
  onWay : LinkEnd ι → Bytes

/-- What happens next. -/
inductive SwarmEvent (ι : Type) where
  /-- `connect` at `a` and `accept` at `b`, with the buffers of the two threads. -/
  | connect (a b : ι) (msg resp msg' resp' : Mem)
  /-- `join_network` asks for nodes; `raw` is what `malloc` returns in `sendto_peer`. -/
  | ask (e : LinkEnd ι) (raw : Mem)
  /-- The thread of a connection gets to its `recvfrom`, which delivers up to `n` bytes, and
  the message is handled. -/
  | deliver (e : LinkEnd ι) (n : ℕ) (net : Net) (u : MsgMem) (fuel : ℕ) (raw : Mem)
  /-- `recvfrom` returns 0 or less. -/
  | hangUp (e : LinkEnd ι)

/-- A network at its beginning: every node has its databases and no connection. -/
def Swarm.start {ι : Type} (dbs : ι → Dbs) : Swarm ι :=
  ⟨fun a => ⟨dbs a, []⟩, id, fun _ => []⟩

/-- The messages that were sent. -/
def Event.sent : Event → List Sent
  | .rejected reply => [reply]
  | .handled _ _ _ sent => sent
  | .died _ _ => []

/-- What goes over the wire for a message. The functions that send to all peers are not
written yet. -/
def wireBytes (raw : Mem) : Sent → Bytes
  | .toPeer ctype payload => sendtoPeer raw ctype payload
  | .msgallGetdata _ _ => []
  | .msgallInv _ _ _ => []

variable {ι : Type} [DecidableEq ι] (check : RespCheck) (env : ι → Env .passed)

/-- A step of one node. -/
def Swarm.act (s : Swarm ι) (a : ι) (e : NodeEvent) : Except Fault (Swarm ι × List Output) := do
  let (n, outs) ← nodeStep (env a) (s.nodes a) e
  return ({ s with nodes := Function.update s.nodes a n }, outs)

/-- Bytes are put on the way to the other end. -/
def Swarm.send (s : Swarm ι) (e : LinkEnd ι) (bytes : Bytes) : Swarm ι :=
  { s with onWay := Function.update s.onWay (s.other e) (s.onWay (s.other e) ++ bytes) }

def swarmStep (s : Swarm ι) : SwarmEvent ι → Except Fault (Swarm ι × List (ι × Output))
  | .connect a b msg resp msg' resp' => do
      let near : LinkEnd ι := (a, (s.nodes a).links.length)
      let (s, _) ← s.act env a (.connect msg resp)
      let far : LinkEnd ι := (b, (s.nodes b).links.length)
      let (s, _) ← s.act env b (.connect msg' resp')
      let other := Function.update (Function.update s.other near far) far near
      let onWay := Function.update (Function.update s.onWay near []) far []
      return ({ s with other := other, onWay := onWay }, [])
  | .ask e raw => .ok (s.send e (sendtoPeer raw ctypeGetdata [dtypeNode]), [])
  | .deliver e n net u fuel raw => do
      startConnection check
      let chunk := (s.onWay e).take (min n maxMsgSize)
      if chunk = [] then return (s, [])
      else
        let (s, outs) ← s.act env e.1 (.receive e.2 net u fuel chunk)
        let s := { s with
          onWay := Function.update s.onWay e ((s.onWay e).drop (min n maxMsgSize)) }
        let sent := outs.flatMap fun o => o.event.sent
        return (s.send e (sent.flatMap (wireBytes raw)), outs.map fun o => (e.1, o))
  | .hangUp e => do
      startConnection check
      let (s, _) ← s.act env e.1 (.hangUp e.2)
      return (s, [])

def swarmRun : List (SwarmEvent ι) → Swarm ι → Except Fault (Swarm ι × List (ι × Output)) :=
  collectState (swarmStep check env)

/-! ## What is on the way -/

/-- Every byte 1 is followed by a zero byte. So it is for every part of a stream that starts
anywhere and goes on to the end, and `recvfrom` may leave the zero byte for the next time. -/
def OneThenZero (w : Bytes) : Prop := ∀ k : ℕ, w[k]? = some 1 → w[k + 1]? = some 0

theorem oneThenZero_nil : OneThenZero [] := fun k hk => by simp at hk

theorem OneThenZero.drop {w : Bytes} (h : OneThenZero w) (n : ℕ) : OneThenZero (w.drop n) := by
  intro k hk
  rw [List.getElem?_drop] at hk ⊢
  exact h (n + k) hk

theorem OneThenZero.append {w w' : Bytes} (h : OneThenZero w) (h' : OneThenZero w') :
    OneThenZero (w ++ w') := by
  intro k hk
  rcases Nat.lt_or_ge k w.length with hlt | hge
  · rw [List.getElem?_append_left hlt] at hk
    have hzero := h k hk
    obtain ⟨hnext, -⟩ := List.getElem?_eq_some_iff.mp hzero
    rw [List.getElem?_append_left hnext]
    exact hzero
  · rw [List.getElem?_append_right hge] at hk
    rw [List.getElem?_append_right (Nat.le_succ_of_le hge), Nat.succ_sub hge]
    exact h' _ hk

theorem OneThenZero.flatMap {α : Type} {l : List α} {f : α → Bytes}
    (h : ∀ a ∈ l, OneThenZero (f a)) : OneThenZero (l.flatMap f) := by
  induction l with
  | nil => exact oneThenZero_nil
  | cons a rest ih =>
      obtain ⟨ha, hrest⟩ := List.forall_mem_cons.mp h
      exact ha.append (ih hrest)

/-- What `recvfrom` delivers of it shows no content type but that of a `<reject>`. -/
theorem OneThenZero.chunk {w : Bytes} (h : OneThenZero w) (n : ℕ)
    (hone : (w.take n)[1]? = some 1) : (w.take n)[2]?.getD 0 = 0 := by
  rw [List.getElem?_take] at hone ⊢
  split at hone
  · split
    · rw [h 1 hone]
      rfl
    · rfl
  · cases hone

theorem rejectReply_eq (resp : Mem) : rejectReply resp = .toPeer ctypeReject [1, 0, 0, 0, 0] := rfl

/-- The frames of a `<reject>` and of the question for nodes. -/
theorem oneThenZero_reject (raw : Mem) (resp : Mem) :
    OneThenZero (wireBytes raw (rejectReply resp)) := by
  rw [rejectReply_eq, wireBytes, sendtoPeer_eq]
  intro k hk
  match k with
  | 0 | 2 | 3 | 4 | 5 => simp at hk
  | 1 => rfl
  | k + 6 => simp at hk

theorem oneThenZero_ask (raw : Mem) : OneThenZero (sendtoPeer raw ctypeGetdata [dtypeNode]) := by
  rw [sendtoPeer_eq]
  intro k hk
  match k with
  | 0 | 1 => simp at hk
  | k + 2 => simp at hk

/-! ## One node -/

/-- The connections that are open have a `<reject>` in the place of the content type. -/
def LinksQuiet (n : NodeState) : Prop :=
  ∀ link ∈ n.links, link.isOpen = true → msgCtype link.msg = ctypeReject

/-- Nothing was done but to answer a wrong version, or to print that a `<reject>` came. -/
inductive Ignored : Event → Prop
  | rejected (resp : Mem) : Ignored (.rejected (rejectReply resp))
  | reject (chunk : Bytes) (dbs : Dbs) : Ignored (.handled ctypeReject chunk dbs [])

theorem Ignored.wire {event : Event} (h : Ignored event) (raw : Mem) :
    OneThenZero (event.sent.flatMap (wireBytes raw)) := by
  cases h with
  | rejected resp =>
      rw [Event.sent, List.flatMap_singleton]
      exact oneThenZero_reject raw resp
  | reject => exact oneThenZero_nil

/-- The buffer when the version is right: the content type is that of a `<reject>`, be it one
that has just come or one that was there. -/
theorem recvMsg_reject {env : Env .passed} {stale : Mem} {chunk : Bytes}
    (hstale : msgCtype stale = ctypeReject) (hfits : chunk.length ≤ maxMsgSize)
    (hchunk : chunk[1]? = some 1 → chunk[2]?.getD 0 = 0)
    (hversion : msgVersion env.host (recvMsg stale chunk) = clientVersion) :
    msgCtype (recvMsg stale chunk) = ctypeReject := by
  have hone := (version_bytes hversion).2
  have hbyte : ∀ i, recvMsg stale chunk i = chunk[i]?.getD (stale i) := by
    intro i
    rw [recvMsg, List.take_of_length_le hfits, Mem.load_apply]
  have hzero : stale 2 = 0 := hstale
  show recvMsg stale chunk 2 = 0
  rw [hbyte] at hone ⊢
  rw [hzero]
  cases hsecond : chunk[1]? with
  | none =>
      have hshort := List.getElem?_eq_none_iff.mp hsecond
      rw [List.getElem?_eq_none (Nat.le_succ_of_le hshort)]
      rfl
  | some b =>
      rw [hsecond] at hone hchunk
      exact hchunk (congrArg some hone)

/-- A step after which the node has the databases it had. -/
structure StaysQuiet (n n' : NodeState) (outs : List Output) : Prop where
  dbs : n'.dbs = n.dbs
  links : LinksQuiet n'
  ignored : ∀ o ∈ outs, Ignored o.event

section Node

variable {env : Env .passed} {n : NodeState} (hquiet : LinksQuiet n)

include hquiet

theorem nodeStep_connect_quiet {msg : Mem} (hmsg : msgCtype msg = ctypeReject) (resp : Mem) :
    ∃ n' outs, nodeStep env n (.connect msg resp) = .ok (n', outs) ∧ StaysQuiet n n' outs := by
  refine ⟨_, _, rfl, rfl, ?_, List.forall_mem_nil _⟩
  intro link hlink hopen
  rcases List.mem_append.mp hlink with hlink | hlink
  · exact hquiet link hlink hopen
  · rw [List.mem_singleton.mp hlink]
    exact hmsg

theorem nodeStep_hangUp_quiet (i : ℕ) :
    ∃ n' outs, nodeStep env n (.hangUp i) = .ok (n', outs) ∧ StaysQuiet n n' outs := by
  refine ⟨_, _, rfl, rfl, ?_, List.forall_mem_nil _⟩
  intro link hlink hopen
  obtain ⟨j, hj⟩ := List.mem_iff_getElem?.mp hlink
  rw [List.getElem?_modify] at hj
  obtain ⟨old, hold, heq⟩ := Option.map_eq_some_iff.mp hj
  split at heq
  · subst heq
    cases hopen
  · subst heq
    exact hquiet _ (List.mem_of_getElem? hold) hopen

/-- **A message** from another node of the kind is ignored, whatever part of it has come. -/
theorem nodeStep_receive_quiet (i : ℕ) (net : Net) (u : MsgMem) (fuel : ℕ) {chunk : Bytes}
    (hfits : chunk.length ≤ maxMsgSize) (hchunk : chunk[1]? = some 1 → chunk[2]?.getD 0 = 0) :
    ∃ n' outs, nodeStep env n (.receive i net u fuel chunk) = .ok (n', outs) ∧
      StaysQuiet n n' outs := by
  have hsame : StaysQuiet n n [] := ⟨rfl, hquiet, List.forall_mem_nil _⟩
  have hset : ∀ link : Link, (link.isOpen = true → msgCtype link.msg = ctypeReject) →
      LinksQuiet ⟨n.dbs, n.links.set i link⟩ := by
    intro link hlink link' hmem
    rcases List.mem_or_eq_of_mem_set hmem with hold | rfl
    · exact hquiet link' hold
    · exact hlink
  rw [nodeStep]
  cases hlink : n.links[i]? with
  | none => exact ⟨n, [], rfl, hsame⟩
  | some link =>
      cases hopen : link.isOpen with
      | false => exact ⟨n, [], by simp [hopen], hsame⟩
      | true =>
          have hstale := hquiet link (List.mem_of_getElem? hlink) hopen
          dsimp only
          rw [if_pos hopen, receivePass]
          by_cases hend : chunk = []
          · rw [if_pos hend]
            exact ⟨_, _, rfl, rfl, hset _ (fun hclosed => absurd hclosed Bool.false_ne_true),
              List.forall_mem_nil _⟩
          rw [if_neg hend]
          by_cases hversion : msgVersion env.host (recvMsg link.msg chunk) = clientVersion
          · have hreject := recvMsg_reject hstale hfits hchunk hversion
            have hmsg : handleMessage env net u fuel ⟨n.dbs, link.resp⟩ (recvMsg link.msg chunk) =
                .ok (⟨n.dbs, link.resp⟩, []) := by
              rw [handleMessage, hreject]
              rfl
            rw [if_pos hversion, hmsg, hreject]
            refine ⟨_, _, rfl, rfl, hset _ fun _ => hreject, ?_⟩
            intro o ho
            rw [List.mem_singleton.mp ho]
            exact .reject chunk n.dbs
          · rw [if_neg hversion]
            refine ⟨_, _, rfl, rfl, hset _ (fun hclosed => absurd hclosed Bool.false_ne_true), ?_⟩
            intro o ho
            rw [List.mem_singleton.mp ho]
            exact .rejected link.resp

end Node

/-! ## The network -/

/-- In every state that is reached: each node has the databases it had, and nothing is on the
way that would change them. -/
structure SwarmQuiet (dbs : ι → Dbs) (s : Swarm ι) : Prop where
  dbs : ∀ a, (s.nodes a).dbs = dbs a
  links : ∀ a, LinksQuiet (s.nodes a)
  onWay : ∀ e, OneThenZero (s.onWay e)

/-- In a buffer as `malloc` returned it, the byte of the content type is zero. -/
def SwarmEvent.FreshBuffers : SwarmEvent ι → Prop
  | .connect _ _ msg _ msg' _ => msgCtype msg = ctypeReject ∧ msgCtype msg' = ctypeReject
  | _ => True

section Steps

variable (env : ι → Env .passed) {dbs : ι → Dbs} {s : Swarm ι}

theorem SwarmQuiet.act (h : SwarmQuiet dbs s) {a : ι} {e : NodeEvent}
    (hstep : ∃ n' outs, nodeStep (env a) (s.nodes a) e = .ok (n', outs) ∧
      StaysQuiet (s.nodes a) n' outs) :
    ∃ s' outs, s.act env a e = .ok (s', outs) ∧ SwarmQuiet dbs s' ∧
      ∀ o ∈ outs, Ignored o.event := by
  obtain ⟨n', outs, hrun, hstays⟩ := hstep
  refine ⟨{ s with nodes := Function.update s.nodes a n' }, outs, ?_, ⟨?_, ?_, h.onWay⟩,
    hstays.ignored⟩
  · rw [Swarm.act, hrun]
    rfl
  · intro b
    show (Function.update s.nodes a n' b).dbs = dbs b
    rcases eq_or_ne b a with rfl | hne
    · rw [Function.update_self, hstays.dbs, h.dbs]
    · rw [Function.update_of_ne hne, h.dbs]
  · intro b
    show LinksQuiet (Function.update s.nodes a n' b)
    rcases eq_or_ne b a with rfl | hne
    · rw [Function.update_self]
      exact hstays.links
    · rw [Function.update_of_ne hne]
      exact h.links b

theorem OneThenZero.update {onWay : LinkEnd ι → Bytes} (h : ∀ e, OneThenZero (onWay e))
    (e : LinkEnd ι) {w : Bytes} (hw : OneThenZero w) :
    ∀ e', OneThenZero (Function.update onWay e w e') := by
  intro e'
  rcases eq_or_ne e' e with rfl | hne
  · rwa [Function.update_self]
  · rw [Function.update_of_ne hne]
    exact h e'

theorem SwarmQuiet.send (h : SwarmQuiet dbs s) (e : LinkEnd ι) {bytes : Bytes}
    (hbytes : OneThenZero bytes) : SwarmQuiet dbs (s.send e bytes) :=
  ⟨h.dbs, h.links, OneThenZero.update h.onWay _ ((h.onWay _).append hbytes)⟩

/-- **Step.** -/
theorem swarmStep_quiet (h : SwarmQuiet dbs s) {e : SwarmEvent ι} (hfresh : e.FreshBuffers) :
    ∃ s' outs, swarmStep .meant env s e = .ok (s', outs) ∧ SwarmQuiet dbs s' ∧
      ∀ o ∈ outs, Ignored o.2.event := by
  have hnone : ∀ o ∈ ([] : List (ι × Output)), Ignored o.2.event := List.forall_mem_nil _
  cases e with
  | connect a b msg resp msg' resp' =>
      obtain ⟨s₁, outs₁, hact₁, h₁, -⟩ := h.act env
        (nodeStep_connect_quiet (h.links a) hfresh.1 resp)
      obtain ⟨s₂, outs₂, hact₂, h₂, -⟩ := h₁.act env
        (nodeStep_connect_quiet (h₁.links b) hfresh.2 resp')
      rw [swarmStep, hact₁]
      dsimp only [bind, Except.bind]
      rw [hact₂]
      refine ⟨_, _, rfl, ⟨h₂.dbs, h₂.links, ?_⟩, hnone⟩
      exact OneThenZero.update (OneThenZero.update h₂.onWay _ oneThenZero_nil) _ oneThenZero_nil
  | ask e raw => exact ⟨_, _, rfl, h.send e (oneThenZero_ask raw), hnone⟩
  | deliver e n net u fuel raw =>
      have hfits : ((s.onWay e).take (min n maxMsgSize)).length ≤ maxMsgSize :=
        (List.length_take_le _ _).trans (Nat.min_le_right n maxMsgSize)
      obtain ⟨s₁, outs, hact, h₁, hignored⟩ := h.act env
        (nodeStep_receive_quiet (h.links e.1) e.2 net u fuel hfits ((h.onWay e).chunk _))
      rw [swarmStep]
      dsimp only [startConnection, bind, Except.bind]
      split
      · exact ⟨s, [], rfl, h, hnone⟩
      · rw [hact]
        have hwire : OneThenZero
            ((outs.flatMap fun o => o.event.sent).flatMap (wireBytes raw)) := by
          rw [List.flatMap_assoc]
          exact .flatMap fun o ho => (hignored o ho).wire raw
        have hreceived : SwarmQuiet dbs { s₁ with
            onWay := Function.update s₁.onWay e ((s₁.onWay e).drop (min n maxMsgSize)) } :=
          ⟨h₁.dbs, h₁.links, OneThenZero.update h₁.onWay e ((h₁.onWay e).drop _)⟩
        refine ⟨_, _, rfl, hreceived.send e hwire, ?_⟩
        intro o ho
        obtain ⟨out, hout, rfl⟩ := List.mem_map.mp ho
        exact hignored out hout
  | hangUp e =>
      obtain ⟨s₁, outs, hact, h₁, -⟩ := h.act env
        (nodeStep_hangUp_quiet (h.links e.1) e.2)
      rw [swarmStep, hact]
      exact ⟨_, _, rfl, h₁, hnone⟩

end Steps

/-! ### As it is written -/

/-- A thread of a connection gets to its `recvfrom`. -/
def SwarmEvent.Receives : SwarmEvent ι → Prop
  | .deliver _ _ _ _ _ _ | .hangUp _ => True
  | _ => False

section Written

variable {env : ι → Env .passed} {s s' : Swarm ι}

/-- A step of one node that leaves its databases alone. -/
theorem Swarm.act_dbs {a : ι} {e : NodeEvent} {outs : List Output}
    (h : s.act env a e = .ok (s', outs))
    (hsame : ∀ n' outs, nodeStep (env a) (s.nodes a) e = .ok (n', outs) →
      n'.dbs = (s.nodes a).dbs) (b : ι) :
    (s'.nodes b).dbs = (s.nodes b).dbs := by
  obtain ⟨⟨n', outs'⟩, hstep, hret⟩ := ok_of_bind h
  cases hret
  show (Function.update s.nodes a n' b).dbs = _
  rcases eq_or_ne b a with rfl | hne
  · rw [Function.update_self]
    exact hsame _ _ hstep
  · rw [Function.update_of_ne hne]

theorem Swarm.act_connect_dbs {a : ι} {msg resp : Mem} {outs : List Output}
    (h : s.act env a (.connect msg resp) = .ok (s', outs)) (b : ι) :
    (s'.nodes b).dbs = (s.nodes b).dbs :=
  Swarm.act_dbs h (fun n' outs hstep => by cases hstep; rfl) b

/-- What a run has done that is still going on: nothing that can be seen. -/
structure NothingYet (events : List (SwarmEvent ι)) (s s' : Swarm ι)
    (outs : List (ι × Output)) : Prop where
  events : ∀ e ∈ events, ¬ e.Receives
  dbs : ∀ a, (s'.nodes a).dbs = (s.nodes a).dbs
  outs : outs = []

theorem swarmStep_written {e : SwarmEvent ι} {outs : List (ι × Output)}
    (h : swarmStep .written env s e = .ok (s', outs)) : NothingYet [e] s s' outs := by
  have hnone : ¬ e.Receives → ∀ e' ∈ [e], ¬ e'.Receives := by
    intro he e' he'
    rwa [List.mem_singleton.mp he']
  cases e with
  | deliver e n net u fuel raw => cases h
  | ask e raw =>
      cases h
      exact ⟨hnone id, fun _ => rfl, rfl⟩
  | hangUp e => cases h
  | connect a b msg resp msg' resp' =>
      obtain ⟨⟨s₁, outs₁⟩, hact₁, h⟩ := ok_of_bind h
      obtain ⟨⟨s₂, outs₂⟩, hact₂, hret⟩ := ok_of_bind h
      cases hret
      refine ⟨hnone id, fun c => ?_, rfl⟩
      exact (Swarm.act_connect_dbs hact₂ c).trans (Swarm.act_connect_dbs hact₁ c)

theorem swarmRun_written {events : List (SwarmEvent ι)} {outs : List (ι × Output)}
    (h : swarmRun .written env events s = .ok (s', outs)) : NothingYet events s s' outs := by
  induction events generalizing s outs with
  | nil =>
      cases h
      exact ⟨List.forall_mem_nil _, fun _ => rfl, rfl⟩
  | cons e rest ih =>
      obtain ⟨⟨s₁, first⟩, hstep, h⟩ := ok_of_bind h
      obtain ⟨⟨s₂, later⟩, hlater, hret⟩ := ok_of_bind h
      cases hret
      obtain ⟨hevent, hdbs, rfl⟩ := swarmStep_written hstep
      obtain ⟨hevents, hdbs', rfl⟩ := ih hlater
      exact ⟨List.forall_mem_cons.mpr ⟨hevent e List.mem_cons_self, hevents⟩,
        fun a => (hdbs' a).trans (hdbs a), rfl⟩

end Written

end Freecoin
