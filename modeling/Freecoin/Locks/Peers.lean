import Freecoin.Lib.Mutex
import Freecoin.Lib.Run
import Freecoin.Network.Connection

/-!
# network.c: who holds `peers_mutex`

The thread of `join_network`, the listener it starts and the threads that handle
connections, a statement at a time as far as the mutex is concerned. The `break` of the
first loop of `join_network` stands between the lock and the unlock, so the loop is left
with the mutex, and the lock of the second loop is never got. From then on no connection
can handle a block or a request for nodes; up to then each of them can.

A `fatal` ends the process, and a run with it. What is said of connections up to their last
section takes `network.c` 78 and 79 as they were meant; see `RespCheck`. The mutex is a
default one, whose owner waits for itself if it locks it again.
-/

namespace Freecoin.Locks

open Lib

/-! ## The threads -/

inductive NetThread : Type where
  | join
  | listener
  | handler (i : ℕ)
deriving DecidableEq

/-- The next statement of `join_network`. -/
inductive JoinPc : Type where
  /-- The first loop. -/
  | lock
  | test
  | connect
  | count
  | unlock
  /-- Between the loops. -/
  | sendGetdata
  | createListener
  /-- The second loop. -/
  | waitLock
  | waitTest
  | waitSleep
  | waitUnlock
deriving DecidableEq

/-- The next statement of `server_listener`. -/
inductive ListenerPc : Type where
  | notStarted
  | socket
  | bind
  | listen
  | ready
  | accept
deriving DecidableEq

/-- Where `handle_connection` is: it takes the mutex for a request for nodes and for a
block. -/
inductive HandlerPc : Type where
  | receive
  | lock
  | locked
  | closed
deriving DecidableEq

structure NetState : Type where
  join : JoinPc
  listener : ListenerPc
  handlers : List HandlerPc
  owner : Option NetThread
  peersCount : UInt32
  /-- `peers[0]->connfd`. -/
  connfd : Int32
  serverReady : UInt32
deriving DecidableEq

/-- The memory that `malloc` returns to `join_network`. -/
structure JoinMem : Type where
  peersCount : UInt32
  connfd : Int32

/-- `join_network` at its first loop: neither field has been set. -/
def joinStart (u : JoinMem) : NetState :=
  ⟨.lock, .notStarted, [], none, u.peersCount, u.connfd, 0⟩

/-- What happens next. -/
inductive NetEvent : Type where
  /-- The next statement of `join_network`, other than an attempt to connect. -/
  | join
  /-- An attempt: nothing sets `peers[0]->connfd`, but what is typed in may run over it.
  A connection that is made has a thread of its own. -/
  | connect (connfd : Int32) (started : Bool)
  /-- The next statement of `server_listener`. -/
  | listener
  /-- The thread receives a message for which it takes the mutex. -/
  | message (i : ℕ)
  /-- The loop of the thread ends. -/
  | close (i : ℕ)
  /-- The next statement of a thread that has received such a message. -/
  | handler (i : ℕ)
deriving DecidableEq

/-- `pthread_mutex_lock(&network->peers_mutex)`, if it returns. -/
def lockPeers (s : NetState) (t : NetThread) : Option NetState :=
  if s.owner = none then some { s with owner := some t } else none

/-- `pthread_mutex_unlock(&network->peers_mutex)`. -/
def unlockPeers (s : NetState) : NetState := { s with owner := none }

/-- `join_network`, but for the attempts to connect. -/
def joinNetwork (s : NetState) : Option NetState :=
  match s.join with
  | .lock => (lockPeers s .join).map fun s => { s with join := .test }
  | .test => some { s with join := if 0 < s.peersCount then .sendGetdata else .connect }
  | .connect => none
  | .count =>
      let peersCount := if 0 < s.connfd then s.peersCount + 1 else s.peersCount
      some { s with join := .unlock, peersCount := peersCount }
  | .unlock => some { unlockPeers s with join := .lock }
  | .sendGetdata => some { s with join := .createListener }
  | .createListener => some { s with join := .waitLock, listener := .socket }
  | .waitLock => (lockPeers s .join).map fun s => { s with join := .waitTest }
  | .waitTest => some { s with join := if s.serverReady ≠ 1 then .waitSleep else .waitUnlock }
  | .waitSleep => some { s with join := .waitUnlock }
  | .waitUnlock => some { unlockPeers s with join := .waitLock }

/-- `data_nodes_get_initial`, the question for a node, and `start_client_conn`. -/
def startClientConn (connfd : Int32) (started : Bool) (s : NetState) : Option NetState :=
  match s.join with
  | .connect =>
      let handlers := if started then s.handlers ++ [.receive] else s.handlers
      some { s with join := .count, connfd := connfd, handlers := handlers }
  | _ => none

/-- `server_listener`. -/
def serverListener (s : NetState) : Option NetState :=
  match s.listener with
  | .notStarted => none
  | .socket => some { s with listener := .bind }
  | .bind => some { s with listener := .listen }
  | .listen => some { s with listener := .ready }
  | .ready => some { s with listener := .accept, serverReady := 1 }
  | .accept => some { s with handlers := s.handlers ++ [.receive] }

/-- A thread that waits for a message gets one, or ends. -/
def receiveMsg (i : ℕ) (next : HandlerPc) (s : NetState) : Option NetState :=
  if s.handlers[i]? = some .receive then some { s with handlers := s.handlers.set i next }
  else none

/-- The branches of `handle_connection` that take the mutex. -/
def handleLocked (i : ℕ) (s : NetState) : Option NetState :=
  match s.handlers[i]? with
  | some .lock =>
      (lockPeers s (.handler i)).map fun s => { s with handlers := s.handlers.set i .locked }
  | some .locked => some { unlockPeers s with handlers := s.handlers.set i .receive }
  | _ => none

def netStep (s : NetState) : NetEvent → Option NetState
  | .join => joinNetwork s
  | .connect connfd started => startClientConn connfd started s
  | .listener => serverListener s
  | .message i => receiveMsg i .lock s
  | .close i => receiveMsg i .closed s
  | .handler i => handleLocked i s

/-- A run, if it can go on to its end. -/
def netRun (events : List NetEvent) (s : NetState) : Option NetState := events.foldlM netStep s

/-! ## Who holds the mutex -/

/-- The thread is at a lock of the mutex. -/
def NetState.AtLock (s : NetState) : NetThread → Prop
  | .join => s.join = .lock ∨ s.join = .waitLock
  | .listener => False
  | .handler i => s.handlers[i]? = some .lock

/-- The thread is where it holds the mutex. `join_network` does so everywhere but at the lock
of its first loop, since it is left with the mutex. -/
def NetState.Holds (s : NetState) : NetThread → Prop
  | .join => s.join ≠ .lock
  | .listener => False
  | .handler i => s.handlers[i]? = some .locked

/-- The first loop has been left. -/
def JoinPc.Left (pc : JoinPc) : Prop :=
  pc = .sendGetdata ∨ pc = .createListener ∨ pc = .waitLock

/-- In every state that is reached: the mutex is with the thread that holds it, and
`join_network` has not got past the lock of its second loop. -/
structure NetInv (s : NetState) : Prop where
  held : HeldBy s.owner s.Holds
  waits : s.join ≠ .waitTest ∧ s.join ≠ .waitSleep ∧ s.join ≠ .waitUnlock

section Steps

variable {s s' : NetState}

theorem lockPeers_eq_some {t : NetThread} (h : lockPeers s t = some s') :
    s.owner = none ∧ s' = { s with owner := some t } := by
  rw [lockPeers] at h
  split at h
  · next hfree => exact ⟨hfree, (Option.some_inj.mp h).symm⟩
  · cases h

/-- The connections hold the mutex as before. -/
def SameHandlers (s s' : NetState) : Prop :=
  ∀ i : ℕ, s'.handlers[i]? = some .locked ↔ s.handlers[i]? = some .locked

/-- A new thread waits for a message. -/
theorem locked_append (handlers : List HandlerPc) (i : ℕ) :
    (handlers ++ [.receive])[i]? = some .locked ↔ handlers[i]? = some .locked := by
  rw [List.getElem?_append]
  split
  · exact Iff.rfl
  · next hi =>
      rw [List.getElem?_eq_none (Nat.le_of_not_lt hi)]
      apply iff_of_false
      · intro h
        cases List.mem_singleton.mp (List.mem_of_getElem? h)
      · exact fun h => Option.some_ne_none _ h.symm

theorem locked_set {handlers : List HandlerPc} {i : ℕ} {old new : HandlerPc}
    (hi : handlers[i]? = some old) (j : ℕ) :
    (handlers.set i new)[j]? = some .locked ↔
      if j = i then new = .locked else handlers[j]? = some .locked := by
  by_cases hj : j = i
  · subst hj
    obtain ⟨hlt, -⟩ := List.getElem?_eq_some_iff.mp hi
    rw [if_pos rfl, List.getElem?_set_self hlt, Option.some_inj]
  · rw [if_neg hj, List.getElem?_set_ne (Ne.symm hj)]

/-- What the next statement of `join_network` does, as far as the thread gets. -/
inductive JoinStep (s : NetState) : NetState → Prop where
  | lock (hpc : s.join = .lock) (hfree : s.owner = none) :
      JoinStep s { s with join := .test, owner := some .join }
  | leave (hpc : s.join = .test) (hpeers : 0 < s.peersCount) :
      JoinStep s { s with join := .sendGetdata }
  | again (hpc : s.join = .test) (hpeers : ¬ 0 < s.peersCount) :
      JoinStep s { s with join := .connect }
  | count (hpc : s.join = .count) :
      JoinStep s { s with
        join := .unlock
        peersCount := if 0 < s.connfd then s.peersCount + 1 else s.peersCount }
  | unlock (hpc : s.join = .unlock) : JoinStep s { s with join := .lock, owner := none }
  | sendGetdata (hpc : s.join = .sendGetdata) : JoinStep s { s with join := .createListener }
  | createListener (hpc : s.join = .createListener) :
      JoinStep s { s with join := .waitLock, listener := .socket }

/-- The lock of the second loop does not return: the mutex is with the thread itself. -/
theorem joinNetwork_cases (h : NetInv s) (hstep : joinNetwork s = some s') : JoinStep s s' := by
  rw [joinNetwork] at hstep
  cases hpc : s.join <;> rw [hpc] at hstep
  case lock =>
    obtain ⟨r, hlock, rfl⟩ := Option.map_eq_some_iff.mp hstep
    obtain ⟨hfree, rfl⟩ := lockPeers_eq_some hlock
    exact .lock hpc hfree
  case test =>
    cases hstep
    by_cases hpeers : 0 < s.peersCount
    · simp only [if_pos hpeers]
      exact .leave hpc hpeers
    · simp only [if_neg hpeers]
      exact .again hpc hpeers
  case connect => cases hstep
  case count =>
    cases hstep
    exact .count hpc
  case unlock =>
    cases hstep
    exact .unlock hpc
  case sendGetdata =>
    cases hstep
    exact .sendGetdata hpc
  case createListener =>
    cases hstep
    exact .createListener hpc
  case waitLock =>
    obtain ⟨r, hlock, -⟩ := Option.map_eq_some_iff.mp hstep
    have howner : s.owner = some .join := (h.held .join).mpr (by simp [NetState.Holds, hpc])
    exact absurd ((lockPeers_eq_some hlock).1.symm.trans howner) (by simp)
  case waitTest => exact absurd hpc h.waits.1
  case waitSleep => exact absurd hpc h.waits.2.1
  case waitUnlock => exact absurd hpc h.waits.2.2

/-- A step of `join_network` that is neither a lock nor an unlock. -/
theorem NetInv.join_moves (h : NetInv s) (howner : s'.owner = s.owner)
    (hhandlers : s'.handlers = s.handlers) (hpc : s.join ≠ .lock) (hpc' : s'.join ≠ .lock) :
    HeldBy s'.owner s'.Holds := by
  rw [howner]
  apply h.held.other
  intro t
  cases t with
  | join => exact iff_of_true hpc' hpc
  | listener => exact Iff.rfl
  | handler i => rw [NetState.Holds, NetState.Holds, hhandlers]

/-- A step of another thread that is neither. -/
theorem NetInv.other_moves (h : NetInv s) (howner : s'.owner = s.owner) (hpc : s'.join = s.join)
    (hsame : SameHandlers s s') : NetInv s' := by
  constructor
  · rw [howner]
    apply h.held.other
    intro t
    cases t with
    | join => rw [NetState.Holds, NetState.Holds, hpc]
    | listener => exact Iff.rfl
    | handler i => exact hsame i
  · rw [hpc]
    exact h.waits

/-- **A step of `join_network`**, a lock, an unlock or neither. -/
theorem joinNetwork_inv (h : NetInv s) (hstep : joinNetwork s = some s') : NetInv s' := by
  cases joinNetwork_cases h hstep with
  | lock hpc hfree =>
      refine ⟨?_, by simp⟩
      have hheld := h.held
      rw [hfree] at hheld
      apply hheld.lock
      intro t
      cases t <;> simp [NetState.Holds]
  | unlock hpc =>
      refine ⟨?_, by simp⟩
      have hjoin : s.Holds .join := by simp [NetState.Holds, hpc]
      apply h.held.unlock hjoin
      intro t
      cases t <;> simp [NetState.Holds]
  | leave hpc | again hpc | count hpc | sendGetdata hpc | createListener hpc =>
      exact ⟨h.join_moves rfl rfl (by simp [hpc]) (by simp), by simp⟩

theorem startClientConn_inv {connfd : Int32} {started : Bool} (h : NetInv s)
    (hstep : startClientConn connfd started s = some s') : NetInv s' := by
  rw [startClientConn] at hstep
  split at hstep
  · next hpc =>
      cases hstep
      refine ⟨h.held.other ?_, by simp⟩
      intro t
      cases t with
      | join => simp [NetState.Holds, hpc]
      | listener => exact Iff.rfl
      | handler i =>
          simp only [NetState.Holds]
          split
          · exact locked_append s.handlers i
          · exact Iff.rfl
  · cases hstep

theorem serverListener_inv (h : NetInv s) (hstep : serverListener s = some s') : NetInv s' := by
  rw [serverListener] at hstep
  cases hpc : s.listener <;> rw [hpc] at hstep <;> cases hstep
  case accept => exact h.other_moves rfl rfl (locked_append s.handlers)
  all_goals exact h.other_moves rfl rfl fun _ => Iff.rfl

theorem receiveMsg_inv {i : ℕ} {next : HandlerPc} (hnext : next ≠ .locked) (h : NetInv s)
    (hstep : receiveMsg i next s = some s') : NetInv s' := by
  rw [receiveMsg] at hstep
  split at hstep
  · next hi =>
      cases hstep
      refine h.other_moves rfl rfl ?_
      intro j
      rw [locked_set hi]
      split
      · next hj =>
          subst hj
          rw [hi]
          simpa using hnext
      · exact Iff.rfl
  · cases hstep

theorem handleLocked_inv {i : ℕ} (h : NetInv s) (hstep : handleLocked i s = some s') :
    NetInv s' := by
  rw [handleLocked] at hstep
  split at hstep
  · next hi =>
      obtain ⟨r, hlock, rfl⟩ := Option.map_eq_some_iff.mp hstep
      obtain ⟨hfree, rfl⟩ := lockPeers_eq_some hlock
      refine ⟨?_, h.waits⟩
      have hheld := h.held
      rw [hfree] at hheld
      apply hheld.lock
      intro t
      cases t with
      | join => simp [NetState.Holds]
      | listener => simp [NetState.Holds]
      | handler j =>
          simp only [NetState.Holds, locked_set hi, NetThread.handler.injEq]
          by_cases hj : j = i <;> simp [hj]
  · next hi =>
      cases hstep
      refine ⟨?_, h.waits⟩
      have hhandler : s.Holds (.handler i) := hi
      apply h.held.unlock hhandler
      intro t
      cases t with
      | join => simp [NetState.Holds, unlockPeers]
      | listener => simp [NetState.Holds]
      | handler j =>
          simp only [NetState.Holds, locked_set hi, Ne, NetThread.handler.injEq]
          by_cases hj : j = i <;> simp [hj]
  · cases hstep

/-- **Step.** -/
theorem netStep_inv {m : NetEvent} (h : NetInv s) (hstep : netStep s m = some s') :
    NetInv s' := by
  cases m with
  | join => exact joinNetwork_inv h hstep
  | connect connfd started => exact startClientConn_inv h hstep
  | listener => exact serverListener_inv h hstep
  | message i => exact receiveMsg_inv (by simp) h hstep
  | close i => exact receiveMsg_inv (by simp) h hstep
  | handler i => exact handleLocked_inv h hstep

/-- What a step leaves alone that is not one of `join_network`. -/
structure JoinFrame (s s' : NetState) : Prop where
  join : s'.join = s.join
  peersCount : s'.peersCount = s.peersCount
  connfd : s'.connfd = s.connfd

/-- Another thread leaves `join_network` where it is, and an attempt to connect takes it to the
statement behind. -/
theorem otherStep {m : NetEvent} (hm : m ≠ .join) (hstep : netStep s m = some s') :
    JoinFrame s s' ∨ ∃ connfd started, m = .connect connfd started ∧ s.join = .connect ∧
      s'.join = .count ∧ s'.peersCount = s.peersCount ∧ s'.connfd = connfd := by
  cases m with
  | join => exact absurd rfl hm
  | connect connfd started =>
      rw [netStep, startClientConn] at hstep
      split at hstep
      · next hpc =>
          cases hstep
          exact .inr ⟨connfd, started, rfl, hpc, rfl, rfl, rfl⟩
      · cases hstep
  | listener =>
      rw [netStep, serverListener] at hstep
      split at hstep <;> cases hstep <;> exact .inl ⟨rfl, rfl, rfl⟩
  | message i | close i =>
      rw [netStep, receiveMsg] at hstep
      split at hstep <;> cases hstep
      exact .inl ⟨rfl, rfl, rfl⟩
  | handler i =>
      rw [netStep, handleLocked] at hstep
      split at hstep
      · obtain ⟨r, hlock, rfl⟩ := Option.map_eq_some_iff.mp hstep
        obtain ⟨-, rfl⟩ := lockPeers_eq_some hlock
        exact .inl ⟨rfl, rfl, rfl⟩
      · cases hstep
        exact .inl ⟨rfl, rfl, rfl⟩
      · cases hstep

/-- The loop is left at its test, if there are peers. -/
theorem netStep_stays {m : NetEvent} (h : NetInv s) (hstep : netStep s m = some s')
    (hloop : ¬ s.join.Left) (htest : m = .join → s.join = .test → s.peersCount = 0) :
    ¬ s'.join.Left := by
  by_cases hm : m = .join
  · subst hm
    cases joinNetwork_cases h hstep with
    | leave hpc hpeers =>
        rw [htest rfl hpc] at hpeers
        exact absurd hpeers (by decide)
    | lock hpc | again hpc | count hpc | unlock hpc => simp [JoinPc.Left]
    | sendGetdata hpc => exact absurd (.inl hpc) hloop
    | createListener hpc => exact absurd (.inr (.inl hpc)) hloop
  · rcases otherStep hm hstep with hframe | ⟨-, -, -, -, hpc, -⟩
    · rw [hframe.join]
      exact hloop
    · rw [hpc]
      simp [JoinPc.Left]

/-- Behind the loop, `join_network` gets to the lock of the second one and no further. -/
theorem netStep_left {m : NetEvent} (h : NetInv s) (hstep : netStep s m = some s')
    (hleft : s.join.Left) : s'.join.Left := by
  by_cases hm : m = .join
  · subst hm
    cases joinNetwork_cases h hstep with
    | leave hpc => exact .inl rfl
    | sendGetdata hpc => exact .inr (.inl rfl)
    | createListener hpc => exact .inr (.inr rfl)
    | lock hpc | again hpc | count hpc | unlock hpc => simp [JoinPc.Left, hpc] at hleft
  · rcases otherStep hm hstep with hframe | ⟨-, -, -, hconnect, -⟩
    · rw [hframe.join]
      exact hleft
    · rw [hconnect] at hleft
      simp [JoinPc.Left] at hleft

/-- No peer so far, and none by the attempt that has just been made. -/
structure NoPeer (s : NetState) : Prop where
  peersCount : s.peersCount = 0
  connfd : s.join = .count → ¬ 0 < s.connfd

theorem netStep_noPeer {m : NetEvent} (hinv : NetInv s) (hstep : netStep s m = some s')
    (h : NoPeer s) (hfailed : ∀ connfd started, m = .connect connfd started → ¬ 0 < connfd) :
    NoPeer s' := by
  by_cases hm : m = .join
  · subst hm
    cases joinNetwork_cases hinv hstep with
    | count hpc =>
        refine ⟨?_, by simp⟩
        show (if 0 < s.connfd then s.peersCount + 1 else s.peersCount) = 0
        rw [if_neg (h.connfd hpc), h.peersCount]
    | lock | leave | again | unlock | sendGetdata | createListener =>
        exact ⟨h.peersCount, by simp⟩
  · rcases otherStep hm hstep with hframe | ⟨connfd, started, rfl, -, -, hcount, hconnfd⟩
    · refine ⟨hframe.peersCount.trans h.peersCount, ?_⟩
      rw [hframe.join, hframe.connfd]
      exact h.connfd
    · refine ⟨hcount.trans h.peersCount, ?_⟩
      rw [hconnfd]
      exact fun _ => hfailed connfd started rfl

end Steps

/-! ## Runs -/

section Runs

variable {s s' : NetState} {events : List NetEvent}

/-- What every step preserves holds at the end of a run. -/
theorem netRun_invariant {P : NetState → Prop}
    (hstep : ∀ s s' m, netStep s m = some s' → P s → P s') (hrun : netRun events s = some s')
    (hs : P s) : P s' := by
  induction events generalizing s with
  | nil =>
      cases hrun
      exact hs
  | cons m rest ih =>
      obtain ⟨r, hfirst, hrest⟩ := Option.bind_eq_some_iff.mp hrun
      exact ih hrest (hstep s r m hfirst hs)

theorem netRun_snoc {m : NetEvent} (hrun : netRun (events ++ [m]) s = some s') :
    ∃ r, netRun events s = some r ∧ netStep r m = some s' := by
  rw [netRun, List.foldlM_append] at hrun
  obtain ⟨r, hfirst, hlast⟩ := Option.bind_eq_some_iff.mp hrun
  obtain ⟨r', hstep, hnil⟩ := Option.bind_eq_some_iff.mp hlast
  cases hnil
  exact ⟨r, hfirst, hstep⟩

theorem joinStart_inv (u : JoinMem) : NetInv (joinStart u) := by
  refine ⟨?_, by simp [joinStart]⟩
  intro t
  cases t <;> simp [joinStart, NetState.Holds]

theorem netRun_inv {u : JoinMem} (hrun : netRun events (joinStart u) = some s) : NetInv s :=
  netRun_invariant (fun _ _ _ hstep h => netStep_inv h hstep) hrun (joinStart_inv u)

/-- **Behind its first loop** `join_network` keeps the mutex for good: no other thread
gets it again, and neither does the second loop. -/
theorem netRun_left (h : NetInv s) (hleft : s.join.Left) (hrun : netRun events s = some s') :
    s'.join.Left ∧ s'.owner = some .join := by
  have hboth : NetInv s' ∧ s'.join.Left := by
    apply netRun_invariant (P := fun r => NetInv r ∧ r.join.Left) _ hrun ⟨h, hleft⟩
    intro r r' m hstep hr
    exact ⟨netStep_inv hr.1 hstep, netStep_left hr.1 hstep hr.2⟩
  refine ⟨hboth.2, (hboth.1.held .join).mpr ?_⟩
  intro hpc
  have hlock := hboth.2
  rw [hpc] at hlock
  simp [JoinPc.Left] at hlock

end Runs

/-- No thread is about to lock the mutex while it holds it, and `join_network` does not
hold it when it has just left its first loop. -/
structure SafelyLocked (s : NetState) : Prop where
  lock : ∀ t, s.AtLock t → s.owner ≠ some t
  leave : s.join = .sendGetdata → s.owner ≠ some .join

/-- So it is in every state of a run. -/
def NoSelfDeadlock (u : JoinMem) (events : List NetEvent) : Prop :=
  ∀ p, p <+: events → ∀ s, netRun p (joinStart u) = some s → SafelyLocked s

/-- Each time the run gets to the test of the first loop, there are no peers. -/
def NeverConnected (u : JoinMem) (events : List NetEvent) : Prop :=
  ∀ before, before ++ [.join] <+: events → ∀ s, netRun before (joinStart u) = some s →
    s.join = .test → s.peersCount = 0

theorem NetInv.safelyLocked {s : NetState} (h : NetInv s) (hloop : ¬ s.join.Left) :
    SafelyLocked s := by
  constructor
  · intro t hlock howner
    have hholds := (h.held t).mp howner
    cases t with
    | join =>
        rcases hlock with hpc | hpc
        · exact hholds hpc
        · exact hloop (.inr (.inr hpc))
    | listener => exact hlock
    | handler i =>
        have hpcs := hlock.symm.trans hholds
        simp at hpcs
  · intro hpc
    exact absurd (.inl hpc) hloop

/-- While there are no peers, `join_network` is in its first loop. -/
theorem NeverConnected.in_loop {u : JoinMem} {events : List NetEvent}
    (h : NeverConnected u events) : ∀ p, p <+: events → ∀ s, netRun p (joinStart u) = some s →
      ¬ s.join.Left := by
  intro p
  induction p using List.reverseRecOn with
  | nil =>
      intro _ s hrun
      cases hrun
      simp [joinStart, JoinPc.Left]
  | append_singleton p m ih =>
      intro hpre s' hrun
      obtain ⟨s, hbefore, hstep⟩ := netRun_snoc hrun
      have hloop := ih ((List.prefix_append p [m]).trans hpre) s hbefore
      apply netStep_stays (netRun_inv hbefore) hstep hloop
      rintro rfl htest
      exact h p hpre s hbefore htest

/-- It is so while the memory of the count happened to be zero and every attempt fails. -/
theorem neverConnected_of_failed {u : JoinMem} {events : List NetEvent}
    (hzero : u.peersCount = 0)
    (hfailed : ∀ connfd started, .connect connfd started ∈ events → ¬ 0 < connfd) :
    NeverConnected u events := by
  have hnone : ∀ p, p <+: events → ∀ s, netRun p (joinStart u) = some s → NoPeer s := by
    intro p
    induction p using List.reverseRecOn with
    | nil =>
        intro _ s hrun
        cases hrun
        exact ⟨hzero, by simp [joinStart]⟩
    | append_singleton p m ih =>
        intro hpre s' hrun
        obtain ⟨s, hbefore, hstep⟩ := netRun_snoc hrun
        have hs := ih ((List.prefix_append p [m]).trans hpre) s hbefore
        apply netStep_noPeer (netRun_inv hbefore) hstep hs
        rintro connfd started rfl
        exact hfailed connfd started (hpre.subset (by simp))
  intro before hpre s hbefore _
  exact (hnone before ((List.prefix_append before [.join]).trans hpre) s hbefore).peersCount

/-- A test that finds a peer leaves the loop with the mutex. -/
theorem NoSelfDeadlock.neverConnected {u : JoinMem} {events : List NetEvent}
    (h : NoSelfDeadlock u events) : NeverConnected u events := by
  intro before hpre s hbefore htest
  by_contra hpeers
  have hpos : 0 < s.peersCount := UInt32.pos_iff_ne_zero.mpr hpeers
  have hstep : netStep s .join = some { s with join := .sendGetdata } := by
    rw [netStep, joinNetwork, htest]
    simp [hpos]
  have hrun : netRun (before ++ [.join]) (joinStart u) = some { s with join := .sendGetdata } := by
    rw [netRun, List.foldlM_append]
    exact Option.bind_eq_some_iff.mpr ⟨s, hbefore, by simpa using hstep⟩
  have hheld := (netRun_inv hrun).held
  exact (h _ hpre _ hrun).leave rfl ((hheld .join).mpr (by simp [NetState.Holds]))

/-- **The mutex of the peers.** No thread of a run waits for itself, and `join_network` does
not leave its first loop with the mutex, if and only if it does not leave the loop. -/
theorem noSelfDeadlock_iff (u : JoinMem) (events : List NetEvent) :
    NoSelfDeadlock u events ↔ NeverConnected u events := by
  constructor
  · exact NoSelfDeadlock.neverConnected
  · intro h p hpre s hrun
    exact (netRun_inv hrun).safelyLocked (h.in_loop p hpre s hrun)

/-- An attempt to connect that fails, and one that does not. -/
def connectTwice : List NetEvent :=
  [.join, .join, .connect (-1) false, .join, .join, .join, .join, .connect 3 true,
    .join, .join, .join]

/-- After the second one, `join_network` gets to a lock of the mutex that it holds. -/
theorem join_locks_itself :
    (∃ s, netRun (connectTwice ++ [.join, .join, .join]) (joinStart ⟨0, 0⟩) = some s ∧
      s.AtLock .join ∧ s.owner = some .join) ∧
    ¬ ∀ (u : JoinMem) (events : List NetEvent), NoSelfDeadlock u events := by
  refine ⟨⟨_, rfl, .inr rfl, rfl⟩, ?_⟩
  intro hall
  have hconnected := (hall ⟨0, 0⟩ (connectTwice ++ [.join])).neverConnected
  have hzero := hconnected connectTwice (List.prefix_refl _) _ rfl rfl
  exact absurd hzero (by decide)

/-! ## Connections that can still use the mutex -/

/-- `join_network` has left its first loop, or finds at its test that it can. -/
def NetState.Connected (s : NetState) : Prop :=
  s.join.Left ∨ s.join = .test ∧ 0 < s.peersCount

instance (pc : JoinPc) : Decidable pc.Left := inferInstanceAs (Decidable (_ ∨ _ ∨ _))

instance (s : NetState) : Decidable s.Connected := inferInstanceAs (Decidable (_ ∨ _ ∧ _))

section Waiting

variable {s s' : NetState}

/-- Then it is the thread that holds the mutex. -/
theorem NetState.Connected.owner (hc : s.Connected) (h : NetInv s) : s.owner = some .join := by
  apply (h.held .join).mpr
  intro hpc
  rcases hc with hleft | ⟨htest, -⟩
  · rw [hpc] at hleft
    simp [JoinPc.Left] at hleft
  · rw [hpc] at htest
    cases htest

theorem netStep_connected {m : NetEvent} (h : NetInv s) (hstep : netStep s m = some s')
    (hc : s.Connected) : s'.Connected := by
  rcases hc with hleft | ⟨htest, hpeers⟩
  · exact .inl (netStep_left h hstep hleft)
  · by_cases hm : m = .join
    · subst hm
      cases joinNetwork_cases h hstep with
      | leave => exact .inl (.inl rfl)
      | again _ hnone => exact absurd hpeers hnone
      | lock hpc | count hpc | unlock hpc | sendGetdata hpc | createListener hpc =>
          cases htest.symm.trans hpc
    · rcases otherStep hm hstep with hframe | ⟨-, -, -, hpc, -⟩
      · exact .inr ⟨hframe.join.trans htest, hframe.peersCount.symm ▸ hpeers⟩
      · cases htest.symm.trans hpc

/-- And stays it. -/
theorem netRun_connected {events : List NetEvent} (h : NetInv s) (hc : s.Connected)
    (hrun : netRun events s = some s') : s'.owner = some .join := by
  have hboth : NetInv s' ∧ s'.Connected := by
    apply netRun_invariant (P := fun r => NetInv r ∧ r.Connected) _ hrun ⟨h, hc⟩
    intro r r' m hstep hr
    exact ⟨netStep_inv hr.1 hstep, netStep_connected hr.1 hstep hr.2⟩
  exact hboth.2.owner hboth.1

theorem netRun_append {events later : List NetEvent} {r : NetState}
    (hrun : netRun events s = some r) (hlater : netRun later r = some s') :
    netRun (events ++ later) s = some s' := by
  rw [netRun, List.foldlM_append]
  exact Option.bind_eq_some_iff.mpr ⟨r, hrun, hlater⟩

/-- The state can go on to one in which the mutex is free, and the connections wait for it that
wait for it now. -/
def Freed (s : NetState) : Prop :=
  ∃ events s', netRun events s = some s' ∧ s'.owner = none ∧
    ∀ i : ℕ, s.handlers[i]? = some .lock → s'.handlers[i]? = some .lock

/-- One step towards it. -/
theorem Freed.step {m : NetEvent} (hstep : netStep s m = some s')
    (hwaits : ∀ i : ℕ, s.handlers[i]? = some .lock → s'.handlers[i]? = some .lock) (h : Freed s') :
    Freed s := by
  obtain ⟨events, s'', hrun, hfree, hlater⟩ := h
  have hfirst : netRun [m] s = some s' := by
    rw [netRun, List.foldlM_cons, hstep]
    rfl
  exact ⟨_, s'', netRun_append hfirst hrun, hfree, fun i hi => hlater i (hwaits i hi)⟩

theorem freed_of_free (hfree : s.owner = none) : Freed s := ⟨[], s, rfl, hfree, fun _ hi => hi⟩

/-- The round of `join_network` comes to its end: an attempt to connect may fail. -/
theorem freed_of_join (hpc : s.join = .connect ∨ s.join = .count ∨ s.join = .unlock) :
    Freed s := by
  have hunlock : ∀ r : NetState, r.join = .unlock → Freed r := by
    intro r hr
    have hstep : netStep r .join = some { unlockPeers r with join := .lock } := by
      rw [netStep, joinNetwork, hr]
    exact .step hstep (fun _ hi => hi) (freed_of_free rfl)
  have hcount : ∀ r : NetState, r.join = .count → Freed r := by
    intro r hr
    have hstep : netStep r .join = some { r with
        join := .unlock
        peersCount := if 0 < r.connfd then r.peersCount + 1 else r.peersCount } := by
      rw [netStep, joinNetwork, hr]
    exact .step hstep (fun _ hi => hi) (hunlock _ rfl)
  rcases hpc with hpc | hpc | hpc
  · have hstep : netStep s (.connect (-1) false) =
        some { s with join := .count, connfd := -1 } := by
      rw [netStep, startClientConn, hpc]
      rfl
    exact .step hstep (fun _ hi => hi) (hcount _ rfl)
  · exact hcount s hpc
  · exact hunlock s hpc

/-- Whoever holds the mutex gives it back, unless `join_network` is connected. -/
theorem freed_of_not_connected (h : NetInv s) (hc : ¬ s.Connected) : Freed s := by
  cases howner : s.owner with
  | none => exact freed_of_free howner
  | some t =>
      have hholds := (h.held t).mp howner
      cases t with
      | listener => exact hholds.elim
      | handler i =>
          have hi : s.handlers[i]? = some .locked := hholds
          have hstep : netStep s (.handler i) =
              some { unlockPeers s with handlers := s.handlers.set i .receive } := by
            rw [netStep, handleLocked, hi]
          refine .step hstep ?_ (freed_of_free rfl)
          intro j hj
          have hne : i ≠ j := by
            rintro rfl
            cases hi.symm.trans hj
          exact (List.getElem?_set_ne hne).trans hj
      | join =>
          cases hpc : s.join with
          | lock => exact absurd hpc hholds
          | test =>
              have hnone : ¬ 0 < s.peersCount := fun hpeers => hc (.inr ⟨hpc, hpeers⟩)
              have hstep : netStep s .join = some { s with join := .connect } := by
                rw [netStep, joinNetwork, hpc]
                simp only [if_neg hnone]
              exact .step hstep (fun _ hi => hi) (freed_of_join (.inl rfl))
          | connect => exact freed_of_join (.inl hpc)
          | count => exact freed_of_join (.inr (.inl hpc))
          | unlock => exact freed_of_join (.inr (.inr hpc))
          | sendGetdata => exact absurd (.inl (.inl hpc)) hc
          | createListener => exact absurd (.inl (.inr (.inl hpc))) hc
          | waitLock => exact absurd (.inl (.inr (.inr hpc))) hc
          | waitTest => exact absurd hpc h.waits.1
          | waitSleep => exact absurd hpc h.waits.2.1
          | waitUnlock => exact absurd hpc h.waits.2.2

/-- A connection that waits for the mutex can get it. -/
theorem netRun_locks {i : ℕ} (h : NetInv s) (hc : ¬ s.Connected)
    (hi : s.handlers[i]? = some .lock) :
    ∃ later s', netRun later s = some s' ∧ s'.handlers[i]? = some .locked := by
  obtain ⟨events, r, hrun, hfree, hwaits⟩ := freed_of_not_connected h hc
  have hr := hwaits i hi
  have hstep : netRun [.handler i] r =
      some { r with owner := some (.handler i), handlers := r.handlers.set i .locked } := by
    rw [netRun, List.foldlM_cons, netStep, handleLocked, hr]
    simp only [lockPeers, if_pos hfree]
    rfl
  refine ⟨_, _, netRun_append hrun hstep, ?_⟩
  rw [locked_set hr, if_pos rfl]

/-- A connection that has not ended can come to hold the mutex if and only if `join_network`
has not found a peer yet. -/
theorem netRun_gets_mutex_iff {u : JoinMem} {events : List NetEvent} {i : ℕ} {pc : HandlerPc}
    (hrun : netRun events (joinStart u) = some s) (hi : s.handlers[i]? = some pc)
    (hopen : pc ≠ .closed) :
    (∃ later s', netRun later s = some s' ∧ s'.handlers[i]? = some .locked) ↔
      ¬ s.Connected := by
  have hinv := netRun_inv hrun
  constructor
  · rintro ⟨later, s', hlater, hlocked⟩ hc
    have hboth := netRun_invariant (P := NetInv) (fun _ _ _ hstep h => netStep_inv h hstep)
      hlater hinv
    have howner : s'.owner = some (.handler i) := (hboth.held (.handler i)).mpr hlocked
    cases (netRun_connected hinv hc hlater).symm.trans howner
  · intro hc
    cases pc with
    | closed => exact absurd rfl hopen
    | locked => exact ⟨[], s, rfl, hi⟩
    | lock => exact netRun_locks hinv hc hi
    | receive =>
        -- a message comes first
        have hstep : netStep s (.message i) =
            some { s with handlers := s.handlers.set i .lock } := by
          rw [netStep, receiveMsg, if_pos hi]
        have hlock : (s.handlers.set i .lock)[i]? = some .lock := by
          obtain ⟨hlt, -⟩ := List.getElem?_eq_some_iff.mp hi
          exact List.getElem?_set_self hlt
        obtain ⟨later, s', hlater, hlocked⟩ := netRun_locks (netStep_inv hinv hstep) hc hlock
        refine ⟨.message i :: later, s', ?_, hlocked⟩
        rw [netRun, List.foldlM_cons, hstep]
        exact hlater

end Waiting

/-! ## The start of a connection -/

/-- A statement of the loop of `handle_connection`. -/
def NetEvent.InLoop : NetEvent → Prop
  | .message _ | .close _ | .handler _ => True
  | _ => False

instance : DecidablePred NetEvent.InLoop
  | .message _ | .close _ | .handler _ => .isTrue trivial
  | .join | .connect _ _ | .listener => .isFalse id

/-- A step, for each reading of what stands before that loop. Where the thread does not get
to it, the process has come to its end. -/
def netStepAs (check : RespCheck) (s : NetState) (m : NetEvent) : Option NetState :=
  if m.InLoop ∧ startConnection check ≠ .ok () then none else netStep s m

/-- A run, for each reading. -/
def netRunAs (check : RespCheck) (events : List NetEvent) (s : NetState) : Option NetState :=
  events.foldlM (netStepAs check) s

theorem netRunAs_meant (events : List NetEvent) (s : NetState) :
    netRunAs .meant events s = netRun events s := by
  have hstep : netStepAs .meant = netStep := by
    funext s m
    exact if_neg fun h => h.2 rfl
  rw [netRunAs, hstep, netRun]

/-- As it is written, no thread of a connection gets to its loop. -/
theorem netStepAs_written {s s' : NetState} {m : NetEvent} (h : netStepAs .written s m = some s')
    (hs : ∀ pc ∈ s.handlers, pc = .receive) : ∀ pc ∈ s'.handlers, pc = .receive := by
  have hnew : ∀ pc ∈ s.handlers ++ [.receive], pc = HandlerPc.receive :=
    List.forall_mem_append.mpr ⟨hs, List.forall_mem_singleton.mpr rfl⟩
  rw [netStepAs] at h
  split at h
  · cases h
  next hloop =>
  cases m with
  | message i | close i | handler i => exact absurd ⟨trivial, by simp [startConnection]⟩ hloop
  | listener =>
      rw [netStep, serverListener] at h
      split at h <;> cases h
      case h_6 => exact hnew
      all_goals exact hs
  | connect connfd started =>
      rw [netStep, startClientConn] at h
      split at h
      · cases h
        dsimp only
        split
        · exact hnew
        · exact hs
      · cases h
  | join =>
      rw [netStep, joinNetwork] at h
      split at h
      case h_1 | h_8 =>
        obtain ⟨r, hlock, rfl⟩ := Option.map_eq_some_iff.mp h
        obtain ⟨-, rfl⟩ := lockPeers_eq_some hlock
        exact hs
      case h_3 => cases h
      all_goals
        cases h
        exact hs

theorem netRunAs_written {events : List NetEvent} {s s' : NetState}
    (hrun : netRunAs .written events s = some s') (hs : ∀ pc ∈ s.handlers, pc = .receive) :
    ∀ pc ∈ s'.handlers, pc = .receive := by
  induction events generalizing s with
  | nil =>
      cases hrun
      exact hs
  | cons m rest ih =>
      obtain ⟨r, hfirst, hrest⟩ := Option.bind_eq_some_iff.mp hrun
      exact ih hrest (netStepAs_written hfirst hs)

end Freecoin.Locks
