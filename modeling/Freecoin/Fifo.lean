import Freecoin.Queue

/-!
# The queue is first in, first out

`QueueRep` says what the heap looks like where a queue with certain entries is:
from the head to the tail through the nodes of the entries, and back, with no node
met twice, each with a buffer of its own. Both functions keep it, on the heap at
large they touch nothing else, and what they do to the entries is what a queue of
byte strings does.
-/

namespace Freecoin

open Lib

/-- A node of the queue, its buffer and the bytes in it. -/
structure Entry : Type where
  node : ℕ
  data : ℕ
  bytes : Bytes

/-- The pointers of a node. -/
def nextOf (h : Heap) (p : ℕ) : ℕ :=
  match h.lookup p with
  | some (.node n) => n.next
  | _ => 0

def prevOf (h : Heap) (p : ℕ) : ℕ :=
  match h.lookup p with
  | some (.node n) => n.prev
  | _ => 0

/-- The node has a buffer of the size it records. -/
structure Stored (h : Heap) (e : Entry) (n : Node) : Prop where
  node : h.lookup e.node = some (.node n)
  data : n.data = e.data
  size : n.size.toNat = e.bytes.length
  buffer : h.lookup e.data = some (.buffer e.bytes)

/-- The nodes from the head to the tail. -/
def queueNodes (q : Queue) (es : List Entry) : List ℕ :=
  q.head :: (es.map Entry.node ++ [q.tail])

/-- The queue holds the entries, the newest first. -/
structure QueueRep (q : Queue) (h : Heap) (es : List Entry) : Prop where
  size : q.size.toNat = es.length
  head : ∃ n, h.lookup q.head = some (.node n)
  tail : ∃ n, h.lookup q.tail = some (.node n)
  linked : Linked (nextOf h) (prevOf h) (queueNodes q es)
  nodup : (queueNodes q es).Nodup
  stored : ∀ e ∈ es, ∃ n, Stored h e n
  buffers : (es.map Entry.data).Nodup

/-- The blocks of the queue. -/
def Footprint (q : Queue) (es : List Entry) (p : ℕ) : Prop :=
  p ∈ queueNodes q es ∨ p ∈ es.map Entry.data

/-- What is not the queue's is left alone. -/
def Frame (q : Queue) (es : List Entry) (h h' : Heap) : Prop :=
  ∀ p ∈ h, ¬ Footprint q es p → h'.lookup p = h.lookup p

/-- The byte strings in the queue, the oldest first. -/
def payloads (es : List Entry) : List Bytes := (es.map Entry.bytes).reverse

section Pointers

variable {h : Heap} {p : ℕ} {n : Node}

theorem nextOf_node (hp : h.lookup p = some (.node n)) : nextOf h p = n.next := by
  rw [nextOf, hp]

theorem prevOf_node (hp : h.lookup p = some (.node n)) : prevOf h p = n.prev := by
  rw [prevOf, hp]

theorem nextOf_none (hp : p ∉ h) : nextOf h p = 0 := by
  rw [nextOf, Finmap.lookup_eq_none.mpr hp]

theorem prevOf_none (hp : p ∉ h) : prevOf h p = 0 := by
  rw [prevOf, Finmap.lookup_eq_none.mpr hp]

/-- A node is not a buffer. -/
theorem node_ne_buffer {p' : ℕ} {bs : Bytes} (hp : h.lookup p = some (.node n))
    (hp' : h.lookup p' = some (.buffer bs)) : p ≠ p' := by
  rintro rfl
  rw [hp] at hp'
  cases hp'

end Pointers

variable {q : Queue} {h : Heap} {es : List Entry}

/-- Every address on the way is that of a node. -/
theorem QueueRep.node (hrep : QueueRep q h es) {p : ℕ} (hp : p ∈ queueNodes q es) :
    ∃ n, h.lookup p = some (.node n) := by
  rw [queueNodes, List.mem_cons, List.mem_append, List.mem_singleton] at hp
  rcases hp with rfl | hp | rfl
  · exact hrep.head
  · obtain ⟨e, he, rfl⟩ := List.mem_map.mp hp
    obtain ⟨n, hn⟩ := hrep.stored e he
    exact ⟨n, hn.node⟩
  · exact hrep.tail

theorem QueueRep.mem_heap (hrep : QueueRep q h es) {p : ℕ} (hp : Footprint q es p) : p ∈ h := by
  rcases hp with hp | hp
  · obtain ⟨n, hn⟩ := hrep.node hp
    exact Finmap.mem_of_lookup_eq_some hn
  · obtain ⟨e, he, rfl⟩ := List.mem_map.mp hp
    obtain ⟨n, hn⟩ := hrep.stored e he
    exact Finmap.mem_of_lookup_eq_some hn.buffer

/-! ## Enqueue -/

section Enqueue

variable {headNode firstNode newNode : Node} {new : ℕ} {bytes : Bytes} {h' : Heap}
  (hhead : h.lookup q.head = some (.node headNode))
  (hfirst : h.lookup headNode.next = some (.node firstNode))
  (hstep : EnqueueStep q headNode firstNode newNode new bytes h h')

include hstep

/-- A block that was there and is none of the two neighbours. -/
theorem EnqueueStep.lookup_old {p : ℕ} (hp : p ∈ h) (hhead : p ≠ q.head)
    (hfirst : p ≠ headNode.next) : h'.lookup p = h.lookup p := by
  have hdata : p ≠ newNode.data := fun heq => hstep.data_fresh (heq ▸ hp)
  have hnew : p ≠ new := fun heq => hstep.new_fresh (heq ▸ hp)
  rw [hstep.lookup, if_neg hdata, if_neg hnew, if_neg hhead, if_neg hfirst]

include hhead hfirst

/-- A node is still a node, and of its fields only the pointers of the two neighbours change. -/
theorem EnqueueStep.keeps {p : ℕ} {n : Node} (hp : h.lookup p = some (.node n)) :
    ∃ n', h'.lookup p = some (.node n') ∧ n'.data = n.data ∧ n'.size = n.size ∧
      (p ≠ q.head → n'.next = n.next) := by
  have hmem : p ∈ h := Finmap.mem_of_lookup_eq_some hp
  have hdata : p ≠ newNode.data := fun heq => hstep.data_fresh (heq ▸ hmem)
  have hnew : p ≠ new := fun heq => hstep.new_fresh (heq ▸ hmem)
  rw [hstep.lookup, if_neg hdata, if_neg hnew]
  by_cases hph : p = q.head
  · subst hph
    rw [hhead] at hp
    cases hp
    rw [if_pos rfl]
    exact ⟨_, rfl, rfl, rfl, fun hne => absurd rfl hne⟩
  · rw [if_neg hph]
    by_cases hpf : p = headNode.next
    · subst hpf
      rw [hfirst] at hp
      cases hp
      rw [if_pos rfl]
      exact ⟨_, rfl, rfl, rfl, fun _ => rfl⟩
    · rw [if_neg hpf]
      exact ⟨n, hp, rfl, rfl, fun _ => rfl⟩

theorem EnqueueStep.nextOf_eq : nextOf h' =
    Function.update (Function.update (nextOf h) new headNode.next) q.head new := by
  have hheadNew : q.head ≠ new := fun heq =>
    hstep.new_fresh (heq ▸ Finmap.mem_of_lookup_eq_some hhead)
  have hheadData : q.head ≠ newNode.data := fun heq =>
    hstep.data_fresh (heq ▸ Finmap.mem_of_lookup_eq_some hhead)
  funext p
  rw [Function.update_apply, Function.update_apply, nextOf, hstep.lookup]
  by_cases hdata : p = newNode.data
  · subst hdata
    rw [if_pos rfl, if_neg hheadData.symm, if_neg hstep.data_ne_new,
      nextOf_none hstep.data_fresh]
  · by_cases hnew : p = new
    · subst hnew
      rw [if_neg hdata, if_pos rfl, if_neg hheadNew.symm, if_pos rfl, ← hstep.next]
    · rw [if_neg hdata, if_neg hnew, if_neg hnew]
      by_cases hp : p = q.head
      · rw [if_pos hp, if_pos hp]
      · rw [if_neg hp, if_neg hp]
        by_cases hpf : p = headNode.next
        · subst hpf
          rw [if_pos rfl, nextOf_node hfirst]
        · rw [if_neg hpf, nextOf]

theorem EnqueueStep.prevOf_eq (hne : headNode.next ≠ q.head) : prevOf h' =
    Function.update (Function.update (prevOf h) headNode.next new) new q.head := by
  have hfirstData : headNode.next ≠ newNode.data := fun heq =>
    hstep.data_fresh (heq ▸ Finmap.mem_of_lookup_eq_some hfirst)
  funext p
  rw [Function.update_apply, Function.update_apply, prevOf, hstep.lookup]
  by_cases hdata : p = newNode.data
  · subst hdata
    rw [if_pos rfl, if_neg hstep.data_ne_new, if_neg hfirstData.symm,
      prevOf_none hstep.data_fresh]
  · by_cases hnew : p = new
    · subst hnew
      rw [if_neg hdata, if_pos rfl, if_pos rfl, ← hstep.prev]
    · rw [if_neg hdata, if_neg hnew, if_neg hnew]
      by_cases hp : p = q.head
      · subst hp
        rw [if_pos rfl, if_neg hne.symm, prevOf_node hhead]
      · rw [if_neg hp]
        by_cases hpf : p = headNode.next
        · rw [if_pos hpf, if_pos hpf]
        · rw [if_neg hpf, if_neg hpf, prevOf]

/-- The entries that were there are stored as before. -/
theorem EnqueueStep.stored_old {e : Entry} {n : Node} (he : Stored h e n) :
    ∃ n', Stored h' e n' := by
  have hbuffer : h'.lookup e.data = h.lookup e.data :=
    hstep.lookup_old (Finmap.mem_of_lookup_eq_some he.buffer)
      (node_ne_buffer hhead he.buffer).symm (node_ne_buffer hfirst he.buffer).symm
  obtain ⟨n', hn', hdata, hsize, -⟩ := hstep.keeps hhead hfirst he.node
  exact ⟨n', hn', hdata.trans he.data, hsize ▸ he.size, hbuffer.trans he.buffer⟩

end Enqueue

/-- The head and the node behind it, which may be the tail. -/
structure AtHead (q : Queue) (h : Heap) (es : List Entry) (headNode firstNode : Node) : Prop where
  head : h.lookup q.head = some (.node headNode)
  first : h.lookup headNode.next = some (.node firstNode)
  ne_head : headNode.next ≠ q.head
  nodes : ∃ rest, queueNodes q es = q.head :: headNode.next :: rest

theorem QueueRep.atHead (hrep : QueueRep q h es) :
    ∃ headNode firstNode, AtHead q h es headNode firstNode := by
  obtain ⟨headNode, hhead⟩ := hrep.head
  obtain ⟨first, rest, hnodes⟩ : ∃ first rest, queueNodes q es = q.head :: first :: rest := by
    cases es with
    | nil => exact ⟨q.tail, [], rfl⟩
    | cons e es => exact ⟨e.node, _, rfl⟩
  have hlinked := hrep.linked
  have hnodup := hrep.nodup
  rw [hnodes] at hlinked hnodup
  obtain rfl : headNode.next = first := by
    rw [← nextOf_node hhead]
    exact (Linked.cons_cons.mp hlinked).1.1
  obtain ⟨firstNode, hfirst⟩ := hrep.node (p := headNode.next) (by rw [hnodes]; simp)
  refine ⟨headNode, firstNode, hhead, hfirst, ?_, rest, hnodes⟩
  intro heq
  exact (List.nodup_cons.mp hnodup).1 (heq ▸ List.mem_cons_self)

section Enqueued

variable {headNode firstNode newNode : Node} {new : ℕ} {bytes : Bytes} {h' : Heap}
  (hat : AtHead q h es headNode firstNode)
  (hstep : EnqueueStep q headNode firstNode newNode new bytes h h')

include hat hstep

theorem EnqueueStep.linked (hrep : QueueRep q h es) :
    Linked (nextOf h') (prevOf h') (q.head :: new :: (es.map Entry.node ++ [q.tail])) := by
  obtain ⟨rest, hnodes⟩ := hat.nodes
  have hrest : es.map Entry.node ++ [q.tail] = headNode.next :: rest :=
    List.tail_eq_of_cons_eq hnodes
  have hnew : new ∉ queueNodes q es := fun hmem => hstep.new_fresh (hrep.mem_heap (.inl hmem))
  have hlinked := hrep.linked
  have hnodup := hrep.nodup
  rw [hnodes] at hlinked hnodup hnew
  rw [hstep.nextOf_eq hat.head hat.first, hstep.prevOf_eq hat.head hat.first hat.ne_head, hrest]
  exact hlinked.insert hnodup hnew

theorem EnqueueStep.rep (hrep : QueueRep q h es) (hsize : newNode.size.toNat = bytes.length)
    (hlt : es.length < 2 ^ 32 - 1) :
    QueueRep { q with size := q.size + 1 } h' (⟨new, newNode.data, bytes⟩ :: es) := by
  have hnew : new ∉ queueNodes q es := fun hmem => hstep.new_fresh (hrep.mem_heap (.inl hmem))
  have hdata : newNode.data ∉ es.map Entry.data := fun hmem =>
    hstep.data_fresh (hrep.mem_heap (.inr hmem))
  have hlinked := hstep.linked hat hrep
  constructor
  · show (q.size + 1).toNat = es.length + 1
    rw [UInt32.toNat_add, hrep.size, show (1 : UInt32).toNat = 1 from rfl]
    omega
  · obtain ⟨n', hn', -⟩ := hstep.keeps hat.head hat.first hat.head
    exact ⟨n', hn'⟩
  · obtain ⟨tailNode, htail⟩ := hrep.tail
    obtain ⟨n', hn', -⟩ := hstep.keeps hat.head hat.first htail
    exact ⟨n', hn'⟩
  · exact hlinked
  · obtain ⟨hheadNotin, hrest⟩ := List.nodup_cons.mp hrep.nodup
    obtain ⟨hnewHead, hnewRest⟩ := List.ne_and_not_mem_of_not_mem_cons hnew
    refine List.nodup_cons.mpr ⟨?_, List.nodup_cons.mpr ⟨hnewRest, hrest⟩⟩
    exact List.not_mem_cons_of_ne_of_not_mem (Ne.symm hnewHead) hheadNotin
  · intro e he
    rcases List.mem_cons.mp he with rfl | he
    · refine ⟨newNode, ?_, rfl, hsize, ?_⟩
      · rw [hstep.lookup, if_neg hstep.data_ne_new.symm, if_pos rfl]
      · rw [hstep.lookup, if_pos rfl]
    · obtain ⟨n, hn⟩ := hrep.stored e he
      exact hstep.stored_old hat.head hat.first hn
  · exact List.nodup_cons.mpr ⟨hdata, hrep.buffers⟩

theorem EnqueueStep.frame : Frame q es h h' := by
  intro p hp hfoot
  obtain ⟨rest, hnodes⟩ := hat.nodes
  apply hstep.lookup_old hp
  · rintro rfl
    exact hfoot (.inl List.mem_cons_self)
  · rintro rfl
    exact hfoot (.inl (by rw [hnodes]; simp))

end Enqueued

/-- **`queue_enqueue` keeps the representation** and adds an entry at the head. -/
theorem QueueRep.enqueue (hrep : QueueRep q h es) (A : Allocator) (data : Mem) (size : UInt32)
    (hlt : es.length < 2 ^ 32 - 1) :
    ∃ e h', queueEnqueue A q data size h = .ok ({ q with size := q.size + 1 }, h') ∧
      QueueRep { q with size := q.size + 1 } h' (e :: es) ∧
      e.bytes = data.slice 0 size.toNat ∧ e.node ∉ h ∧ e.data ∉ h ∧ Frame q es h h' := by
  obtain ⟨headNode, firstNode, hat⟩ := hrep.atHead
  obtain ⟨newNode, h', hsize, hrun, hstep⟩ :=
    queueEnqueue_spec A data size hat.head hat.first hat.ne_head
  have hlength : newNode.size.toNat = (data.slice 0 size.toNat).length := by
    rw [hsize, Mem.slice_length]
  exact ⟨⟨A.nodeAt h, newNode.data, data.slice 0 size.toNat⟩, h', hrun,
    hstep.rep hat hrep hlength hlt, rfl, hstep.new_fresh, hstep.data_fresh, hstep.frame hat⟩

/-! ## Dequeue -/

section Dequeue

variable {tailNode lastNode beforeNode : Node} {h' : Heap}
  (hstep : DequeueStep q tailNode lastNode beforeNode h h')

include hstep

/-- A block that is neither taken out nor a neighbour. -/
theorem DequeueStep.lookup_old {p : ℕ} (hlast : p ≠ tailNode.prev) (hdata : p ≠ lastNode.data)
    (htail : p ≠ q.tail) (hbefore : p ≠ lastNode.prev) : h'.lookup p = h.lookup p := by
  rw [hstep.lookup, if_neg hlast, if_neg hdata, if_neg htail, if_neg hbefore]

/-- A node that is not taken out is still a node, and of its fields only the pointers of the two
neighbours change. -/
theorem DequeueStep.keeps (htail : h.lookup q.tail = some (.node tailNode))
    (hbefore : h.lookup lastNode.prev = some (.node beforeNode)) {p : ℕ} {n : Node}
    (hp : h.lookup p = some (.node n)) (hlast : p ≠ tailNode.prev) (hdata : p ≠ lastNode.data) :
    ∃ n', h'.lookup p = some (.node n') ∧ n'.data = n.data ∧ n'.size = n.size ∧
      (p ≠ lastNode.prev → n'.next = n.next) := by
  rw [hstep.lookup, if_neg hlast, if_neg hdata]
  by_cases hpt : p = q.tail
  · subst hpt
    rw [htail] at hp
    cases hp
    rw [if_pos rfl]
    exact ⟨_, rfl, rfl, rfl, fun _ => rfl⟩
  · rw [if_neg hpt]
    by_cases hpb : p = lastNode.prev
    · subst hpb
      rw [hbefore] at hp
      cases hp
      rw [if_pos rfl]
      exact ⟨_, rfl, rfl, rfl, fun hne => absurd rfl hne⟩
    · rw [if_neg hpb]
      exact ⟨n, hp, rfl, rfl, fun _ => rfl⟩

theorem DequeueStep.nextOf_eq (htail : h.lookup q.tail = some (.node tailNode))
    (hne : lastNode.prev ≠ q.tail) {p : ℕ} (hlast : p ≠ tailNode.prev)
    (hdata : p ≠ lastNode.data) :
    nextOf h' p = Function.update (nextOf h) lastNode.prev q.tail p := by
  rw [Function.update_apply, nextOf, hstep.lookup, if_neg hlast, if_neg hdata]
  by_cases hp : p = q.tail
  · subst hp
    rw [if_pos rfl, if_neg hne.symm, nextOf_node htail]
  · rw [if_neg hp]
    by_cases hpb : p = lastNode.prev
    · rw [if_pos hpb, if_pos hpb]
    · rw [if_neg hpb, if_neg hpb, nextOf]

theorem DequeueStep.prevOf_eq (hbefore : h.lookup lastNode.prev = some (.node beforeNode)) {p : ℕ}
    (hlast : p ≠ tailNode.prev) (hdata : p ≠ lastNode.data) :
    prevOf h' p = Function.update (prevOf h) q.tail lastNode.prev p := by
  rw [Function.update_apply, prevOf, hstep.lookup, if_neg hlast, if_neg hdata]
  by_cases hp : p = q.tail
  · rw [if_pos hp, if_pos hp]
  · rw [if_neg hp, if_neg hp]
    by_cases hpb : p = lastNode.prev
    · subst hpb
      rw [if_pos rfl, prevOf_node hbefore]
    · rw [if_neg hpb, prevOf]

/-- The other entries are stored as before. -/
theorem DequeueStep.stored_old (htail : h.lookup q.tail = some (.node tailNode))
    (hbefore : h.lookup lastNode.prev = some (.node beforeNode)) {e : Entry} {n : Node}
    (he : Stored h e n) (hlast : e.node ≠ tailNode.prev) (hdata : e.node ≠ lastNode.data)
    (hbuffer : h'.lookup e.data = h.lookup e.data) : ∃ n', Stored h' e n' := by
  obtain ⟨n', hn', hkept, hsize, -⟩ := hstep.keeps htail hbefore he.node hlast hdata
  exact ⟨n', hn', hkept.trans he.data, hsize ▸ he.size, hbuffer.trans he.buffer⟩

end Dequeue

/-- The tail, the last entry and the node before it, which may be the head. -/
structure AtTail (q : Queue) (h : Heap) (es : List Entry) (e : Entry)
    (tailNode lastNode beforeNode : Node) : Prop where
  tail : h.lookup q.tail = some (.node tailNode)
  last : tailNode.prev = e.node
  stored : Stored h e lastNode
  before : h.lookup lastNode.prev = some (.node beforeNode)
  nodes : ∃ l, queueNodes q (es ++ [e]) = l ++ [lastNode.prev, e.node, q.tail] ∧
    queueNodes q es = l ++ [lastNode.prev, q.tail]
  last_ne_tail : e.node ≠ q.tail
  before_ne_tail : lastNode.prev ≠ q.tail
  /-- The nodes that stay are not the one that goes. -/
  left_ne_last : ∀ p ∈ queueNodes q es, p ≠ e.node

theorem QueueRep.atTail {e : Entry} (hrep : QueueRep q h (es ++ [e])) :
    ∃ tailNode lastNode beforeNode, AtTail q h es e tailNode lastNode beforeNode := by
  obtain ⟨tailNode, htail⟩ := hrep.tail
  obtain ⟨l, before, hnodes⟩ : ∃ l before, q.head :: es.map Entry.node = l ++ [before] :=
    ⟨_, _, (List.dropLast_append_getLast (List.cons_ne_nil _ _)).symm⟩
  have hall : queueNodes q (es ++ [e]) = l ++ [before, e.node, q.tail] := by
    rw [queueNodes, List.map_append, List.append_assoc, ← List.cons_append, hnodes]
    simp
  have hleft : queueNodes q es = l ++ [before, q.tail] := by
    rw [queueNodes, ← List.cons_append, hnodes]
    simp
  have hlinked := hrep.linked
  have hnodup := hrep.nodup
  rw [hall] at hlinked hnodup
  obtain ⟨lastNode, hstored⟩ := hrep.stored e (by simp)
  obtain ⟨beforeNode, hbefore⟩ := hrep.node (p := before) (by rw [hall]; simp)
  -- the last two links
  obtain ⟨-, ⟨-, hprevLast⟩, hlastLinked⟩ := List.isChain_append_cons_cons.mp hlinked
  have hprevTail := (Linked.cons_cons.mp hlastLinked).1.2
  rw [prevOf_node hstored.node] at hprevLast
  rw [prevOf_node htail] at hprevTail
  subst hprevLast
  have hcut : ((l ++ [lastNode.prev]) ++ [e.node, q.tail]).Nodup := by
    rw [List.append_assoc]
    exact hnodup
  obtain ⟨-, hpair, hapart⟩ := List.nodup_append.mp hcut
  have hlastTail : e.node ≠ q.tail := fun heq =>
    (List.nodup_cons.mp hpair).1 (heq ▸ List.mem_singleton_self _)
  refine ⟨tailNode, lastNode, beforeNode, htail, hprevTail, hstored, hbefore, ⟨l, hall, hleft⟩,
    hlastTail, hapart _ (by simp) _ (by simp), ?_⟩
  intro p hp
  rw [hleft, ← List.singleton_append, ← List.append_assoc, List.mem_append] at hp
  rcases hp with hp | hp
  · exact hapart p hp e.node List.mem_cons_self
  · rw [List.mem_singleton.mp hp]
    exact hlastTail.symm

section Dequeued

variable {e : Entry} {tailNode lastNode beforeNode : Node} {h' : Heap}
  (hat : AtTail q h es e tailNode lastNode beforeNode)

include hat

theorem AtTail.sublist : (queueNodes q es).Sublist (queueNodes q (es ++ [e])) := by
  obtain ⟨l, hall, hleft⟩ := hat.nodes
  rw [hleft, hall]
  simp

theorem AtTail.tail_mem : q.tail ∈ queueNodes q es := by
  obtain ⟨l, -, hleft⟩ := hat.nodes
  rw [hleft]
  simp

theorem AtTail.before_mem : lastNode.prev ∈ queueNodes q es := by
  obtain ⟨l, -, hleft⟩ := hat.nodes
  rw [hleft]
  simp

/-- The nodes that stay are neither of the two blocks that are freed. -/
theorem AtTail.left_ne (hrep : QueueRep q h (es ++ [e])) {p : ℕ} (hp : p ∈ queueNodes q es) :
    p ≠ tailNode.prev ∧ p ≠ lastNode.data := by
  obtain ⟨n, hn⟩ := hrep.node (hat.sublist.subset hp)
  rw [hat.last, hat.stored.data]
  exact ⟨hat.left_ne_last p hp, node_ne_buffer hn hat.stored.buffer⟩

/-- The other entries keep their nodes and buffers. -/
theorem AtTail.stored_left (hrep : QueueRep q h (es ++ [e]))
    (hstep : DequeueStep q tailNode lastNode beforeNode h h') {e' : Entry} (he' : e' ∈ es) :
    ∃ n, Stored h' e' n := by
  obtain ⟨n, hn⟩ := hrep.stored e' (List.mem_append_left _ he')
  have hmem : e'.node ∈ es.map Entry.node := List.mem_map_of_mem he'
  obtain ⟨hlast, hdata⟩ := hat.left_ne hrep (List.mem_cons_of_mem _ (List.mem_append_left _ hmem))
  have hownData : e'.data ≠ lastNode.data := by
    have hbuffers := hrep.buffers
    rw [List.map_append, List.nodup_append] at hbuffers
    rw [hat.stored.data]
    exact hbuffers.2.2 _ (List.mem_map_of_mem he') _ (List.mem_singleton_self _)
  have hbuffer : h'.lookup e'.data = h.lookup e'.data := by
    apply hstep.lookup_old _ hownData
    · exact (node_ne_buffer hat.tail hn.buffer).symm
    · exact (node_ne_buffer hat.before hn.buffer).symm
    · rw [hat.last]
      exact (node_ne_buffer hat.stored.node hn.buffer).symm
  exact hstep.stored_old hat.tail hat.before hn hlast hdata hbuffer

theorem AtTail.linked (hrep : QueueRep q h (es ++ [e]))
    (hstep : DequeueStep q tailNode lastNode beforeNode h h') :
    Linked (nextOf h') (prevOf h') (queueNodes q es) := by
  obtain ⟨l, hall, hleft⟩ := hat.nodes
  have hlinked := hrep.linked
  have hnodup := hrep.nodup
  rw [hall] at hlinked hnodup
  have hremoved := hlinked.remove hnodup
  rw [← hleft] at hremoved
  apply hremoved.congr
  · intro p hp
    obtain ⟨hlast, hdata⟩ := hat.left_ne hrep hp
    exact hstep.nextOf_eq hat.tail hat.before_ne_tail hlast hdata
  · intro p hp
    obtain ⟨hlast, hdata⟩ := hat.left_ne hrep (List.mem_of_mem_tail hp)
    exact hstep.prevOf_eq hat.before hlast hdata

theorem AtTail.rep (hrep : QueueRep q h (es ++ [e]))
    (hstep : DequeueStep q tailNode lastNode beforeNode h h') :
    QueueRep { q with size := q.size - 1 } h' es := by
  have hlinked := hat.linked hrep hstep
  constructor
  · have hlength := hrep.size
    have hlt := q.size.toNat_lt
    rw [List.length_append, List.length_singleton] at hlength
    show (q.size - 1).toNat = es.length
    rw [UInt32.toNat_sub, show (1 : UInt32).toNat = 1 from rfl]
    omega
  · obtain ⟨headNode, hhead⟩ := hrep.head
    obtain ⟨hlast, hdata⟩ := hat.left_ne hrep (p := q.head) List.mem_cons_self
    obtain ⟨n', hn', -⟩ := hstep.keeps hat.tail hat.before hhead hlast hdata
    exact ⟨n', hn'⟩
  · obtain ⟨hlast, hdata⟩ := hat.left_ne hrep hat.tail_mem
    obtain ⟨n', hn', -⟩ := hstep.keeps hat.tail hat.before hat.tail hlast hdata
    exact ⟨n', hn'⟩
  · exact hlinked
  · exact hrep.nodup.sublist hat.sublist
  · intro e' he'
    exact hat.stored_left hrep hstep he'
  · have hbuffers := hrep.buffers
    rw [List.map_append] at hbuffers
    exact hbuffers.sublist (List.sublist_append_left ..)

theorem AtTail.frame (hstep : DequeueStep q tailNode lastNode beforeNode h h') :
    Frame q (es ++ [e]) h h' := by
  intro p _ hfoot
  apply hstep.lookup_old
  · rintro rfl
    obtain ⟨l, hall, -⟩ := hat.nodes
    exact hfoot (.inl (by rw [hall, hat.last]; simp))
  · rintro rfl
    exact hfoot (.inr (by rw [hat.stored.data]; simp))
  · rintro rfl
    exact hfoot (.inl (hat.sublist.subset hat.tail_mem))
  · rintro rfl
    exact hfoot (.inl (hat.sublist.subset hat.before_mem))

end Dequeued

/-- **`queue_dequeue` keeps the representation** and takes out the entry next to the tail. -/
theorem QueueRep.dequeue {e : Entry} (hrep : QueueRep q h (es ++ [e])) (dest : Mem) :
    ∃ ret h', queueDequeue q dest h =
        .ok ⟨ret, dest.write 0 e.bytes, { q with size := q.size - 1 }, h'⟩ ∧
      ret.toNat = e.bytes.length ∧ QueueRep { q with size := q.size - 1 } h' es ∧
      Frame q (es ++ [e]) h h' := by
  obtain ⟨tailNode, lastNode, beforeNode, hat⟩ := hrep.atTail
  have hsize : q.size ≠ 0 := by
    intro hzero
    have hlength := hrep.size
    rw [hzero, List.length_append] at hlength
    cases hlength
  have hbeforeLast : lastNode.prev ≠ e.node := hat.left_ne_last _ hat.before_mem
  obtain ⟨h', hrun, hstep⟩ := queueDequeue_spec dest hsize hat.tail (hat.last ▸ hat.stored.node)
    (hat.stored.data ▸ hat.stored.buffer) hat.stored.size hat.before (hat.last ▸ hat.last_ne_tail)
    hat.before_ne_tail (hat.last ▸ hbeforeLast)
  exact ⟨lastNode.size, h', hrun, hat.stored.size, hat.rep hrep hstep, hat.frame hstep⟩

/-- The queue is empty: nothing is read or written. -/
theorem QueueRep.dequeue_empty (hrep : QueueRep q h []) (dest : Mem) :
    queueDequeue q dest h = .error (.fatal "Dequeue attempted on empty queue") := by
  have hsize : q.size = 0 := UInt32.toNat_inj.mp hrep.size
  rw [queueDequeue, if_pos hsize]
  rfl

/-! ## Following the pointers -/

/-- The nodes are linked if and only if `next` leads through them from the head to the tail and
`prev` leads through the same nodes backwards from the tail to the head. -/
theorem linked_iff_follow (q : Queue) (h : Heap) (es : List Entry) :
    Linked (nextOf h) (prevOf h) (queueNodes q es) ↔
      (∀ i (hi : i < (queueNodes q es).length),
        (nextOf h)^[i] q.head = (queueNodes q es)[i]) ∧
      ∀ i (hi : i < (queueNodes q es).reverse.length),
        (prevOf h)^[i] q.tail = (queueNodes q es).reverse[i] := by
  apply Linked.iff_iterate
  · rfl
  · simp [queueNodes]

/-- From the head to the tail there are `size` nodes. -/
theorem QueueRep.follow (hrep : QueueRep q h es) :
    (nextOf h)^[q.size.toNat + 1] q.head = q.tail ∧
    (prevOf h)^[q.size.toNat + 1] q.tail = q.head := by
  obtain ⟨hnext, hprev⟩ := (linked_iff_follow q h es).mp hrep.linked
  have hlength : (queueNodes q es).length = es.length + 2 := by
    simp [queueNodes]
  rw [hrep.size]
  constructor
  · rw [hnext _ (by omega)]
    simp [queueNodes]
  · rw [hprev _ (by rw [List.length_reverse]; omega), List.getElem_reverse]
    simp [queueNodes]

/-! ## Runs -/

/-- A call of the queue. -/
inductive QueueCall : Type where
  | enqueue (data : Mem) (size : UInt32)
  | dequeue (dest : Mem)

/-- What a caller sees of it: nothing, or the result and the destination. -/
inductive QueueAnswer : Type where
  | done
  | copied (size : UInt32) (dest : Mem)

/-- One call. -/
def QueueCall.run (A : Allocator) (q : Queue) (h : Heap) :
    QueueCall → Except Fault (QueueAnswer × Queue × Heap)
  | .enqueue data size => do
      let (q, h) ← queueEnqueue A q data size h
      return (.done, q, h)
  | .dequeue dest => do
      let out ← queueDequeue q dest h
      return (.copied out.ret out.dest, out.queue, out.heap)

/-- The calls of a program one after the other, up to the first that is fatal. -/
def queueRun (A : Allocator) : List QueueCall → Queue → Heap →
    Except Fault (List QueueAnswer × Queue × Heap)
  | [], q, h => return ([], q, h)
  | call :: rest, q, h => do
      let (answer, q, h) ← call.run A q h
      let (answers, q, h) ← queueRun A rest q h
      return (answer :: answers, q, h)

/-- One call on a queue of byte strings, the oldest first. -/
def QueueCall.fifo (xs : List Bytes) : QueueCall → Except Fault (QueueAnswer × List Bytes)
  | .enqueue data size => return (.done, xs ++ [data.slice 0 size.toNat])
  | .dequeue dest =>
      match xs with
      | [] => .error (.fatal "Dequeue attempted on empty queue")
      | x :: xs => return (.copied (UInt32.ofNat x.length) (dest.write 0 x), xs)

def fifoRun : List QueueCall → List Bytes → Except Fault (List QueueAnswer × List Bytes)
  | [], xs => return ([], xs)
  | call :: rest, xs => do
      let (answer, xs) ← call.fifo xs
      let (answers, xs) ← fifoRun rest xs
      return (answer :: answers, xs)

/-- Every addition meets fewer than `2 ^ 32 - 1` byte strings. -/
def RoomFor : List QueueCall → List Bytes → Prop
  | [], _ => True
  | .enqueue data size :: rest, xs =>
      xs.length < 2 ^ 32 - 1 ∧ RoomFor rest (xs ++ [data.slice 0 size.toNat])
  | .dequeue _ :: _, [] => True
  | .dequeue _ :: rest, _ :: xs => RoomFor rest xs

/-- From a queue with the entries `es` to one that holds `xs`. -/
structure Reaches (q : Queue) (es : List Entry) (h : Heap) (q' : Queue) (es' : List Entry)
    (h' : Heap) (xs : List Bytes) : Prop where
  rep : QueueRep q' h' es'
  payloads : payloads es' = xs
  /-- Blocks that have become the queue's were free. -/
  own : ∀ p, Footprint q' es' p → Footprint q es p ∨ p ∉ h
  frame : Frame q es h h'

theorem Reaches.trans {q₁ q₂ : Queue} {es₁ es₂ : List Entry} {h₁ h₂ : Heap} {xs ys : List Bytes}
    (hfirst : Reaches q es h q₁ es₁ h₁ xs) (hsecond : Reaches q₁ es₁ h₁ q₂ es₂ h₂ ys) :
    Reaches q es h q₂ es₂ h₂ ys := by
  -- a block that is not the queue's is there after the first part
  have hkept : ∀ p ∈ h, ¬ Footprint q es p → p ∈ h₁ := by
    intro p hp hfoot
    obtain ⟨b, hb⟩ := Finmap.mem_iff.mp hp
    exact Finmap.mem_of_lookup_eq_some ((hfirst.frame p hp hfoot).trans hb)
  refine ⟨hsecond.rep, hsecond.payloads, ?_, ?_⟩
  · intro p hp
    rcases hsecond.own p hp with hown | hfree
    · exact hfirst.own p hown
    · by_contra hno
      obtain ⟨hfoot, hmem⟩ := not_or.mp hno
      exact hfree (hkept p (not_not.mp hmem) hfoot)
  · intro p hp hfoot
    have hfoot₁ : ¬ Footprint q₁ es₁ p := by
      intro hown
      rcases hfirst.own p hown with h' | h'
      · exact hfoot h'
      · exact h' hp
    rw [hsecond.frame p (hkept p hp hfoot) hfoot₁, hfirst.frame p hp hfoot]

theorem payloads_cons (e : Entry) (es : List Entry) :
    payloads (e :: es) = payloads es ++ [e.bytes] := by
  rw [payloads, List.map_cons, List.reverse_cons, payloads]

theorem payloads_append_singleton (es : List Entry) (e : Entry) :
    payloads (es ++ [e]) = e.bytes :: payloads es := by
  rw [payloads, List.map_append, List.reverse_append, payloads]
  rfl

theorem footprint_cons {size : UInt32} {e : Entry} {p : ℕ} :
    Footprint { q with size := size } (e :: es) p ↔
      p = e.node ∨ p = e.data ∨ Footprint q es p := by
  simp only [Footprint, queueNodes, List.map_cons, List.cons_append, List.mem_cons]
  tauto

theorem footprint_append {size : UInt32} {e : Entry} {p : ℕ}
    (hp : Footprint { q with size := size } es p) : Footprint q (es ++ [e]) p := by
  simp only [Footprint, queueNodes, List.map_append, List.mem_cons, List.mem_append] at hp ⊢
  tauto

theorem QueueRep.reaches_enqueue (hrep : QueueRep q h es) (A : Allocator) (data : Mem)
    (size : UInt32) (hlt : es.length < 2 ^ 32 - 1) :
    ∃ q' es' h', queueEnqueue A q data size h = .ok (q', h') ∧
      Reaches q es h q' es' h' (payloads es ++ [data.slice 0 size.toNat]) := by
  obtain ⟨e, h', hrun, hrep', hbytes, hnode, hdata, hframe⟩ := hrep.enqueue A data size hlt
  refine ⟨_, e :: es, h', hrun, hrep', ?_, ?_, hframe⟩
  · rw [payloads_cons, hbytes]
  · intro p hp
    rcases footprint_cons.mp hp with rfl | rfl | hp
    · exact .inr hnode
    · exact .inr hdata
    · exact .inl hp

theorem QueueRep.reaches_dequeue {e : Entry} (hrep : QueueRep q h (es ++ [e])) (dest : Mem) :
    ∃ q' h', queueDequeue q dest h =
        .ok ⟨UInt32.ofNat e.bytes.length, dest.write 0 e.bytes, q', h'⟩ ∧
      Reaches q (es ++ [e]) h q' es h' (payloads es) := by
  obtain ⟨ret, h', hrun, hret, hrep', hframe⟩ := hrep.dequeue dest
  refine ⟨_, h', ?_, hrep', rfl, ?_, hframe⟩
  · rw [hrun, ← hret, UInt32.ofNat_toNat]
  · intro p hp
    exact .inl (footprint_append hp)

/-- A call goes as it goes on a queue of byte strings. -/
theorem QueueRep.run_call (hrep : QueueRep q h es) (A : Allocator) {call : QueueCall}
    {rest : List QueueCall} (hroom : RoomFor (call :: rest) (payloads es)) :
    (∃ fault, call.fifo (payloads es) = .error fault ∧ call.run A q h = .error fault) ∨
    ∃ answer xs q' es' h', call.fifo (payloads es) = .ok (answer, xs) ∧
      call.run A q h = .ok (answer, q', h') ∧ Reaches q es h q' es' h' xs ∧
      RoomFor rest xs := by
  cases call with
  | enqueue data size =>
      obtain ⟨hlt, hroom⟩ := hroom
      rw [payloads, List.length_reverse, List.length_map] at hlt
      obtain ⟨q', es', h', hrun, hreach⟩ := hrep.reaches_enqueue A data size hlt
      refine .inr ⟨.done, _, q', es', h', rfl, ?_, hreach, hroom⟩
      rw [QueueCall.run, hrun]
      rfl
  | dequeue dest =>
      -- the entry next to the tail is the last of the list
      rcases List.eq_nil_or_concat' es with rfl | ⟨es, e, rfl⟩
      · refine .inl ⟨_, rfl, ?_⟩
        rw [QueueCall.run, hrep.dequeue_empty dest]
        rfl
      · obtain ⟨q', h', hrun, hreach⟩ := hrep.reaches_dequeue dest
        rw [payloads_append_singleton] at hroom ⊢
        refine .inr ⟨_, _, q', es, h', rfl, ?_, hreach, hroom⟩
        rw [QueueCall.run, hrun]
        rfl

/-- **The queue is first in, first out**: from every state in which it holds entries, the calls of
a program are answered as they are on the queue of byte strings, and one of them is fatal where it
is fatal there, that is on an empty queue. In the end the queue holds the byte strings that are
left, and what was not its own on the heap is as it was. -/
theorem queueRun_fifo (A : Allocator) (calls : List QueueCall) (q : Queue) (h : Heap)
    (es : List Entry) (hrep : QueueRep q h es) (hroom : RoomFor calls (payloads es)) :
    (∃ fault, fifoRun calls (payloads es) = .error fault ∧ queueRun A calls q h = .error fault) ∨
    ∃ answers xs q' es' h', fifoRun calls (payloads es) = .ok (answers, xs) ∧
      queueRun A calls q h = .ok (answers, q', h') ∧ Reaches q es h q' es' h' xs := by
  -- on the calls; what the queue is after the first is where the others start
  induction calls generalizing q h es with
  | nil =>
      refine .inr ⟨[], _, q, es, h, rfl, rfl, hrep, rfl, ?_, ?_⟩
      · intro p hp
        exact .inl hp
      · intro p _ _
        rfl
  | cons call rest ih =>
      rcases hrep.run_call A hroom with ⟨fault, hfifo, hrun⟩ |
        ⟨answer, xs, q₁, es₁, h₁, hfifo, hrun, hreach, hrest⟩
      · refine .inl ⟨fault, ?_, ?_⟩
        · rw [fifoRun, hfifo]
          rfl
        · rw [queueRun, hrun]
          rfl
      · rw [fifoRun, queueRun, bind_of_ok hfifo, bind_of_ok hrun]
        dsimp only
        obtain rfl := hreach.payloads
        rcases ih q₁ h₁ es₁ hreach.rep hrest with ⟨fault, hfifo, hrun⟩ |
          ⟨answers, ys, q₂, es₂, h₂, hfifo, hrun, hreach₂⟩
        · refine .inl ⟨fault, ?_, ?_⟩
          · rw [hfifo]
            rfl
          · rw [hrun]
            rfl
        · refine .inr ⟨answer :: answers, ys, q₂, es₂, h₂, ?_, ?_, hreach.trans hreach₂⟩
          · rw [bind_of_ok hfifo]
            rfl
          · rw [bind_of_ok hrun]
            rfl

/-! ## A new queue -/

theorem InitStep.rep {A : Allocator} {h' : Heap} (hinit : InitStep A 0 h q h') :
    QueueRep q h' [] := by
  refine ⟨?_, ⟨_, hinit.headNode⟩, ⟨_, hinit.tailNode⟩, ?_, ?_, ?_, List.nodup_nil⟩
  · rw [hinit.size]
    rfl
  · refine Linked.cons_cons.mpr ⟨⟨?_, ?_⟩, List.isChain_singleton q.tail⟩
    · rw [nextOf_node hinit.headNode]
    · rw [prevOf_node hinit.tailNode]
  · refine List.nodup_cons.mpr ⟨?_, List.nodup_singleton q.tail⟩
    intro hmem
    exact hinit.apart (List.mem_singleton.mp hmem)
  · intro e he
    cases he

/-- What `queue_init` returns holds no entries, if the memory that `size` lies in was zero. -/
theorem queueInit_rep (A : Allocator) (size : UInt32) (h : Heap) :
    ∃ q h', queueInit A size h = .ok (q, h') ∧ (QueueRep q h' [] ↔ size = 0) := by
  obtain ⟨q, h', hrun, hinit⟩ := queueInit_spec A size h
  refine ⟨q, h', hrun, ?_⟩
  constructor
  · intro hrep
    exact UInt32.toNat_inj.mp (hinit.size ▸ hrep.size)
  · rintro rfl
    exact hinit.rep

theorem top_fresh (h : Heap) : h.keys.sup id + 1 ∉ h := by
  intro hmem
  exact Nat.not_succ_le_self _ (Finset.le_sup (f := id) (Finmap.mem_keys.mpr hmem))

/-- An allocator: the address behind the last one in use, and zeros. -/
def topAllocator : Allocator where
  nodeAt h := h.keys.sup id + 1
  node _ := ⟨0, 0, 0, 0⟩
  bufferAt _ h := h.keys.sup id + 1
  buffer n _ := List.replicate n 0
  nodeAt_fresh := top_fresh
  bufferAt_fresh _ := top_fresh
  buffer_length _ _ := List.length_replicate

/-- Of two byte strings the first put in is the first to come out. -/
theorem queueRun_fifo_two :
    ∃ q h q' h', queueInit topAllocator 0 ∅ = .ok (q, h) ∧ QueueRep q h [] ∧
      queueRun topAllocator [.enqueue (Mem.ofBytes [1, 2, 3]) 3, .enqueue (Mem.ofBytes [4, 5]) 2,
        .dequeue (Mem.ofBytes [])] q h =
          .ok ([.done, .done, .copied 3 ((Mem.ofBytes []).write 0 [1, 2, 3])], q', h') := by
  obtain ⟨q, h, hinit, hrep⟩ := queueInit_rep topAllocator 0 ∅
  rcases queueRun_fifo topAllocator [.enqueue (Mem.ofBytes [1, 2, 3]) 3,
    .enqueue (Mem.ofBytes [4, 5]) 2, .dequeue (Mem.ofBytes [])] q h [] (hrep.mpr rfl)
    (by simp [RoomFor, payloads]) with ⟨fault, hfifo, -⟩ |
      ⟨answers, xs, q', es', h', hfifo, hrun, -⟩
  · cases hfifo
  · cases hfifo
    exact ⟨q, h, q', h', hinit, hrep.mpr rfl, hrun⟩

end Freecoin
