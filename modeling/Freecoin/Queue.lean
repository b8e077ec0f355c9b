import Freecoin.Shared
import Freecoin.Lib.DoublyLinked
import Mathlib.Data.Finmap

/-!
# queue.c: a queue of byte strings

A doubly linked list between two sentinels. `queue_enqueue` puts a node behind
the head, `queue_dequeue` takes out the one before the tail, so the oldest is
always next to the tail.

The heap is explicit here: it maps the addresses that are allocated to nodes and
buffers, and an access to any other address is a fault. What `malloc` returns is
an address that is not in use, also for no bytes at all, with memory that may hold
anything; that it may fail is left out, since nothing in the file looks at its
result. The `Queue` itself is passed and returned. `queue_init` does not set `size`.
-/

namespace Freecoin

open Lib

/-- `Node`. -/
structure Node : Type where
  prev : ℕ
  next : ℕ
  size : UInt32
  data : ℕ
deriving DecidableEq

/-- `Queue`. -/
structure Queue : Type where
  head : ℕ
  tail : ℕ
  size : UInt32
deriving DecidableEq

/-- What lies at an allocated address. -/
inductive Block : Type where
  | node (n : Node)
  | buffer (bytes : Bytes)
deriving DecidableEq

abbrev Heap : Type := Finmap fun _ : ℕ => Block

/-- `malloc(sizeof(Node))` and `malloc(n)`: the address, and what the memory held. -/
structure Allocator : Type where
  nodeAt : Heap → ℕ
  node : Heap → Node
  bufferAt : ℕ → Heap → ℕ
  buffer : ℕ → Heap → Bytes
  nodeAt_fresh : ∀ h, nodeAt h ∉ h
  bufferAt_fresh : ∀ n h, bufferAt n h ∉ h
  buffer_length : ∀ n h, (buffer n h).length = n

/-! ## Accesses -/

/-- `*p`, a node. -/
def readNode (h : Heap) (p : ℕ) : Except Fault Node :=
  match h.lookup p with
  | some (.node n) => .ok n
  | _ => .error .badPointer

/-- An assignment to a field of `*p`. -/
def editNode (h : Heap) (p : ℕ) (edit : Node → Node) : Except Fault Heap := do
  let n ← readNode h p
  return h.insert p (.node (edit n))

/-- `memcpy(.., p, n)`: the bytes. -/
def readBuffer (h : Heap) (p n : ℕ) : Except Fault Bytes :=
  match h.lookup p with
  | some (.buffer bs) => if n ≤ bs.length then .ok (bs.take n) else .error .badPointer
  | _ => .error .badPointer

/-- `memcpy(p, .., |bs|)`. -/
def writeBuffer (h : Heap) (p : ℕ) (bs : Bytes) : Except Fault Heap :=
  match h.lookup p with
  | some (.buffer old) =>
      if bs.length ≤ old.length then .ok (h.insert p (.buffer (bs ++ old.drop bs.length)))
      else .error .badPointer
  | _ => .error .badPointer

/-- `free(p)`. -/
def free (h : Heap) (p : ℕ) : Except Fault Heap :=
  if p ∈ h then .ok (h.erase p) else .error .badPointer

/-! ## The functions -/

/-- `queue_init()`; `size` is what the memory of the queue held. -/
def queueInit (A : Allocator) (size : UInt32) (h : Heap) : Except Fault (Queue × Heap) := do
  let head := A.nodeAt h
  let h := h.insert head (.node (A.node h))
  let tail := A.nodeAt h
  let h := h.insert tail (.node (A.node h))
  let h ← editNode h head fun n => { n with next := tail }
  let h ← editNode h tail fun n => { n with prev := head }
  return (⟨head, tail, size⟩, h)

/-- The assignments of `queue_enqueue` that put the node `new` behind the head. -/
def queueLink (q : Queue) (new : ℕ) (h : Heap) : Except Fault Heap := do
  -- q->head->next->prev = new
  let h ← editNode h (← readNode h q.head).next fun n => { n with prev := new }
  -- new->next = q->head->next
  let first := (← readNode h q.head).next
  let h ← editNode h new fun n => { n with next := first }
  let h ← editNode h new fun n => { n with prev := q.head }
  editNode h q.head fun n => { n with next := new }

/-- Those that give it a buffer of its own. -/
def queueFill (A : Allocator) (new : ℕ) (data : Mem) (size : UInt32) (h : Heap) :
    Except Fault Heap := do
  let buffer := A.bufferAt size.toNat h
  let h := h.insert buffer (.buffer (A.buffer size.toNat h))
  let h ← editNode h new fun n => { n with data := buffer }
  let h ← editNode h new fun n => { n with size := size }
  writeBuffer h (← readNode h new).data (data.slice 0 size.toNat)

/-- `queue_enqueue(q, data, size)`. -/
def queueEnqueue (A : Allocator) (q : Queue) (data : Mem) (size : UInt32) (h : Heap) :
    Except Fault (Queue × Heap) := do
  let new := A.nodeAt h
  let h := h.insert new (.node (A.node h))
  let h ← queueLink q new h
  let h ← queueFill A new data size h
  return ({ q with size := q.size + 1 }, h)

/-- The assignments of `queue_dequeue` that take out the node before the tail. -/
def queueUnlink (q : Queue) (h : Heap) : Except Fault Heap := do
  -- q->tail->prev->prev->next = q->tail
  let h ← editNode h (← readNode h (← readNode h q.tail).prev).prev fun n =>
    { n with next := q.tail }
  -- q->tail->prev = q->tail->prev->prev
  let before := (← readNode h (← readNode h q.tail).prev).prev
  editNode h q.tail fun n => { n with prev := before }

/-- What `queue_dequeue` leaves behind. -/
structure Dequeued : Type where
  ret : UInt32
  dest : Mem
  queue : Queue
  heap : Heap

/-- `queue_dequeue(q, dest)`. -/
def queueDequeue (q : Queue) (dest : Mem) (h : Heap) : Except Fault Dequeued := do
  if q.size = 0 then throw (.fatal "Dequeue attempted on empty queue")
  -- memcpy(dest, q->tail->prev->data, q->tail->prev->size)
  let last ← readNode h (← readNode h q.tail).prev
  let bytes ← readBuffer h last.data last.size.toNat
  let dest := dest.write 0 bytes
  let temp := (← readNode h q.tail).prev
  let retval := (← readNode h temp).size
  let h ← queueUnlink q h
  let h ← free h (← readNode h temp).data
  let h ← free h temp
  return ⟨retval, dest, { q with size := q.size - 1 }, h⟩

/-- `free(p)` for any pointer: nothing is done for `NULL`. -/
def freePtr (h : Heap) (p : ℕ) : Except Fault Heap := if p = 0 then .ok h else free h p

/-- The loop of `queue_fatal` from `curr` on: the nodes it has freed in the end, and the node
it stops at. -/
def queueFatalFrom : ℕ → ℕ → Heap → Except Fault (List ℕ × ℕ × Heap)
  | 0, _, _ => .error .outOfFuel
  | fuel + 1, curr, h => do
      let node ← readNode h curr
      if node.next = 0 then return ([], curr, h)
      else
        let temp := (← readNode h curr).next
        let h ← freePtr h (← readNode h curr).data
        let h ← free h curr
        let (freed, last, h) ← queueFatalFrom fuel temp h
        return (curr :: freed, last, h)

/-- `queue_fatal(q)`. -/
def queueFatal (fuel : ℕ) (q : Queue) (h : Heap) : Except Fault (List ℕ × ℕ × Heap) :=
  queueFatalFrom fuel q.head h

/-! ## What each part does to the heap -/

theorem bind_of_ok {α β : Type} {x : Except Fault α} {a : α} (h : x = .ok a)
    (f : α → Except Fault β) : (x >>= f) = f a := by
  rw [h]
  rfl

section Accesses

variable (h : Heap) (p a : ℕ)

theorem lookup_insert (b : Block) :
    (h.insert a b).lookup p = if p = a then some b else h.lookup p := by
  by_cases hp : p = a
  · subst hp
    rw [if_pos rfl, Finmap.lookup_insert]
  · rw [if_neg hp, Finmap.lookup_insert_of_ne _ hp]

theorem lookup_erase : (h.erase a).lookup p = if p = a then none else h.lookup p := by
  by_cases hp : p = a
  · subst hp
    rw [if_pos rfl, Finmap.lookup_erase]
  · rw [if_neg hp, Finmap.lookup_erase_ne hp]

variable {h p}

theorem bind_readNode {α : Type} {n : Node} (hp : h.lookup p = some (.node n))
    (f : Node → Except Fault α) : (readNode h p >>= f) = f n := by
  rw [readNode, hp]
  rfl

theorem editNode_of_lookup {n : Node} (hp : h.lookup p = some (.node n)) (edit : Node → Node) :
    editNode h p edit = .ok (h.insert p (.node (edit n))) := by
  rw [editNode, bind_readNode hp]
  rfl

theorem bind_editNode {α : Type} {n : Node} (hp : h.lookup p = some (.node n))
    (edit : Node → Node) (f : Heap → Except Fault α) :
    (editNode h p edit >>= f) = f (h.insert p (.node (edit n))) := by
  rw [editNode_of_lookup hp]
  rfl

theorem bind_readBuffer {α : Type} {bs : Bytes} (hp : h.lookup p = some (.buffer bs))
    (f : Bytes → Except Fault α) : (readBuffer h p bs.length >>= f) = f bs := by
  rw [readBuffer, hp]
  dsimp only
  rw [if_pos (Nat.le_refl _), List.take_length]
  rfl

theorem writeBuffer_of_lookup {bs new : Bytes} (hp : h.lookup p = some (.buffer bs))
    (hlength : new.length = bs.length) :
    writeBuffer h p new = .ok (h.insert p (.buffer new)) := by
  rw [writeBuffer, hp]
  dsimp only
  rw [if_pos (Nat.le_of_eq hlength), hlength, List.drop_length, List.append_nil]

theorem bind_free {α : Type} {b : Block} (hp : h.lookup p = some b) (f : Heap → Except Fault α) :
    (free h p >>= f) = f (h.erase p) := by
  rw [free, if_pos (Finmap.mem_of_lookup_eq_some hp)]
  rfl

end Accesses

/-- What `queue_init` returns: two nodes that point at each other. What else the memory of
their fields held is still there. -/
structure InitStep (A : Allocator) (size : UInt32) (h : Heap) (q : Queue) (h' : Heap) : Prop where
  size : q.size = size
  head : q.head = A.nodeAt h
  tail : q.tail = A.nodeAt (h.insert q.head (.node (A.node h)))
  apart : q.head ≠ q.tail
  headNode : h'.lookup q.head = some (.node { A.node h with next := q.tail })
  tailNode : h'.lookup q.tail =
    some (.node { A.node (h.insert q.head (.node (A.node h))) with prev := q.head })

theorem queueInit_spec (A : Allocator) (size : UInt32) (h : Heap) :
    ∃ q h', queueInit A size h = .ok (q, h') ∧ InitStep A size h q h' := by
  generalize hhead : A.nodeAt h = head
  generalize hh₁ : h.insert head (.node (A.node h)) = h₁
  have hhead₁ : h₁.lookup head = some (.node (A.node h)) := by
    rw [← hh₁, lookup_insert, if_pos rfl]
  have hfresh : A.nodeAt h₁ ∉ h₁ := A.nodeAt_fresh h₁
  generalize htail : A.nodeAt h₁ = tail at hfresh
  have hne : head ≠ tail := by
    rintro rfl
    exact hfresh (Finmap.mem_of_lookup_eq_some hhead₁)
  generalize hh₂ : h₁.insert tail (.node (A.node h₁)) = h₂
  have hhead₂ : h₂.lookup head = some (.node (A.node h)) := by
    rw [← hh₂, lookup_insert, if_neg hne, hhead₁]
  generalize hh₃ : h₂.insert head (.node { A.node h with next := tail }) = h₃
  have htail₃ : h₃.lookup tail = some (.node (A.node h₁)) := by
    rw [← hh₃, lookup_insert, if_neg hne.symm, ← hh₂, lookup_insert, if_pos rfl]
  generalize hh₄ : h₃.insert tail (.node { A.node h₁ with prev := head }) = h₄
  have hhead₄ : h₄.lookup head = some (.node { A.node h with next := tail }) := by
    rw [← hh₄, lookup_insert, if_neg hne, ← hh₃, lookup_insert, if_pos rfl]
  have htail₄ : h₄.lookup tail = some (.node { A.node h₁ with prev := head }) := by
    rw [← hh₄, lookup_insert, if_pos rfl]
  refine ⟨⟨head, tail, size⟩, h₄, ?_, rfl, hhead.symm, ?_, hne, hhead₄, ?_⟩
  · rw [queueInit, hhead, hh₁, htail, hh₂, bind_editNode hhead₂, hh₃, bind_editNode htail₃, hh₄]
    rfl
  · show tail = A.nodeAt (h.insert head (.node (A.node h)))
    rw [hh₁, htail]
  · show h₄.lookup tail =
      some (.node { A.node (h.insert head (.node (A.node h))) with prev := head })
    rw [hh₁, htail₄]

/-- The new node lies between the head and what was behind it. -/
theorem queueLink_spec {q : Queue} {new : ℕ} {h : Heap} {newNode headNode firstNode : Node}
    (hnew : h.lookup new = some (.node newNode)) (hhead : h.lookup q.head = some (.node headNode))
    (hfirst : h.lookup headNode.next = some (.node firstNode)) (hfirstHead : headNode.next ≠ q.head)
    (hnewHead : new ≠ q.head) (hnewFirst : new ≠ headNode.next) :
    ∃ h', queueLink q new h = .ok h' ∧ ∀ p, h'.lookup p =
      if p = q.head then some (.node { headNode with next := new })
      else if p = new then some (.node { newNode with next := headNode.next, prev := q.head })
      else if p = headNode.next then some (.node { firstNode with prev := new })
      else h.lookup p := by
  -- the heaps after the first three assignments
  generalize hh₁ : h.insert headNode.next (.node { firstNode with prev := new }) = h₁
  generalize hh₂ : h₁.insert new (.node { newNode with next := headNode.next }) = h₂
  generalize hh₃ : h₂.insert new (.node { newNode with next := headNode.next, prev := q.head }) = h₃
  have hhead₁ : h₁.lookup q.head = some (.node headNode) := by
    rw [← hh₁, lookup_insert, if_neg hfirstHead.symm, hhead]
  have hnew₁ : h₁.lookup new = some (.node newNode) := by
    rw [← hh₁, lookup_insert, if_neg hnewFirst, hnew]
  have hnew₂ : h₂.lookup new = some (.node { newNode with next := headNode.next }) := by
    rw [← hh₂, lookup_insert, if_pos rfl]
  have hhead₃ : h₃.lookup q.head = some (.node headNode) := by
    rw [← hh₃, lookup_insert, if_neg hnewHead.symm, ← hh₂, lookup_insert, if_neg hnewHead.symm,
      hhead₁]
  refine ⟨h₃.insert q.head (.node { headNode with next := new }), ?_, ?_⟩
  · rw [queueLink, bind_readNode hhead, bind_editNode hfirst, hh₁, bind_readNode hhead₁,
      bind_editNode hnew₁, hh₂, bind_editNode hnew₂, hh₃, editNode_of_lookup hhead₃]
  · intro p
    rw [lookup_insert, ← hh₃, lookup_insert, ← hh₂, lookup_insert, ← hh₁, lookup_insert]
    by_cases hp : p = new
    · rw [if_pos hp, if_pos hp]
    · rw [if_neg hp, if_neg hp, if_neg hp]

/-- The node has a buffer with the bytes, and knows how many they are. -/
theorem queueFill_spec (A : Allocator) {new : ℕ} {newNode : Node} (data : Mem) (size : UInt32)
    {h : Heap} (hnew : h.lookup new = some (.node newNode)) :
    ∃ buffer h', buffer ∉ h ∧ queueFill A new data size h = .ok h' ∧ ∀ p, h'.lookup p =
      if p = buffer then some (.buffer (data.slice 0 size.toNat))
      else if p = new then some (.node { newNode with data := buffer, size := size })
      else h.lookup p := by
  have hfresh : A.bufferAt size.toNat h ∉ h := A.bufferAt_fresh size.toNat h
  have hlength : (A.buffer size.toNat h).length = size.toNat := A.buffer_length size.toNat h
  generalize hbuffer : A.bufferAt size.toNat h = buffer at hfresh
  have hne : new ≠ buffer := by
    rintro rfl
    exact hfresh (Finmap.mem_of_lookup_eq_some hnew)
  generalize hh₁ : h.insert buffer (.buffer (A.buffer size.toNat h)) = h₁
  generalize hh₂ : h₁.insert new (.node { newNode with data := buffer }) = h₂
  generalize hh₃ : h₂.insert new (.node { newNode with data := buffer, size := size }) = h₃
  have hnew₁ : h₁.lookup new = some (.node newNode) := by
    rw [← hh₁, lookup_insert, if_neg hne, hnew]
  have hnew₂ : h₂.lookup new = some (.node { newNode with data := buffer }) := by
    rw [← hh₂, lookup_insert, if_pos rfl]
  have hnew₃ : h₃.lookup new = some (.node { newNode with data := buffer, size := size }) := by
    rw [← hh₃, lookup_insert, if_pos rfl]
  have hbuffer₃ : h₃.lookup buffer = some (.buffer (A.buffer size.toNat h)) := by
    rw [← hh₃, lookup_insert, if_neg hne.symm, ← hh₂, lookup_insert, if_neg hne.symm, ← hh₁,
      lookup_insert, if_pos rfl]
  refine ⟨buffer, h₃.insert buffer (.buffer (data.slice 0 size.toNat)), hfresh, ?_, ?_⟩
  · rw [queueFill, hbuffer, hh₁, bind_editNode hnew₁, hh₂, bind_editNode hnew₂, hh₃,
      bind_readNode hnew₃, writeBuffer_of_lookup hbuffer₃ (by rw [Mem.slice_length, hlength])]
  · intro p
    rw [lookup_insert, ← hh₃, lookup_insert, ← hh₂, lookup_insert, ← hh₁, lookup_insert]
    by_cases hbuf : p = buffer
    · rw [if_pos hbuf, if_pos hbuf]
    · rw [if_neg hbuf, if_neg hbuf, if_neg hbuf]
      by_cases hp : p = new
      · rw [if_pos hp, if_pos hp]
      · rw [if_neg hp, if_neg hp, if_neg hp]

/-- The neighbours of the last node point at each other. -/
theorem queueUnlink_spec {q : Queue} {h : Heap} {tailNode lastNode beforeNode : Node}
    (htail : h.lookup q.tail = some (.node tailNode))
    (hlast : h.lookup tailNode.prev = some (.node lastNode))
    (hbefore : h.lookup lastNode.prev = some (.node beforeNode))
    (hbeforeTail : lastNode.prev ≠ q.tail) (hbeforeLast : lastNode.prev ≠ tailNode.prev) :
    ∃ h', queueUnlink q h = .ok h' ∧ ∀ p, h'.lookup p =
      if p = q.tail then some (.node { tailNode with prev := lastNode.prev })
      else if p = lastNode.prev then some (.node { beforeNode with next := q.tail })
      else h.lookup p := by
  generalize hh₁ : h.insert lastNode.prev (.node { beforeNode with next := q.tail }) = h₁
  have htail₁ : h₁.lookup q.tail = some (.node tailNode) := by
    rw [← hh₁, lookup_insert, if_neg hbeforeTail.symm, htail]
  have hlast₁ : h₁.lookup tailNode.prev = some (.node lastNode) := by
    rw [← hh₁, lookup_insert, if_neg hbeforeLast.symm, hlast]
  refine ⟨h₁.insert q.tail (.node { tailNode with prev := lastNode.prev }), ?_, ?_⟩
  · rw [queueUnlink, bind_readNode htail, bind_readNode hlast, bind_editNode hbefore, hh₁,
      bind_readNode htail₁, bind_readNode hlast₁, editNode_of_lookup htail₁]
  · intro p
    rw [lookup_insert, ← hh₁, lookup_insert]

/-- What `queue_enqueue` does to the heap: two new blocks, and a pointer of each neighbour. -/
structure EnqueueStep (q : Queue) (headNode firstNode newNode : Node) (new : ℕ) (bytes : Bytes)
    (h h' : Heap) : Prop where
  new_fresh : new ∉ h
  data_fresh : newNode.data ∉ h
  data_ne_new : newNode.data ≠ new
  prev : newNode.prev = q.head
  next : newNode.next = headNode.next
  lookup : ∀ p, h'.lookup p =
    if p = newNode.data then some (.buffer bytes)
    else if p = new then some (.node newNode)
    else if p = q.head then some (.node { headNode with next := new })
    else if p = headNode.next then some (.node { firstNode with prev := new })
    else h.lookup p

theorem queueEnqueue_spec (A : Allocator) {q : Queue} (data : Mem) (size : UInt32) {h : Heap}
    {headNode firstNode : Node} (hhead : h.lookup q.head = some (.node headNode))
    (hfirst : h.lookup headNode.next = some (.node firstNode))
    (hfirstHead : headNode.next ≠ q.head) :
    ∃ newNode h', newNode.size = size ∧
      queueEnqueue A q data size h = .ok ({ q with size := q.size + 1 }, h') ∧
      EnqueueStep q headNode firstNode newNode (A.nodeAt h) (data.slice 0 size.toNat) h h' := by
  have hfresh : A.nodeAt h ∉ h := A.nodeAt_fresh h
  generalize hnew : A.nodeAt h = new at hfresh ⊢
  have hnewHead : new ≠ q.head := by
    rintro rfl
    exact hfresh (Finmap.mem_of_lookup_eq_some hhead)
  have hnewFirst : new ≠ headNode.next := by
    rintro rfl
    exact hfresh (Finmap.mem_of_lookup_eq_some hfirst)
  generalize hh₁ : h.insert new (.node (A.node h)) = h₁
  have hnew₁ : h₁.lookup new = some (.node (A.node h)) := by
    rw [← hh₁, lookup_insert, if_pos rfl]
  have hold₁ : ∀ p, p ≠ new → h₁.lookup p = h.lookup p := by
    intro p hp
    rw [← hh₁, lookup_insert, if_neg hp]
  obtain ⟨h₂, hlink, hlookup₂⟩ := queueLink_spec hnew₁ ((hold₁ _ hnewHead.symm).trans hhead)
    ((hold₁ _ hnewFirst.symm).trans hfirst) hfirstHead hnewHead hnewFirst
  have hnew₂ : h₂.lookup new = some (.node { A.node h with
      next := headNode.next, prev := q.head }) := by
    rw [hlookup₂, if_neg hnewHead, if_pos rfl]
  obtain ⟨buffer, h₃, hfreshBuffer, hfill, hlookup₃⟩ := queueFill_spec A data size hnew₂
  -- what was allocated before is still allocated
  have hkept : ∀ p, p ∉ h₂ → p ≠ new ∧ p ∉ h := by
    intro p hp
    have hnone : h₂.lookup p = none := Finmap.lookup_eq_none.mpr hp
    rw [hlookup₂] at hnone
    split at hnone
    · cases hnone
    · split at hnone
      · cases hnone
      · next hpnew =>
          split at hnone
          · cases hnone
          · rw [hold₁ p hpnew] at hnone
            exact ⟨hpnew, Finmap.lookup_eq_none.mp hnone⟩
  obtain ⟨hbufferNew, hbufferFresh⟩ := hkept buffer hfreshBuffer
  refine ⟨⟨q.head, headNode.next, size, buffer⟩, h₃, rfl, ?_, hfresh, hbufferFresh,
    hbufferNew, rfl, rfl, ?_⟩
  · rw [queueEnqueue, hnew, hh₁, bind_of_ok hlink, bind_of_ok hfill]
    rfl
  · intro p
    rw [hlookup₃, hlookup₂]
    by_cases hp : p = new
    · rw [if_pos hp, if_pos hp]
    · rw [if_neg hp, if_neg hp, if_neg hp, hold₁ p hp]

/-- What `queue_dequeue` does to the heap: two blocks are freed, and a pointer of each
neighbour changes. -/
structure DequeueStep (q : Queue) (tailNode lastNode beforeNode : Node) (h h' : Heap) : Prop where
  lookup : ∀ p, h'.lookup p =
    if p = tailNode.prev then none
    else if p = lastNode.data then none
    else if p = q.tail then some (.node { tailNode with prev := lastNode.prev })
    else if p = lastNode.prev then some (.node { beforeNode with next := q.tail })
    else h.lookup p

theorem queueDequeue_spec {q : Queue} (dest : Mem) {h : Heap}
    {tailNode lastNode beforeNode : Node} {bytes : Bytes} (hsize : q.size ≠ 0)
    (htail : h.lookup q.tail = some (.node tailNode))
    (hlast : h.lookup tailNode.prev = some (.node lastNode))
    (hbytes : h.lookup lastNode.data = some (.buffer bytes))
    (hlength : lastNode.size.toNat = bytes.length)
    (hbefore : h.lookup lastNode.prev = some (.node beforeNode))
    (hlastTail : tailNode.prev ≠ q.tail) (hbeforeTail : lastNode.prev ≠ q.tail)
    (hbeforeLast : lastNode.prev ≠ tailNode.prev) :
    ∃ h', queueDequeue q dest h =
        .ok ⟨lastNode.size, dest.write 0 bytes, { q with size := q.size - 1 }, h'⟩ ∧
      DequeueStep q tailNode lastNode beforeNode h h' := by
  obtain ⟨h₁, hunlink, hlookup₁⟩ :=
    queueUnlink_spec htail hlast hbefore hbeforeTail hbeforeLast
  have hdata : ∀ {p n}, h.lookup p = some (.node n) → lastNode.data ≠ p := by
    rintro p n hp rfl
    rw [hbytes] at hp
    cases hp
  have hlast₁ : h₁.lookup tailNode.prev = some (.node lastNode) := by
    rw [hlookup₁, if_neg hlastTail, if_neg hbeforeLast.symm, hlast]
  have hbytes₁ : h₁.lookup lastNode.data = some (.buffer bytes) := by
    rw [hlookup₁, if_neg (hdata htail), if_neg (hdata hbefore), hbytes]
  have hlast₂ : (h₁.erase lastNode.data).lookup tailNode.prev = some (.node lastNode) := by
    rw [lookup_erase, if_neg (hdata hlast).symm, hlast₁]
  refine ⟨(h₁.erase lastNode.data).erase tailNode.prev, ?_, ⟨?_⟩⟩
  · rw [queueDequeue, if_neg hsize]
    dsimp only
    rw [bind_readNode htail, bind_readNode hlast, hlength, bind_readBuffer hbytes,
      bind_readNode htail, bind_readNode hlast, bind_of_ok hunlink, bind_readNode hlast₁,
      bind_free hbytes₁, bind_free hlast₂]
    rfl
  · intro p
    rw [lookup_erase, lookup_erase, hlookup₁]

end Freecoin
