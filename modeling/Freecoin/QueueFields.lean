import Freecoin.Fifo
import Freecoin.Lib.Run
import Freecoin.Lib.Traced

/-!
# queue.c: fields that are read before they are written

The functions of the queue once more, with the fields of the `Queue` and of its nodes that
they read and write, in the order of the source.

Each computes what it computes without this trace, and for each it is said which fields
must be written before it, and which are behind it.
-/

namespace Freecoin

open Lib Lib.Traced

/-- A field of a `Node`. -/
inductive NodeField : Type where
  | prev
  | next
  | size
  | data
deriving DecidableEq

/-- A field of the `Queue`, or of the node at an address. -/
inductive Place : Type where
  | head
  | tail
  | size
  | node (p : ℕ) (f : NodeField)
deriving DecidableEq

abbrev QueueTrace (α : Type) : Type := Traced (Access Place) Fault α

namespace Fields

/-- `malloc(sizeof(Node))`. -/
def freshNode (p : ℕ) : QueueTrace Unit := do
  event (.fresh (.node p .prev))
  event (.fresh (.node p .next))
  event (.fresh (.node p .size))
  event (.fresh (.node p .data))

/-- `p->f`. -/
def readField (h : Heap) (p : ℕ) (f : NodeField) : QueueTrace Node := do
  event (.read (.node p f))
  lift (readNode h p)

/-- `p->f = ..`. -/
def writeField (h : Heap) (p : ℕ) (f : NodeField) (edit : Node → Node) : QueueTrace Heap := do
  event (.write (.node p f))
  lift (editNode h p edit)

/-- `queue_init()`. -/
def queueInit (A : Allocator) (size : UInt32) (h : Heap) : QueueTrace (Queue × Heap) := do
  event (.fresh .head)
  event (.fresh .tail)
  event (.fresh .size)
  let head := A.nodeAt h
  let h := h.insert head (.node (A.node h))
  freshNode head
  event (.write .head)
  let tail := A.nodeAt h
  let h := h.insert tail (.node (A.node h))
  freshNode tail
  event (.write .tail)
  event (.read .tail)
  event (.read .head)
  let h ← writeField h head .next fun n => { n with next := tail }
  event (.read .head)
  event (.read .tail)
  let h ← writeField h tail .prev fun n => { n with prev := head }
  return (⟨head, tail, size⟩, h)

/-- The assignments of `queue_enqueue` that put the node `new` behind the head. -/
def queueLink (q : Queue) (new : ℕ) (h : Heap) : QueueTrace Heap := do
  -- q->head->next->prev = new
  event (.read .head)
  let head ← readField h q.head .next
  let h ← writeField h head.next .prev fun n => { n with prev := new }
  -- new->next = q->head->next
  event (.read .head)
  let head ← readField h q.head .next
  let h ← writeField h new .next fun n => { n with next := head.next }
  event (.read .head)
  let h ← writeField h new .prev fun n => { n with prev := q.head }
  event (.read .head)
  writeField h q.head .next fun n => { n with next := new }

/-- Those that give it a buffer of its own. -/
def queueFill (A : Allocator) (new : ℕ) (data : Mem) (size : UInt32) (h : Heap) :
    QueueTrace Heap := do
  let buffer := A.bufferAt size.toNat h
  let h := h.insert buffer (.buffer (A.buffer size.toNat h))
  let h ← writeField h new .data fun n => { n with data := buffer }
  let h ← writeField h new .size fun n => { n with size := size }
  let node ← readField h new .data
  lift (writeBuffer h node.data (data.slice 0 size.toNat))

/-- `queue_enqueue(q, data, size)` but for its last statement. -/
def queuePut (A : Allocator) (q : Queue) (data : Mem) (size : UInt32) (h : Heap) :
    QueueTrace Heap := do
  let new := A.nodeAt h
  let h := h.insert new (.node (A.node h))
  freshNode new
  let h ← queueLink q new h
  queueFill A new data size h

/-- `queue_enqueue(q, data, size)`. -/
def queueEnqueue (A : Allocator) (q : Queue) (data : Mem) (size : UInt32) (h : Heap) :
    QueueTrace (Queue × Heap) := do
  let h ← queuePut A q data size h
  -- q->size++
  event (.read .size)
  event (.write .size)
  return ({ q with size := q.size + 1 }, h)

/-- The assignments of `queue_dequeue` that take out the node before the tail. -/
def queueUnlink (q : Queue) (h : Heap) : QueueTrace Heap := do
  -- q->tail->prev->prev->next = q->tail
  event (.read .tail)
  event (.read .tail)
  let tail ← readField h q.tail .prev
  let last ← readField h tail.prev .prev
  let h ← writeField h last.prev .next fun n => { n with next := q.tail }
  -- q->tail->prev = q->tail->prev->prev
  event (.read .tail)
  let tail ← readField h q.tail .prev
  let last ← readField h tail.prev .prev
  event (.read .tail)
  writeField h q.tail .prev fun n => { n with prev := last.prev }

/-- `queue_dequeue(q, dest)` behind the test for an empty queue. -/
def queueTake (q : Queue) (dest : Mem) (h : Heap) : QueueTrace Dequeued := do
  -- memcpy(dest, q->tail->prev->data, q->tail->prev->size)
  event (.read .tail)
  let tail ← readField h q.tail .prev
  let last ← readField h tail.prev .data
  event (.read .tail)
  event (.read (.node q.tail .prev))
  event (.read (.node tail.prev .size))
  let bytes ← lift (readBuffer h last.data last.size.toNat)
  let dest := dest.write 0 bytes
  event (.read .tail)
  let tail ← readField h q.tail .prev
  let temp := tail.prev
  let node ← readField h temp .size
  let retval := node.size
  let h ← queueUnlink q h
  let node ← readField h temp .data
  let h ← lift (free h node.data)
  let h ← lift (free h temp)
  event (.read .size)
  event (.write .size)
  return ⟨retval, dest, { q with size := q.size - 1 }, h⟩

/-- `queue_dequeue(q, dest)`. -/
def queueDequeue (q : Queue) (dest : Mem) (h : Heap) : QueueTrace Dequeued := do
  event (.read .size)
  if q.size = 0 then lift (.error (.fatal "Dequeue attempted on empty queue"))
  else queueTake q dest h

/-- The loop of `queue_fatal`. -/
def queueFatalFrom : ℕ → ℕ → Heap → QueueTrace (List ℕ × ℕ × Heap)
  | 0, _, _ => lift (.error .outOfFuel)
  | fuel + 1, curr, h => do
      let node ← readField h curr .next
      if node.next = 0 then return ([], curr, h)
      else
        let node ← readField h curr .next
        let temp := node.next
        let node ← readField h curr .data
        let h ← lift (freePtr h node.data)
        let h ← lift (free h curr)
        let (freed, last, h) ← queueFatalFrom fuel temp h
        return (curr :: freed, last, h)

/-- `queue_fatal(q)`. -/
def queueFatal (fuel : ℕ) (q : Queue) (h : Heap) : QueueTrace (List ℕ × ℕ × Heap) := do
  event (.read .head)
  queueFatalFrom fuel q.head h

/-- A call of the queue. -/
def call (A : Allocator) (q : Queue) (h : Heap) :
    QueueCall → QueueTrace (QueueAnswer × Queue × Heap)
  | .enqueue data size => do
      let (q, h) ← queueEnqueue A q data size h
      return (.done, q, h)
  | .dequeue dest => do
      let out ← queueDequeue q dest h
      return (.copied out.ret out.dest, out.queue, out.heap)

/-- The calls of a program one after the other. -/
def queueRun (A : Allocator) : List QueueCall → Queue → Heap →
    QueueTrace (List QueueAnswer × Queue × Heap)
  | [], q, h => return ([], q, h)
  | c :: rest, q, h => do
      let (answer, q, h) ← call A q h c
      let (answers, q, h) ← queueRun A rest q h
      return (answer :: answers, q, h)

/-! ## What they compute -/

theorem queueInit_result (A : Allocator) (size : UInt32) (h : Heap) :
    (queueInit A size h).result = Freecoin.queueInit A size h := rfl

theorem queueEnqueue_result (A : Allocator) (q : Queue) (data : Mem) (size : UInt32) (h : Heap) :
    (queueEnqueue A q data size h).result = Freecoin.queueEnqueue A q data size h := by
  show ((Freecoin.queueLink q (A.nodeAt h) (h.insert (A.nodeAt h) (.node (A.node h))) >>=
    fun h' => Freecoin.queueFill A (A.nodeAt h) data size h') >>=
      fun h' => pure ({ q with size := q.size + 1 }, h')) = _
  rw [bind_assoc]
  rfl

theorem queueDequeue_result (q : Queue) (dest : Mem) (h : Heap) :
    (queueDequeue q dest h).result = Freecoin.queueDequeue q dest h := by
  rw [queueDequeue, Freecoin.queueDequeue]
  by_cases hsize : q.size = 0
  · rw [if_pos hsize, if_pos hsize]
    rfl
  · rw [if_neg hsize, if_neg hsize]
    rfl

theorem queueFatalFrom_result : ∀ (fuel curr : ℕ) (h : Heap),
    (queueFatalFrom fuel curr h).result = Freecoin.queueFatalFrom fuel curr h := by
  intro fuel
  induction fuel with
  | zero => intro curr h; rfl
  | succ fuel ih =>
      intro curr h
      rw [queueFatalFrom, Freecoin.queueFatalFrom, result_bind]
      refine bind_congr fun node => ?_
      split
      · rfl
      · refine bind_congr fun node => bind_congr fun node' => bind_congr fun h => ?_
        refine bind_congr fun h => ?_
        rw [result_bind, ih]
        rfl

theorem queueFatal_result (fuel : ℕ) (q : Queue) (h : Heap) :
    (queueFatal fuel q h).result = Freecoin.queueFatal fuel q h :=
  queueFatalFrom_result fuel q.head h

theorem call_result (A : Allocator) (q : Queue) (h : Heap) (c : QueueCall) :
    (call A q h c).result = c.run A q h := by
  cases c with
  | enqueue data size =>
      rw [call, QueueCall.run, result_bind, queueEnqueue_result]
      rfl
  | dequeue dest =>
      rw [call, QueueCall.run, result_bind, queueDequeue_result]
      rfl

theorem queueRun_result (A : Allocator) : ∀ (calls : List QueueCall) (q : Queue) (h : Heap),
    (queueRun A calls q h).result = Freecoin.queueRun A calls q h := by
  intro calls
  induction calls with
  | nil => intro q h; rfl
  | cons c rest ih =>
      intro q h
      rw [queueRun, Freecoin.queueRun, result_bind, call_result]
      refine bind_congr fun out => ?_
      rw [result_bind, ih]
      rfl

/-! ## What they read -/

section Rules

variable {β : Type} {h : Heap} {p : ℕ} {f : NodeField} {w : Finset Place}
  {post : β → Finset Place → Prop}

theorem readNode_of_lookup {n n' : Node} (hp : h.lookup p = some (.node n))
    (hread : readNode h p = .ok n') : n' = n := by
  rw [readNode, hp] at hread
  exact (Except.ok.inj hread).symm

theorem editNode_of_ok {n : Node} {edit : Node → Node} {h' : Heap}
    (hp : h.lookup p = some (.node n)) (hedit : editNode h p edit = .ok h') :
    h' = h.insert p (.node (edit n)) := by
  rw [editNode_of_lookup hp] at hedit
  exact (Except.ok.inj hedit).symm

theorem readField_bind {g : Node → QueueTrace β} (hp : .node p f ∈ w)
    (hg : ∀ n, readNode h p = .ok n → Follows w (g n) post) :
    Follows w (readField h p f >>= g) post := by
  have hread : Follows w (readField h p f) fun n w' => w' = w ∧ readNode h p = .ok n :=
    .read_bind hp (.lift fun n hn => ⟨rfl, hn⟩)
  refine hread.bind ?_
  rintro n w' - ⟨rfl, hn⟩
  exact hg n hn

theorem writeField_bind {edit : Node → Node} {g : Heap → QueueTrace β}
    (hg : ∀ h', editNode h p edit = .ok h' → Follows (insert (.node p f) w) (g h') post) :
    Follows w (writeField h p f edit >>= g) post := by
  have hwrite : Follows w (writeField h p f edit) fun h' w' =>
      w' = insert (.node p f) w ∧ editNode h p edit = .ok h' :=
    .write_bind (.lift fun h' hh' => ⟨rfl, hh'⟩)
  refine hwrite.bind ?_
  rintro h' w' - ⟨rfl, hh'⟩
  exact hg h' hh'

/-- No field of a new node has been written. -/
theorem freshNode_bind {g : Unit → QueueTrace β}
    (hg : ∀ w', (∀ c, c ∈ w' ↔ c ∈ w ∧ ∀ f, c ≠ .node p f) → Follows w' (g ()) post) :
    Follows w (freshNode p >>= g) post := by
  have hfresh : Follows w (freshNode p) fun _ w' => ∀ c, c ∈ w' ↔ c ∈ w ∧ ∀ f, c ≠ .node p f := by
    refine .fresh_bind (.fresh_bind (.fresh_bind ⟨trivial, ?_⟩))
    intro _ _ c
    simp only [events_event, writtenAfter, Finset.mem_erase]
    constructor
    · rintro ⟨hdata, hsize, hnext, hprev, hc⟩
      refine ⟨hc, fun f => ?_⟩
      cases f <;> assumption
    · rintro ⟨hc, hf⟩
      exact ⟨hf .data, hf .size, hf .next, hf .prev, hc⟩
  exact hfresh.bind fun _ w' _ hw' => hg w' hw'

end Rules

section Init

variable (A : Allocator) (size : UInt32) (h : Heap)

/-- `queue_init` reads only what it has written, and writes four fields. -/
theorem queueInit_follows : Follows ∅ (queueInit A size h) fun out w =>
    ∀ c, c ∈ w ↔ c = .head ∨ c = .tail ∨ c = .node out.1.head .next ∨
      c = .node out.1.tail .prev := by
  rw [queueInit]
  refine .fresh_bind (.fresh_bind (.fresh_bind ?_))
  refine freshNode_bind fun w₁ hw₁ => ?_
  refine .write_bind ?_
  refine freshNode_bind fun w₂ hw₂ => ?_
  have hwritten : ∀ c, c ∈ w₂ ↔ c = .head := by
    intro c
    rw [hw₂, Finset.mem_insert, hw₁]
    constructor
    · rintro ⟨hc | ⟨hc, -⟩, -⟩
      · exact hc
      · simp at hc
    · rintro rfl
      exact ⟨.inl rfl, by simp⟩
  refine .write_bind (.read_bind (by simp) (.read_bind (by simp [hwritten]) ?_))
  refine writeField_bind fun _ _ => ?_
  refine .read_bind (by simp [hwritten]) (.read_bind (by simp) ?_)
  refine writeField_bind fun _ _ => .pure ?_
  intro c
  simp only [Finset.mem_insert, hwritten]
  tauto

variable {A size h} {q : Queue} {h' : Heap}

theorem queueInit_written (hinit : Freecoin.queueInit A size h = .ok (q, h')) (c : Place) :
    c ∈ writtenAfter ∅ (queueInit A size h).events ↔
      c = .head ∨ c = .tail ∨ c = .node q.head .next ∨ c = .node q.tail .prev :=
  (queueInit_follows A size h).done (q, h') hinit c

end Init

section Enqueue

variable {A : Allocator} {q : Queue} {new : ℕ} {h : Heap} {w : Finset Place}

theorem queueLink_follows (hhead : .head ∈ w) (hnext : .node q.head .next ∈ w) :
    Follows w (queueLink q new h) fun _ w' =>
      (∀ c, c = .node new .prev ∨ c = .node new .next ∨ c ∈ w → c ∈ w') ∧
      (Place.size ∈ w' → Place.size ∈ w) := by
  rw [queueLink]
  refine .read_bind hhead ?_
  refine readField_bind hnext fun _ _ => ?_
  refine writeField_bind fun _ _ => ?_
  refine .read_bind (by simp [hhead]) ?_
  refine readField_bind (by simp [hnext]) fun _ _ => ?_
  refine writeField_bind fun _ _ => ?_
  refine .read_bind (by simp [hhead]) ?_
  refine writeField_bind fun _ _ => ?_
  refine .read_bind (by simp [hhead]) ?_
  refine .write_bind (.lift fun _ _ => ⟨?_, ?_⟩)
  · intro c hc
    simp only [Finset.mem_insert]
    tauto
  · simp

theorem queueFill_follows (data : Mem) (size : UInt32) :
    Follows w (queueFill A new data size h) fun _ w' =>
      w' = insert (.node new .size) (insert (.node new .data) w) := by
  rw [queueFill]
  refine writeField_bind fun _ _ => ?_
  refine writeField_bind fun _ _ => ?_
  refine readField_bind (by simp) fun _ _ => ?_
  exact .lift fun _ _ => rfl

/-- Every field of the new node is written, whatever is on the heap. -/
theorem queuePut_follows (data : Mem) (size : UInt32) (hhead : .head ∈ w)
    (hnext : .node q.head .next ∈ w) (hnew : q.head ≠ A.nodeAt h) :
    Follows w (queuePut A q data size h) fun _ w' =>
      (∀ c, c ∈ w ∨ (∃ f, c = .node (A.nodeAt h) f) → c ∈ w') ∧
      (Place.size ∈ w' → Place.size ∈ w) := by
  rw [queuePut]
  refine freshNode_bind fun w₁ hw₁ => ?_
  have hlink : Follows w₁ (queueLink q (A.nodeAt h) (h.insert (A.nodeAt h) (.node (A.node h)))) _ :=
    queueLink_follows ((hw₁ _).mpr ⟨hhead, by simp⟩) ((hw₁ _).mpr ⟨hnext, by simp [hnew]⟩)
  refine hlink.bind fun h₂ w₂ _ hw₂ => ?_
  obtain ⟨hlinked, hsize₂⟩ := hw₂
  have hfill : Follows w₂ (queueFill A (A.nodeAt h) data size h₂) _ := queueFill_follows data size
  refine ⟨hfill.reads, fun h₃ hh₃ => ?_⟩
  rw [hfill.done h₃ hh₃]
  constructor
  · intro c hc
    simp only [Finset.mem_insert]
    by_cases hnode : ∃ f, c = .node (A.nodeAt h) f
    · obtain ⟨f, rfl⟩ := hnode
      cases f with
      | prev => exact .inr (.inr (hlinked _ (.inl rfl)))
      | next => exact .inr (.inr (hlinked _ (.inr (.inl rfl))))
      | size => exact .inl rfl
      | data => exact .inr (.inl rfl)
    · have hold : c ∈ w₁ := (hw₁ c).mpr ⟨hc.resolve_right hnode, not_exists.mp hnode⟩
      exact .inr (.inr (hlinked c (.inr (.inr hold))))
  · intro hmem
    have hmem₂ : Place.size ∈ w₂ := by simpa using hmem
    exact ((hw₁ _).mp (hsize₂ hmem₂)).1

theorem queueEnqueue_follows (data : Mem) (size : UInt32) (hhead : .head ∈ w)
    (hsize : .size ∈ w) (hnext : .node q.head .next ∈ w) (hnew : q.head ≠ A.nodeAt h) :
    Follows w (queueEnqueue A q data size h) fun _ w' =>
      ∀ c, c ∈ w ∨ (∃ f, c = .node (A.nodeAt h) f) → c ∈ w' := by
  rw [queueEnqueue]
  refine (queuePut_follows data size hhead hnext hnew).bind fun h' w' _ hw' => ?_
  refine .read_bind (hw'.1 _ (.inl hsize)) (.write_bind (.pure ?_))
  intro c hc
  exact Finset.mem_insert_of_mem (hw'.1 c hc)

/-- `queue_enqueue` reads the size, which it does not write before. -/
theorem queueEnqueue_reads_size {data : Mem} {size : UInt32} {out : Queue × Heap}
    (hhead : .head ∈ w) (hnext : .node q.head .next ∈ w) (hnew : q.head ≠ A.nodeAt h)
    (hok : (queueEnqueue A q data size h).result = .ok out)
    (hreads : ReadsWritten w (queueEnqueue A q data size h).events) : Place.size ∈ w := by
  have hput : Follows w (queuePut A q data size h) _ := queuePut_follows data size hhead hnext hnew
  rw [queueEnqueue, result_bind] at hok
  obtain ⟨h', hh', -⟩ := ok_of_bind hok
  rw [queueEnqueue, events_bind, hh', eventsAfter_ok, readsWritten_append] at hreads
  exact (hput.done h' hh').2 hreads.2.1

end Enqueue

end Fields

/-- The fields of a queue that its functions read: all fields of its entries, but not all of the
head and the tail. -/
def Needed (q : Queue) (es : List Entry) : Place → Prop
  | .head => True
  | .tail => True
  | .size => True
  | .node p f => p ∈ es.map Entry.node ∨ (p = q.head ∧ (f = .next ∨ f = .data)) ∨
      (p = q.tail ∧ (f = .prev ∨ f = .next))

namespace Fields

section Dequeue

variable {q : Queue} {es : List Entry} {e : Entry} {h : Heap} {w : Finset Place}
  {tailNode lastNode beforeNode : Node} (hat : AtTail q h es e tailNode lastNode beforeNode)

include hat

theorem queueUnlink_follows (htail : .tail ∈ w) (hprev : .node q.tail .prev ∈ w)
    (hlast : .node tailNode.prev .prev ∈ w) :
    Follows w (queueUnlink q h) fun _ w' => w ⊆ w' := by
  have hlookup : h.lookup tailNode.prev = some (.node lastNode) := hat.last ▸ hat.stored.node
  rw [queueUnlink]
  refine .read_bind htail (.read_bind htail ?_)
  refine readField_bind hprev fun n hn => ?_
  obtain rfl := readNode_of_lookup hat.tail hn
  refine readField_bind hlast fun n' hn' => ?_
  obtain rfl := readNode_of_lookup hlookup hn'
  refine writeField_bind fun h₁ hh₁ => ?_
  -- the tail still points at the last node
  have htail₁ : h₁.lookup q.tail = some (.node n) := by
    rw [editNode_of_ok hat.before hh₁, lookup_insert, if_neg hat.before_ne_tail.symm]
    exact hat.tail
  refine .read_bind (by simp [htail]) ?_
  refine readField_bind (by simp [hprev]) fun m hm => ?_
  obtain rfl := readNode_of_lookup htail₁ hm
  refine readField_bind (by simp [hlast]) fun _ _ => ?_
  refine .read_bind (by simp [htail]) ?_
  refine .write_bind (.lift fun _ _ => ?_)
  intro c hc
  simp [hc]

theorem queueDequeue_follows (dest : Mem) (hneeded : ∀ c, Needed q (es ++ [e]) c → c ∈ w) :
    Follows w (queueDequeue q dest h) fun _ w' => w ⊆ w' := by
  have htail : Place.tail ∈ w := hneeded _ trivial
  have hsize : Place.size ∈ w := hneeded _ trivial
  have hprev : Place.node q.tail .prev ∈ w := hneeded _ (.inr (.inr ⟨rfl, .inl rfl⟩))
  have hlast : ∀ f, Place.node tailNode.prev f ∈ w := by
    intro f
    apply hneeded
    rw [hat.last]
    exact .inl (by simp)
  rw [queueDequeue]
  refine .read_bind hsize ?_
  split
  · exact .lift fun _ hb => by cases hb
  rw [queueTake]
  refine .read_bind htail ?_
  refine readField_bind hprev fun n hn => ?_
  obtain rfl := readNode_of_lookup hat.tail hn
  refine readField_bind (hlast .data) fun _ _ => ?_
  refine .read_bind htail (.read_bind hprev (.read_bind (hlast .size) ?_))
  refine .lift_bind fun _ _ => ?_
  refine .read_bind htail ?_
  refine readField_bind hprev fun m hm => ?_
  obtain rfl := readNode_of_lookup hat.tail hm
  refine readField_bind (hlast .size) fun _ _ => ?_
  refine (queueUnlink_follows hat htail hprev (hlast .prev)).bind fun _ w' _ hw' => ?_
  refine readField_bind (hw' (hlast .data)) fun _ _ => ?_
  refine .lift_bind fun _ _ => .lift_bind fun _ _ => ?_
  refine .read_bind (hw' hsize) (.write_bind (.pure ?_))
  intro c hc
  exact Finset.mem_insert_of_mem (hw' hc)

end Dequeue

/-- A pass of the loop of `queue_fatal` reads `data`. -/
theorem queueFatalFrom_reads_data {fuel curr : ℕ} {h : Heap} {n : Node} {w : Finset Place}
    (hn : h.lookup curr = some (.node n)) (hnext : n.next ≠ 0)
    (hreads : ReadsWritten w (queueFatalFrom (fuel + 1) curr h).events) :
    .node curr .data ∈ w := by
  have hfield : ∀ f, (readField h curr f).result = .ok n := by
    intro f
    show readNode h curr = .ok n
    rw [readNode, hn]
  rw [queueFatalFrom, events_bind, hfield, eventsAfter_ok, if_neg hnext, events_bind, hfield,
    eventsAfter_ok, events_bind, readsWritten_append, readsWritten_append,
    readsWritten_append] at hreads
  exact hreads.2.2.1.1

end Fields

end Freecoin
