import Freecoin.QueueFields

/-!
# What `queue_init` leaves out

`queue_init` writes four fields, and three that are read later are not among them: `size`,
which the first call of `queue_enqueue` adds to, and `data` of the head and `next` of the
tail, which `queue_fatal` looks at. If the memory they lie in happens to be zero, all goes
as it should.
-/

namespace Freecoin

open Lib Lib.Traced

/-! ## A queue whose fields are written -/

/-- The queue holds the entries and all fields are written that its functions read. Of the
pointers, `data` of the head and `next` of the tail are null, and no link is. -/
structure QueueReady (q : Queue) (h : Heap) (es : List Entry) (w : Finset Place) : Prop where
  rep : QueueRep q h es
  needed : ∀ c, Needed q es c → c ∈ w
  headData : ∃ n, h.lookup q.head = some (.node n) ∧ n.data = 0
  tailNext : ∃ n, h.lookup q.tail = some (.node n) ∧ n.next = 0
  nonNull : ∀ p ∈ queueNodes q es, p ≠ 0

section Ready

variable {A : Allocator} {q : Queue} {h : Heap} {es : List Entry} {w : Finset Place}

theorem QueueRep.head_ne_tail (hrep : QueueRep q h es) : q.head ≠ q.tail := by
  intro heq
  apply (List.nodup_cons.mp hrep.nodup).1
  rw [heq]
  simp

/-- **`queue_enqueue`** on such a queue. -/
theorem QueueReady.enqueue (hready : QueueReady q h es w) (hnull : ∀ h, A.nodeAt h ≠ 0)
    (data : Mem) (size : UInt32) (hlt : es.length < 2 ^ 32 - 1) :
    ∃ e q' h',
      Follows w (Fields.queueEnqueue A q data size h) (fun _ => QueueReady q' h' (e :: es)) ∧
      queueEnqueue A q data size h = .ok (q', h') := by
  obtain ⟨headNode, firstNode, hat⟩ := hready.rep.atHead
  obtain ⟨newNode, h', hsize, hrun, hstep⟩ :=
    queueEnqueue_spec A data size hat.head hat.first hat.ne_head
  have hlength : newNode.size.toNat = (data.slice 0 size.toNat).length := by
    rw [hsize, Mem.slice_length]
  have hnew : q.head ≠ A.nodeAt h := fun heq =>
    hstep.new_fresh (heq ▸ Finmap.mem_of_lookup_eq_some hat.head)
  refine ⟨⟨A.nodeAt h, newNode.data, data.slice 0 size.toNat⟩, _, h', ?_, hrun⟩
  have hfollows := Fields.queueEnqueue_follows data size (hready.needed .head trivial)
    (hready.needed .size trivial)
    (hready.needed (.node q.head .next) (.inr (.inl ⟨rfl, .inl rfl⟩))) hnew
  refine ⟨hfollows.reads, fun out hout => ?_⟩
  have hwritten := hfollows.done out hout
  refine ⟨hstep.rep hat hready.rep hlength hlt, ?_, ?_, ?_, ?_⟩
  · intro c hc
    apply hwritten
    cases c with
    | head | tail | size => exact .inl (hready.needed _ trivial)
    | node p f =>
        rcases hc with hp | hc
        · rcases List.mem_cons.mp hp with rfl | hp
          · exact .inr ⟨f, rfl⟩
          · exact .inl (hready.needed _ (.inl hp))
        · exact .inl (hready.needed _ (.inr hc))
  · obtain ⟨n, hn, hnull⟩ := hready.headData
    obtain ⟨n', hn', hdata, -, -⟩ := hstep.keeps hat.head hat.first hn
    exact ⟨n', hn', hdata.trans hnull⟩
  · obtain ⟨n, hn, hnull⟩ := hready.tailNext
    obtain ⟨n', hn', -, -, hnext⟩ := hstep.keeps hat.head hat.first hn
    exact ⟨n', hn', (hnext hready.rep.head_ne_tail.symm).trans hnull⟩
  · intro p hp
    rcases List.mem_cons.mp hp with rfl | hp
    · exact hready.nonNull _ List.mem_cons_self
    · rcases List.mem_cons.mp hp with rfl | hp
      · exact hnull h
      · exact hready.nonNull p (List.mem_cons_of_mem _ hp)

/-- **`queue_dequeue`** on one that is not empty. -/
theorem QueueReady.dequeue {e : Entry} (hready : QueueReady q h (es ++ [e]) w) (dest : Mem) :
    ∃ out : Dequeued, Follows w (Fields.queueDequeue q dest h)
        (fun _ => QueueReady out.queue out.heap es) ∧
      queueDequeue q dest h = .ok out := by
  obtain ⟨tailNode, lastNode, beforeNode, hat⟩ := hready.rep.atTail
  have hsize : q.size ≠ 0 := by
    intro hzero
    have hlength := hready.rep.size
    rw [hzero, List.length_append] at hlength
    cases hlength
  have hbeforeLast : lastNode.prev ≠ e.node := hat.left_ne_last _ hat.before_mem
  obtain ⟨h', hrun, hstep⟩ := queueDequeue_spec dest hsize hat.tail (hat.last ▸ hat.stored.node)
    (hat.stored.data ▸ hat.stored.buffer) hat.stored.size hat.before (hat.last ▸ hat.last_ne_tail)
    hat.before_ne_tail (hat.last ▸ hbeforeLast)
  refine ⟨_, ?_, hrun⟩
  have hfollows := Fields.queueDequeue_follows hat dest hready.needed
  refine ⟨hfollows.reads, fun out hout => ?_⟩
  have hwritten := hfollows.done out hout
  refine ⟨hat.rep hready.rep hstep, ?_, ?_, ?_, ?_⟩
  · intro c hc
    apply hwritten
    apply hready.needed
    cases c with
    | head | tail | size => trivial
    | node p f =>
        refine hc.imp_left fun hp => ?_
        rw [List.map_append]
        exact List.mem_append_left _ hp
  · obtain ⟨n, hn, hnull⟩ := hready.headData
    obtain ⟨hlast, hdata⟩ := hat.left_ne hready.rep (p := q.head) List.mem_cons_self
    obtain ⟨n', hn', hkept, -, -⟩ := hstep.keeps hat.tail hat.before hn hlast hdata
    exact ⟨n', hn', hkept.trans hnull⟩
  · obtain ⟨n, hn, hnull⟩ := hready.tailNext
    obtain ⟨hlast, hdata⟩ := hat.left_ne hready.rep hat.tail_mem
    obtain ⟨n', hn', -, -, hkept⟩ := hstep.keeps hat.tail hat.before hn hlast hdata
    exact ⟨n', hn', (hkept hat.before_ne_tail.symm).trans hnull⟩
  · intro p hp
    exact hready.nonNull p (hat.sublist.subset hp)

end Ready

/-! ## Runs -/

def QueueCall.isEnqueue : QueueCall → Bool
  | .enqueue _ _ => true
  | .dequeue _ => false

def enqueued (calls : List QueueCall) : ℕ := calls.countP fun c => c.isEnqueue

def dequeued (calls : List QueueCall) : ℕ := calls.countP fun c => !c.isEnqueue

section Count

variable (data dest : Mem) (size : UInt32) (calls : List QueueCall)

theorem enqueued_enqueue : enqueued (.enqueue data size :: calls) = enqueued calls + 1 :=
  List.countP_cons_of_pos rfl

theorem dequeued_enqueue : dequeued (.enqueue data size :: calls) = dequeued calls :=
  List.countP_cons_of_neg (by simp [QueueCall.isEnqueue])

theorem enqueued_dequeue : enqueued (.dequeue dest :: calls) = enqueued calls :=
  List.countP_cons_of_neg (by simp [QueueCall.isEnqueue])

theorem dequeued_dequeue : dequeued (.dequeue dest :: calls) = dequeued calls + 1 :=
  List.countP_cons_of_pos rfl

end Count

/-- Calls on a queue of `n` entries: at no point are more taken out than there are, and at none
are there `2 ^ 32`. -/
def Within (n : ℕ) (calls : List QueueCall) : Prop :=
  ∀ p, p <+: calls → dequeued p ≤ n + enqueued p ∧ n + enqueued p < 2 ^ 32 + dequeued p

section Within

variable {n : ℕ} {rest : List QueueCall}

theorem Within.enqueue {data : Mem} {size : UInt32} (h : Within n (.enqueue data size :: rest)) :
    n < 2 ^ 32 - 1 ∧ Within (n + 1) rest := by
  have hparts : ∀ p, p <+: rest → dequeued p ≤ n + (enqueued p + 1) ∧
      n + (enqueued p + 1) < 2 ^ 32 + dequeued p := by
    intro p hp
    rw [← enqueued_enqueue data size, ← dequeued_enqueue data size]
    exact h _ ((List.prefix_cons_inj _).mpr hp)
  constructor
  · have hfirst : n + (0 + 1) < 2 ^ 32 + 0 := (hparts [] List.nil_prefix).2
    omega
  · intro p hp
    have hp' := hparts p hp
    omega

theorem Within.dequeue {dest : Mem} (h : Within n (.dequeue dest :: rest)) :
    0 < n ∧ Within (n - 1) rest := by
  have hparts : ∀ p, p <+: rest → dequeued p + 1 ≤ n + enqueued p ∧
      n + enqueued p < 2 ^ 32 + (dequeued p + 1) := by
    intro p hp
    rw [← enqueued_dequeue dest, ← dequeued_dequeue dest]
    exact h _ ((List.prefix_cons_inj _).mpr hp)
  have hfirst : 0 + 1 ≤ n + 0 := (hparts [] List.nil_prefix).1
  refine ⟨hfirst, ?_⟩
  intro p hp
  have hp' := hparts p hp
  omega

end Within

section Run

variable {A : Allocator} (hnull : ∀ h, A.nodeAt h ≠ 0) {q : Queue} {h : Heap} {es : List Entry}
  {w : Finset Place}

include hnull

/-- **Call.** -/
theorem QueueReady.call (hready : QueueReady q h es w) {c : QueueCall} {rest : List QueueCall}
    (hwithin : Within es.length (c :: rest)) :
    ∃ answer q' h' es', c.run A q h = .ok (answer, q', h') ∧
      Follows w (Fields.call A q h c) (fun _ => QueueReady q' h' es') ∧
      Within es'.length rest ∧ es'.length + dequeued [c] = es.length + enqueued [c] := by
  cases c with
  | enqueue data size =>
      obtain ⟨hlt, hrest⟩ := hwithin.enqueue
      obtain ⟨e, q', h', hfollows, hrun⟩ := hready.enqueue hnull data size hlt
      refine ⟨.done, q', h', e :: es, ?_, ?_, hrest, rfl⟩
      · rw [QueueCall.run, hrun]
        rfl
      · exact hfollows.bind fun _ _ _ hw' => .pure hw'
  | dequeue dest =>
      obtain ⟨hpos, hrest⟩ := hwithin.dequeue
      rcases List.eq_nil_or_concat' es with rfl | ⟨es, e, rfl⟩
      · exact absurd hpos (Nat.lt_irrefl 0)
      · obtain ⟨out, hfollows, hrun⟩ := hready.dequeue dest
        rw [List.length_append, List.length_singleton, Nat.add_sub_cancel] at hrest
        refine ⟨.copied out.ret out.dest, out.queue, out.heap, es, ?_, ?_, hrest, ?_⟩
        · rw [QueueCall.run, hrun]
          rfl
        · exact hfollows.bind fun _ _ _ hw' => .pure hw'
        · rw [List.length_append]
          rfl

/-- **Run.** -/
theorem QueueReady.run {calls : List QueueCall} : ∀ {q : Queue} {h : Heap} {es : List Entry}
    {w : Finset Place}, QueueReady q h es w → Within es.length calls →
    ∃ answers q' h' es', queueRun A calls q h = .ok (answers, q', h') ∧
      Follows w (Fields.queueRun A calls q h) (fun _ => QueueReady q' h' es') ∧
      es'.length + dequeued calls = es.length + enqueued calls := by
  induction calls with
  | nil =>
      intro q h es w hready _
      exact ⟨[], q, h, es, rfl, .pure hready, rfl⟩
  | cons c rest ih =>
      intro q h es w hready hwithin
      obtain ⟨answer, q₁, h₁, es₁, hcall, hfollows, hrest, hlength⟩ := hready.call hnull hwithin
      -- what the fields are after the call
      have hw₁ := hfollows.done _ ((Fields.call_result A q h c).trans hcall)
      obtain ⟨answers, q₂, h₂, es₂, hrun, hfollows₂, hlength₂⟩ := ih hw₁ hrest
      refine ⟨answer :: answers, q₂, h₂, es₂, ?_, ?_, ?_⟩
      · rw [queueRun, bind_of_ok hcall]
        dsimp only
        rw [bind_of_ok hrun]
        rfl
      · refine (Follows.exact hfollows.reads).bind ?_
        rintro out w' hout rfl
        rw [Fields.call_result, hcall] at hout
        cases hout
        exact hfollows₂.bind fun _ _ _ hw₂ => .pure hw₂
      · simp only [dequeued, enqueued, List.countP_cons, List.countP_nil] at hlength hlength₂ ⊢
        omega

end Run

/-! ## The end of a queue -/

/-- From `curr` on, the loop of `queue_fatal` frees the nodes and stops at `last`. -/
inductive Releases : ℕ → Heap → List ℕ → ℕ → Heap → Prop where
  | stop {curr : ℕ} {h : Heap} {n : Node} (hn : h.lookup curr = some (.node n))
      (hnext : n.next = 0) : Releases curr h [] curr h
  | step {curr last : ℕ} {h h₁ h₂ h' : Heap} {n : Node} {nodes : List ℕ}
      (hn : h.lookup curr = some (.node n)) (hnext : n.next ≠ 0)
      (hdata : freePtr h n.data = .ok h₁) (hcurr : free h₁ curr = .ok h₂)
      (hrest : Releases n.next h₂ nodes last h') : Releases curr h (curr :: nodes) last h'

section Releases

variable {curr last : ℕ} {h h' : Heap} {nodes : List ℕ} {w : Finset Place}

theorem Releases.run (hrel : Releases curr h nodes last h') :
    queueFatalFrom (nodes.length + 1) curr h = .ok (nodes, last, h') := by
  induction hrel with
  | stop hn hnext =>
      rw [queueFatalFrom, bind_readNode hn, if_pos hnext]
      rfl
  | step hn hnext hdata hcurr _ ih =>
      rw [List.length_cons, queueFatalFrom, bind_readNode hn, if_neg hnext]
      dsimp only
      rw [bind_readNode hn, bind_readNode hn, bind_of_ok hdata, bind_of_ok hcurr, bind_of_ok ih]
      rfl

/-- It looks at `next` and `data` of the nodes that it frees, and at `next` of the last. -/
theorem Releases.follows (hrel : Releases curr h nodes last h')
    (hnodes : ∀ p ∈ nodes, .node p .next ∈ w ∧ .node p .data ∈ w)
    (hlast : .node last .next ∈ w) : ∀ fuel,
      Follows w (Fields.queueFatalFrom fuel curr h) fun _ _ => True := by
  induction hrel with
  | stop hn hnext =>
      intro fuel
      cases fuel with
      | zero => exact .lift fun _ _ => trivial
      | succ fuel =>
          rw [Fields.queueFatalFrom]
          refine Fields.readField_bind hlast fun n' hn' => ?_
          obtain rfl := Fields.readNode_of_lookup hn hn'
          rw [if_pos hnext]
          exact .pure trivial
  | step hn hnext hdata hcurr _ ih =>
      intro fuel
      obtain ⟨⟨hfirst, hfirstData⟩, hrest⟩ := List.forall_mem_cons.mp hnodes
      cases fuel with
      | zero => exact .lift fun _ _ => trivial
      | succ fuel =>
          rw [Fields.queueFatalFrom]
          refine Fields.readField_bind hfirst fun n' hn' => ?_
          obtain rfl := Fields.readNode_of_lookup hn hn'
          rw [if_neg hnext]
          refine Fields.readField_bind hfirst fun m hm => ?_
          obtain rfl := Fields.readNode_of_lookup hn hm
          refine Fields.readField_bind hfirstData fun m' hm' => ?_
          obtain rfl := Fields.readNode_of_lookup hn hm'
          refine .lift_bind fun k hk => ?_
          obtain rfl := Except.ok.inj (hk.symm.trans hdata)
          refine .lift_bind fun k' hk' => ?_
          obtain rfl := Except.ok.inj (hk'.symm.trans hcurr)
          exact (ih hrest hlast fuel).bind fun _ _ _ _ => .pure trivial

end Releases

/-- A part of a queue up to the tail, of which nothing has been freed. -/
structure Remains (tail : ℕ) (h : Heap) (es : List Entry) : Prop where
  linked : Linked (nextOf h) (prevOf h) (es.map Entry.node ++ [tail])
  nodup : (es.map Entry.node ++ [tail]).Nodup
  stored : ∀ e ∈ es, ∃ n, Stored h e n
  buffers : (es.map Entry.data).Nodup
  tailNext : ∃ n, h.lookup tail = some (.node n) ∧ n.next = 0
  nonNull : ∀ p ∈ es.map Entry.node ++ [tail], p ≠ 0

section Remains

variable {tail : ℕ} {h h' : Heap} {es : List Entry}

/-- What is freed is none of its nodes and buffers. -/
theorem Remains.frame (hrem : Remains tail h es)
    (hsame : ∀ p, p ∈ es.map Entry.node ++ [tail] ∨ p ∈ es.map Entry.data →
      h'.lookup p = h.lookup p) : Remains tail h' es := by
  refine ⟨hrem.linked.congr ?_ ?_, hrem.nodup, ?_, hrem.buffers, ?_, hrem.nonNull⟩
  · intro p hp
    rw [nextOf, nextOf, hsame p (.inl hp)]
  · intro p hp
    rw [prevOf, prevOf, hsame p (.inl (List.mem_of_mem_tail hp))]
  · intro e he
    obtain ⟨n, hn⟩ := hrem.stored e he
    refine ⟨n, ?_, hn.data, hn.size, ?_⟩
    · rw [hsame e.node (.inl (List.mem_append_left _ (List.mem_map_of_mem he))), hn.node]
    · rw [hsame e.data (.inr (List.mem_map_of_mem he)), hn.buffer]
  · obtain ⟨n, hn, hnext⟩ := hrem.tailNext
    exact ⟨n, by rw [hsame tail (.inl (by simp)), hn], hnext⟩

/-- `free` takes one block away. -/
theorem freePtr_spec {p : ℕ} (hp : p = 0 ∨ p ∈ h) :
    ∃ h', freePtr h p = .ok h' ∧ ∀ a, a ≠ p → h'.lookup a = h.lookup a := by
  rw [freePtr]
  by_cases hzero : p = 0
  · rw [if_pos hzero]
    exact ⟨h, rfl, fun _ _ => rfl⟩
  · rw [if_neg hzero, free, if_pos (hp.resolve_left hzero)]
    exact ⟨h.erase p, rfl, fun a ha => by rw [lookup_erase, if_neg ha]⟩

/-- The first entry can be freed, and the others remain. -/
theorem Remains.step {e : Entry} {n : Node} (hrem : Remains tail h (e :: es))
    (hn : Stored h e n) : ∃ h₁ h₂, freePtr h n.data = .ok h₁ ∧ free h₁ e.node = .ok h₂ ∧
      Remains tail h₂ es := by
  have hmem : n.data ∈ h := hn.data ▸ Finmap.mem_of_lookup_eq_some hn.buffer
  obtain ⟨h₁, hfree, hsame⟩ := freePtr_spec (.inr hmem)
  have hnode₁ : h₁.lookup e.node = some (.node n) := by
    rw [hsame _ (hn.data ▸ node_ne_buffer hn.node hn.buffer), hn.node]
  have hfree₂ : free h₁ e.node = .ok (h₁.erase e.node) :=
    if_pos (Finmap.mem_of_lookup_eq_some hnode₁)
  refine ⟨h₁, _, hfree, hfree₂, ?_⟩
  obtain ⟨hnotin, hnodup⟩ := List.nodup_cons.mp hrem.nodup
  obtain ⟨hdataNotin, hbuffers⟩ := List.nodup_cons.mp hrem.buffers
  have hrest : Remains tail h es :=
    ⟨List.IsChain.tail hrem.linked, hnodup,
      fun e' he' => hrem.stored e' (List.mem_cons_of_mem _ he'), hbuffers, hrem.tailNext,
      fun p hp => hrem.nonNull p (List.mem_cons_of_mem _ hp)⟩
  apply hrest.frame
  rintro p (hp | hp)
  · have hpe : p ≠ e.node := fun heq => hnotin (heq ▸ hp)
    have hpd : p ≠ n.data := by
      rw [hn.data]
      rcases List.mem_append.mp hp with hp | hp
      · obtain ⟨e', he', rfl⟩ := List.mem_map.mp hp
        obtain ⟨n', hn'⟩ := hrest.stored e' he'
        exact node_ne_buffer hn'.node hn.buffer
      · obtain ⟨m, hm, -⟩ := hrem.tailNext
        rw [List.mem_singleton.mp hp]
        exact node_ne_buffer hm hn.buffer
    rw [lookup_erase, if_neg hpe, hsame p hpd]
  · have hpd : p ≠ n.data := fun heq => hdataNotin (hn.data ▸ heq ▸ hp)
    have hpe : p ≠ e.node := by
      obtain ⟨e', he', rfl⟩ := List.mem_map.mp hp
      obtain ⟨n', hn'⟩ := hrest.stored e' he'
      exact (node_ne_buffer hn.node hn'.buffer).symm
    rw [lookup_erase, if_neg hpe, hsame p hpd]

/-- The loop goes through what remains and stops at the tail. -/
theorem Remains.releases : ∀ {es : List Entry} {h : Heap} {curr : ℕ} {rest : List ℕ},
    Remains tail h es → es.map Entry.node ++ [tail] = curr :: rest →
      ∃ h', Releases curr h (es.map Entry.node) tail h' := by
  intro es
  induction es with
  | nil =>
      intro h curr rest hrem hcurr
      cases hcurr
      obtain ⟨n, hn, hnext⟩ := hrem.tailNext
      exact ⟨h, .stop hn hnext⟩
  | cons e es ih =>
      intro h curr rest hrem hcurr
      cases hcurr
      obtain ⟨n, hn⟩ := hrem.stored e List.mem_cons_self
      obtain ⟨h₁, h₂, hdata, hnode, hrest⟩ := hrem.step hn
      obtain ⟨first, more, hmore⟩ : ∃ first more, es.map Entry.node ++ [tail] = first :: more :=
        List.exists_cons_of_ne_nil (by simp)
      have hlinked := hrem.linked
      have hnonNull := hrem.nonNull
      rw [List.map_cons, List.cons_append, hmore] at hlinked hnonNull
      have hnext : n.next = first := by
        rw [← nextOf_node hn.node]
        exact (Linked.cons_cons.mp hlinked).1.1
      obtain ⟨h', hrel⟩ := ih hrest hmore
      refine ⟨h', .step hn.node ?_ hdata hnode (hnext ▸ hrel)⟩
      rw [hnext]
      exact hnonNull first (by simp)

end Remains

/-- **`queue_fatal`** on a queue whose fields are written: it frees the nodes from the head on and
stops at the tail. -/
theorem QueueReady.releases {q : Queue} {h : Heap} {es : List Entry} {w : Finset Place}
    (hready : QueueReady q h es w) :
    ∃ h', Releases q.head h (q.head :: es.map Entry.node) q.tail h' := by
  obtain ⟨headNode, firstNode, hat⟩ := hready.rep.atHead
  obtain ⟨rest, hnodes⟩ := hat.nodes
  have hfirst : es.map Entry.node ++ [q.tail] = headNode.next :: rest :=
    List.tail_eq_of_cons_eq hnodes
  obtain ⟨n, hn, hdata⟩ := hready.headData
  obtain rfl : n = headNode := by
    rw [hat.head] at hn
    cases hn
    rfl
  obtain ⟨hnotin, hnodup⟩ := List.nodup_cons.mp hready.rep.nodup
  have hrem : Remains q.tail h es :=
    ⟨List.IsChain.tail hready.rep.linked, hnodup, hready.rep.stored, hready.rep.buffers,
      hready.tailNext, fun p hp => hready.nonNull p (List.mem_cons_of_mem _ hp)⟩
  have herased : Remains q.tail (h.erase q.head) es := by
    apply hrem.frame
    rintro p (hp | hp)
    · have hpe : p ≠ q.head := fun heq => hnotin (heq ▸ hp)
      rw [lookup_erase, if_neg hpe]
    · obtain ⟨e, he, rfl⟩ := List.mem_map.mp hp
      obtain ⟨m, hm⟩ := hready.rep.stored e he
      rw [lookup_erase, if_neg (node_ne_buffer hn hm.buffer).symm]
  obtain ⟨h', hrel⟩ := herased.releases hfirst
  refine ⟨h', .step hn ?_ (if_pos hdata) (if_pos (Finmap.mem_of_lookup_eq_some hn)) hrel⟩
  apply hready.nonNull
  rw [hnodes]
  simp

/-! ## The beginning -/

section Init

variable {A : Allocator} {h h' : Heap} {q : Queue}

/-- What else would have to be written: `size`, `data` of the head, `next` of the tail. -/
def clearedFields (A : Allocator) (h : Heap) (q : Queue) : Finset Place :=
  insert .size (insert (.node q.head .data) (insert (.node q.tail .next)
    (writtenAfter ∅ (Fields.queueInit A 0 h).events)))

/-- If the memory of these three was zero, the queue is as if they were written. -/
theorem InitStep.ready (hrun : Freecoin.queueInit A 0 h = .ok (q, h'))
    (hinit : InitStep A 0 h q h') (hnull : ∀ h, A.nodeAt h ≠ 0) (hdata : (A.node h).data = 0)
    (hnext : (A.node (h.insert (A.nodeAt h) (.node (A.node h)))).next = 0) :
    QueueReady q h' [] (clearedFields A h q) := by
  refine ⟨hinit.rep, ?_, ⟨_, hinit.headNode, hdata⟩, ⟨_, hinit.tailNode, ?_⟩, ?_⟩
  · intro c hc
    simp only [clearedFields, Finset.mem_insert, Fields.queueInit_written hrun]
    cases c with
    | head | tail | size => simp
    | node p f =>
        rcases hc with hp | ⟨rfl, rfl | rfl⟩ | ⟨rfl, rfl | rfl⟩
        · cases hp
        · simp
        · simp
        · simp
        · simp
  · rw [hinit.head]
    exact hnext
  · intro p hp
    rcases List.mem_cons.mp hp with rfl | hp
    · rw [hinit.head]
      exact hnull h
    · rw [List.mem_singleton.mp hp, hinit.tail]
      exact hnull _

end Init

/-- The nodes are those from the head on that come before the tail, each once. -/
structure BeforeTail (q : Queue) (h : Heap) (nodes : List ℕ) : Prop where
  nodup : nodes.Nodup
  follow : ∀ i (hi : i < nodes.length), nodes[i] = (nextOf h)^[i] q.head
  tail : (nextOf h)^[nodes.length] q.head = q.tail

theorem QueueRep.beforeTail {q : Queue} {h : Heap} {es : List Entry} (hrep : QueueRep q h es) :
    BeforeTail q h (q.head :: es.map Entry.node) := by
  have hnodes : queueNodes q es = (q.head :: es.map Entry.node) ++ [q.tail] := rfl
  have hfollow := ((linked_iff_follow q h es).mp hrep.linked).1
  have hlength : (queueNodes q es).length = (q.head :: es.map Entry.node).length + 1 := by
    rw [hnodes, List.length_append, List.length_singleton]
  constructor
  · exact (List.nodup_append.mp (hnodes ▸ hrep.nodup)).1
  · intro i hi
    rw [hfollow i (by omega)]
    simp only [hnodes]
    exact (List.getElem_append_left hi).symm
  · rw [hfollow _ (by omega)]
    simp only [hnodes]
    rw [List.getElem_append_right (Nat.le_refl _)]
    simp

/-- **A queue in memory that was zero.** Had `queue_init` written the three fields, no call
would read a field that was not written, `size` would be the number of entries, and
`queue_fatal` would free each node from the head on once and stop at the tail. -/
theorem queueRun_cleared {A : Allocator} (hnull : ∀ h, A.nodeAt h ≠ 0) {h : Heap}
    (hdata : (A.node h).data = 0)
    (hnext : (A.node (h.insert (A.nodeAt h) (.node (A.node h)))).next = 0)
    {calls : List QueueCall} (hcalls : Within 0 calls) :
    ∃ q₀ h₀ answers q h' es w, queueInit A 0 h = .ok (q₀, h₀) ∧
      queueRun A calls q₀ h₀ = .ok (answers, q, h') ∧
      Follows (clearedFields A h q₀) (Fields.queueRun A calls q₀ h₀) (fun _ w' => w' = w) ∧
      QueueReady q h' es w ∧ q.size.toNat + dequeued calls = enqueued calls ∧
      (∀ fuel, Follows w (Fields.queueFatal fuel q h') fun _ _ => True) ∧
      ∃ fuel nodes h'', queueFatal fuel q h' = .ok (nodes, q.tail, h'') ∧
        BeforeTail q h' nodes := by
  obtain ⟨q₀, h₀, hrun₀, hinit⟩ := queueInit_spec A 0 h
  have hready₀ := hinit.ready hrun₀ hnull hdata hnext
  obtain ⟨answers, q, h', es, hrun, hfollows, hlength⟩ := hready₀.run hnull hcalls
  have hready := hfollows.done _ ((Fields.queueRun_result A calls q₀ h₀).trans hrun)
  obtain ⟨h'', hrel⟩ := hready.releases
  refine ⟨q₀, h₀, answers, q, h', es, _, hrun₀, hrun, .exact hfollows.reads, hready, ?_, ?_,
    _, _, h'', hrel.run, hready.rep.beforeTail⟩
  · rw [hready.rep.size]
    simpa using hlength
  · intro fuel
    refine .read_bind (hready.needed .head trivial) (hrel.follows ?_ ?_ fuel)
    · intro p hp
      rcases List.mem_cons.mp hp with rfl | hp
      · exact ⟨hready.needed _ (.inr (.inl ⟨rfl, .inl rfl⟩)),
          hready.needed _ (.inr (.inl ⟨rfl, .inr rfl⟩))⟩
      · exact ⟨hready.needed _ (.inl hp), hready.needed _ (.inl hp)⟩
    · exact hready.needed _ (.inr (.inr ⟨rfl, .inr rfl⟩))

/-- Two byte strings are put in and one is taken out, in memory that was zero. -/
theorem queueRun_cleared_two :
    let calls : List QueueCall :=
      [.enqueue (Mem.ofBytes [1, 2, 3]) 3, .enqueue (Mem.ofBytes [4, 5]) 2, .dequeue fun _ => 0]
    ∃ q₀ h₀ answers q h' fuel nodes h'', queueInit topAllocator 0 ∅ = .ok (q₀, h₀) ∧
      queueRun topAllocator calls q₀ h₀ = .ok (answers, q, h') ∧ q.size.toNat = 1 ∧
      queueFatal fuel q h' = .ok (nodes, q.tail, h'') ∧ BeforeTail q h' nodes := by
  intro calls
  have hcalls : Within 0 calls := by
    intro p hp
    have hp : p ∈ calls.inits := (List.mem_inits p calls).mpr hp
    simp only [calls, List.inits, List.map_cons, List.map_nil, List.mem_cons, List.not_mem_nil,
      or_false] at hp
    rcases hp with rfl | rfl | rfl | rfl <;> decide
  obtain ⟨q₀, h₀, answers, q, h', -, -, hinit, hrun, -, -, hsize, -, fuel, nodes, h'', hfatal,
    hbefore⟩ := queueRun_cleared (A := topAllocator) (fun _ => Nat.succ_ne_zero _) rfl rfl hcalls
  refine ⟨q₀, h₀, answers, q, h', fuel, nodes, h'', hinit, hrun, ?_, hfatal, hbefore⟩
  exact Nat.add_right_cancel hsize

/-! ## The queue as it is initialised -/

/-- `queue_init`, and the calls of a program. -/
def Fields.queueLife (A : Allocator) (size : UInt32) (h : Heap) (calls : List QueueCall) :
    QueueTrace (Queue × Heap) := do
  let (q, h) ← Fields.queueInit A size h
  let (_, q, h) ← Fields.queueRun A calls q h
  return (q, h)

/-- At no point have more elements been taken out than put in. -/
def Balanced (calls : List QueueCall) : Prop := ∀ p, p <+: calls → dequeued p ≤ enqueued p

/-- In a run of `queue_init` and the calls, and `queue_fatal` in the end if it is wanted, no field
is read that was not written before; `size` is the number of elements at every point, and
`queue_fatal` frees the nodes before the tail and stops there. -/
structure QueueDisciplined (A : Allocator) (size : UInt32) (h : Heap) (calls : List QueueCall)
    (fatal : Bool) : Prop where
  reads : ReadsWritten ∅ (Fields.queueLife A size h calls).events
  counts : ∀ p, p <+: calls → ∀ q h', (Fields.queueLife A size h p).result = .ok (q, h') →
    q.size.toNat + dequeued p = enqueued p
  fatalReads : fatal = true → ∀ fuel, ReadsWritten ∅ (Fields.queueLife A size h calls >>= fun out =>
    Fields.queueFatal fuel out.1 out.2).events
  fatalStops : fatal = true → ∀ q h', (Fields.queueLife A size h calls).result = .ok (q, h') →
    ∃ fuel nodes h'', queueFatal fuel q h' = .ok (nodes, q.tail, h'') ∧ BeforeTail q h' nodes

section Discipline

variable {A : Allocator} {size : UInt32} {h h' : Heap} {q : Queue}

theorem queueLife_nil (hrun : queueInit A size h = .ok (q, h')) :
    (Fields.queueLife A size h []).result = .ok (q, h') ∧
      (Fields.queueLife A size h []).events = (Fields.queueInit A size h).events := by
  have hresult : (Fields.queueInit A size h).result = .ok (q, h') := hrun
  constructor
  · rw [Fields.queueLife, result_bind, bind_of_ok hresult]
    rfl
  · rw [Fields.queueLife, events_bind, hresult]
    exact List.append_nil _

/-- A call of `queue_enqueue` on a new queue gets to its end. -/
theorem InitStep.enqueue (hinit : InitStep A size h q h') (data : Mem) (size' : UInt32) :
    ∃ h'', queueEnqueue A q data size' h' = .ok ({ q with size := q.size + 1 }, h'') ∧
      q.head ≠ A.nodeAt h' := by
  have htail : h'.lookup q.tail = some (.node _) := hinit.tailNode
  obtain ⟨newNode, h'', -, hput, hstep⟩ :=
    queueEnqueue_spec A data size' hinit.headNode htail hinit.apart.symm
  refine ⟨h'', hput, ?_⟩
  intro heq
  exact hstep.new_fresh (heq ▸ Finmap.mem_of_lookup_eq_some hinit.headNode)

/-- It adds to what the memory of `size` held. -/
theorem queueLife_enqueue (A : Allocator) (size : UInt32) (h : Heap) (data : Mem)
    (size' : UInt32) : ∃ q h', (Fields.queueLife A size h [.enqueue data size']).result =
      .ok (q, h') ∧ q.size = size + 1 := by
  obtain ⟨q, h', hrun, hinit⟩ := queueInit_spec A size h
  have hresult : (Fields.queueInit A size h).result = .ok (q, h') := hrun
  obtain ⟨h'', hput, -⟩ := hinit.enqueue data size'
  refine ⟨{ q with size := q.size + 1 }, h'', ?_, congrArg (· + 1) hinit.size⟩
  rw [Fields.queueLife, result_bind, bind_of_ok hresult]
  dsimp only
  rw [result_bind, Fields.queueRun_result, queueRun, QueueCall.run, hput]
  rfl

/-- And reads `size`, which was not written. -/
theorem not_readsWritten_enqueue (data : Mem) (size' : UInt32) (rest : List QueueCall) :
    ¬ ReadsWritten ∅ (Fields.queueLife A size h (.enqueue data size' :: rest)).events := by
  intro hreads
  obtain ⟨q, h', hrun, hinit⟩ := queueInit_spec A size h
  have hresult : (Fields.queueInit A size h).result = .ok (q, h') := hrun
  obtain ⟨h'', hput, hnew⟩ := hinit.enqueue data size'
  have hputResult := (Fields.queueEnqueue_result A q data size' h').trans hput
  rw [Fields.queueLife, events_bind, hresult, eventsAfter_ok, readsWritten_append] at hreads
  have hfirst : ReadsWritten (writtenAfter ∅ (Fields.queueInit A size h).events)
      (Fields.queueEnqueue A q data size' h').events := by
    have hrest := hreads.2
    dsimp only at hrest
    rw [events_bind, Fields.queueRun, events_bind, Fields.call, events_bind] at hrest
    have hcalls := ((readsWritten_append _ _ _).mp hrest).1
    have hcall := ((readsWritten_append _ _ _).mp hcalls).1
    exact ((readsWritten_append _ _ _).mp hcall).1
  have hwritten := Fields.queueEnqueue_reads_size (by simp [Fields.queueInit_written hrun])
    (by simp [Fields.queueInit_written hrun]) hnew hputResult hfirst
  simp [Fields.queueInit_written hrun] at hwritten

/-- `queue_fatal` of a new queue reads `data` of the head, unless it stops there. -/
theorem not_stops_at_tail (hrun : queueInit A size h = .ok (q, h')) (hinit : InitStep A size h q h')
    (hreads : ∀ fuel, ReadsWritten ∅ (Fields.queueLife A size h [] >>= fun out =>
      Fields.queueFatal fuel out.1 out.2).events) (fuel : ℕ) (nodes : List ℕ) (h'' : Heap) :
    queueFatal fuel q h' ≠ .ok (nodes, q.tail, h'') := by
  intro hstops
  obtain ⟨hlife, hevents⟩ := queueLife_nil hrun
  have hone := hreads 1
  rw [events_bind, hlife, eventsAfter_ok, readsWritten_append, hevents] at hone
  have hfatal := hone.2
  by_cases hnull : q.tail = 0
  · -- the loop is over at once
    cases fuel with
    | zero => cases hstops
    | succ fuel =>
        rw [queueFatal, queueFatalFrom, bind_readNode hinit.headNode, if_pos hnull] at hstops
        have hsame := Except.ok.inj hstops
        exact hinit.apart (congrArg (fun out => out.2.1) hsame)
  · have hread : Place.node q.head .data ∈ writtenAfter ∅ (Fields.queueInit A size h).events := by
      exact Fields.queueFatalFrom_reads_data hinit.headNode hnull hfatal.2
    simp [Fields.queueInit_written hrun, hinit.apart] at hread

end Discipline

/-- **Initialisation.** A run is as it should be if and only if nothing follows `queue_init`, and
the memory of `size` happened to be zero. -/
theorem queueDisciplined_iff (A : Allocator) (size : UInt32) (h : Heap) {calls : List QueueCall}
    (fatal : Bool) (hcalls : Balanced calls) :
    QueueDisciplined A size h calls fatal ↔ size = 0 ∧ calls = [] ∧ fatal = false := by
  obtain ⟨q, h', hrun, hinit⟩ := queueInit_spec A size h
  obtain ⟨hlife, hevents⟩ := queueLife_nil hrun
  constructor
  · intro hdisc
    refine ⟨?_, ?_⟩
    · have hzero := hdisc.counts [] List.nil_prefix q h' hlife
      rw [hinit.size] at hzero
      exact UInt32.toNat_inj.mp hzero
    · have hnone : calls = [] := by
        cases calls with
        | nil => rfl
        | cons c rest =>
            cases c with
            | enqueue data size' =>
                exact absurd hdisc.reads (not_readsWritten_enqueue data size' rest)
            | dequeue dest =>
                have hfirst := hcalls [.dequeue dest] (by simp)
                rw [dequeued_dequeue, enqueued_dequeue] at hfirst
                exact absurd hfirst (by decide)
      subst hnone
      refine ⟨rfl, ?_⟩
      by_contra hfatal
      have htrue : fatal = true := by simpa using hfatal
      obtain ⟨fuel, nodes, h'', hstops, -⟩ := hdisc.fatalStops htrue q h' hlife
      exact not_stops_at_tail hrun hinit (hdisc.fatalReads htrue) fuel nodes h'' hstops
  · rintro ⟨rfl, rfl, rfl⟩
    refine ⟨?_, ?_, ?_, ?_⟩
    · rw [hevents]
      exact (Fields.queueInit_follows A 0 h).reads
    · intro p hp q' h'' hlife'
      obtain rfl := List.prefix_nil.mp hp
      cases hlife.symm.trans hlife'
      rw [hinit.size]
      rfl
    · intro hfatal
      cases hfatal
    · intro hfatal
      cases hfatal

theorem balanced_inOut (data : Mem) (size : UInt32) (dest : Mem) :
    Balanced [.enqueue data size, .dequeue dest] := by
  intro p hp
  obtain ⟨rest, hsplit⟩ := hp
  rcases p with _ | ⟨c, p⟩
  · exact Nat.le_refl _
  · obtain ⟨rfl, htail⟩ := List.cons.inj hsplit
    have hpre : p <+: [.dequeue dest] := ⟨rest, htail⟩
    have hle : dequeued p ≤ 1 := hpre.sublist.countP_le
    rw [enqueued_enqueue]
    exact hle.trans (Nat.le_add_left 1 _)

/-- A queue that is initialised and not used is as it should be, and one through which a byte
goes is not. -/
theorem queueDisciplined_unused_and_used :
    QueueDisciplined topAllocator 0 ∅ [] false ∧
    ¬ QueueDisciplined topAllocator 0 ∅ [.enqueue (Mem.ofBytes [1]) 1, .dequeue fun _ => 0]
      true := by
  have hunused := queueDisciplined_iff topAllocator 0 ∅ false (show Balanced [] by
    simp [Balanced, dequeued])
  have hused := queueDisciplined_iff topAllocator 0 ∅ true
    (balanced_inOut (Mem.ofBytes [1]) 1 fun _ => 0)
  exact ⟨hunused.mpr ⟨rfl, rfl, rfl⟩, fun h => absurd (hused.mp h).2.1 (List.cons_ne_nil _ _)⟩

/-- One call of `queue_enqueue`, where the memory of `size` held 7: it is read before it is
written, and is 8 in the end. -/
theorem queue_size_garbage :
    (∃ q h, (Fields.queueLife topAllocator 7 ∅ [.enqueue (Mem.ofBytes [1]) 1]).result =
      .ok (q, h) ∧ q.size = 8) ∧
    ¬ ReadsWritten ∅
      (Fields.queueLife topAllocator 7 ∅ [.enqueue (Mem.ofBytes [1]) 1]).events ∧
    ¬ ∀ (A : Allocator) (size : UInt32) (h : Heap) (calls : List QueueCall) (fatal : Bool),
      Balanced calls → QueueDisciplined A size h calls fatal := by
  have hcalls : Balanced [.enqueue (Mem.ofBytes [1]) 1] := by
    intro p hp
    have hle : dequeued p ≤ dequeued [.enqueue (Mem.ofBytes [1]) 1] := hp.sublist.countP_le
    exact hle.trans (Nat.zero_le _)
  have hreads : ¬ ReadsWritten ∅
      (Fields.queueLife topAllocator 7 ∅ [.enqueue (Mem.ofBytes [1]) 1]).events :=
    not_readsWritten_enqueue (Mem.ofBytes [1]) 1 []
  refine ⟨queueLife_enqueue topAllocator 7 ∅ (Mem.ofBytes [1]) 1, hreads, ?_⟩
  intro hall
  exact hreads (hall topAllocator 7 ∅ _ false hcalls).reads

end Freecoin
