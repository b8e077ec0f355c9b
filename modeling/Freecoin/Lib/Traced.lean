import Mathlib.Data.Finset.Basic
import Mathlib.Data.List.Basic

/-!
# Computations that leave a trace

A computation that may fail and that records events on its way; what was
recorded before a failure stays. Where the events are accesses to fields, a rule for
each kind of step shows that no field is read before it is written.
-/

namespace Lib

/-- A computation with the events it records. -/
structure Traced (ω ε α : Type) : Type where
  events : List ω
  result : Except ε α

namespace Traced

variable {ω ε α β σ ι : Type}

/-- One event. -/
def event (w : ω) : Traced ω ε Unit := ⟨[w], .ok ()⟩

/-- A computation that records nothing. -/
def lift (x : Except ε α) : Traced ω ε α := ⟨[], x⟩

/-- The events of what follows, if the first computation gets to its end. -/
def eventsAfter (x : Except ε α) (f : α → Traced ω ε β) : List ω :=
  match x with
  | .error _ => []
  | .ok a => (f a).events

instance : Monad (Traced ω ε) where
  pure a := ⟨[], .ok a⟩
  bind x f := ⟨x.events ++ eventsAfter x.result f, x.result >>= fun a => (f a).result⟩

@[simp] theorem result_pure (a : α) : (pure a : Traced ω ε α).result = .ok a := rfl

@[simp] theorem result_bind (x : Traced ω ε α) (f : α → Traced ω ε β) :
    (x >>= f).result = x.result >>= fun a => (f a).result := rfl

@[simp] theorem result_event (w : ω) : (event w : Traced ω ε Unit).result = .ok () := rfl

@[simp] theorem result_lift (x : Except ε α) : (lift x : Traced ω ε α).result = x := rfl

@[simp] theorem events_pure (a : α) : (pure a : Traced ω ε α).events = [] := rfl

@[simp] theorem events_event (w : ω) : (event w : Traced ω ε Unit).events = [w] := rfl

@[simp] theorem events_lift (x : Except ε α) : (lift x : Traced ω ε α).events = [] := rfl

theorem events_bind (x : Traced ω ε α) (f : α → Traced ω ε β) :
    (x >>= f).events = x.events ++ eventsAfter x.result f := rfl

@[simp] theorem eventsAfter_ok (a : α) (f : α → Traced ω ε β) :
    eventsAfter (.ok a) f = (f a).events := rfl

@[simp] theorem eventsAfter_error (e : ε) (f : α → Traced ω ε β) :
    eventsAfter (.error e) f = [] := rfl

theorem pure_bind (a : α) (f : α → Traced ω ε β) : (pure a >>= f) = f a := rfl

/-- What follows records nothing. -/
theorem events_bind_quiet {x : Traced ω ε α} {f : α → Traced ω ε β}
    (h : ∀ a, x.result = .ok a → (f a).events = []) : (x >>= f).events = x.events := by
  rw [events_bind]
  cases hx : x.result with
  | error e => exact List.append_nil _
  | ok a =>
      rw [eventsAfter_ok, h a hx]
      exact List.append_nil _

@[simp] theorem events_bind_pure (x : Traced ω ε α) (g : α → β) :
    (x >>= fun a => pure (g a)).events = x.events := events_bind_quiet fun _ _ => rfl

/-- A loop computes what it computes without the trace. -/
theorem result_foldlM {f : σ → ι → Traced ω ε σ} {g : σ → ι → Except ε σ}
    (h : ∀ s i, (f s i).result = g s i) :
    ∀ (items : List ι) (s : σ), (items.foldlM f s).result = items.foldlM g s := by
  intro items
  induction items with
  | nil => intro s; rfl
  | cons i rest ih =>
      intro s
      rw [List.foldlM_cons, List.foldlM_cons, result_bind, h]
      exact bind_congr ih

/-- A loop whose passes get to their end and record events that do not depend on the
state: what it computes and what it records. -/
theorem foldlM_total {f : σ → ι → Traced ω ε σ} {g : σ → ι → σ} {e : ι → List ω}
    (hresult : ∀ s i, (f s i).result = .ok (g s i)) (hevents : ∀ s i, (f s i).events = e i) :
    ∀ (items : List ι) (s : σ), (items.foldlM f s).result = .ok (items.foldl g s) ∧
      (items.foldlM f s).events = items.flatMap e := by
  intro items
  induction items with
  | nil => intro s; exact ⟨rfl, rfl⟩
  | cons i rest ih =>
      intro s
      obtain ⟨hrest, hmore⟩ := ih (g s i)
      rw [List.foldlM_cons]
      constructor
      · rw [result_bind, hresult]
        exact hrest
      · rw [events_bind, hresult, hevents, eventsAfter_ok, hmore]
        rfl

/-! ## Every event of one kind -/

/-- Every event is of the given kind. -/
structure Records (P : ω → Prop) (x : Traced ω ε α) : Prop where
  kind : ∀ w ∈ x.events, P w

variable {P : ω → Prop}

theorem Records.lift (x : Except ε α) : Records P (lift x : Traced ω ε α) :=
  ⟨fun _ hw => absurd hw List.not_mem_nil⟩

theorem Records.pure (a : α) : Records P (pure a : Traced ω ε α) := Records.lift (.ok a)

theorem Records.bind {x : Traced ω ε α} {f : α → Traced ω ε β} (hx : Records P x)
    (hf : ∀ a, Records P (f a)) : Records P (x >>= f) := by
  constructor
  intro w hw
  rw [events_bind, List.mem_append] at hw
  rcases hw with hw | hw
  · exact hx.kind w hw
  · cases hresult : x.result with
    | error e =>
        rw [hresult] at hw
        exact absurd hw List.not_mem_nil
    | ok a =>
        rw [hresult] at hw
        exact (hf a).kind w hw

theorem Records.foldlM {f : σ → ι → Traced ω ε σ} (h : ∀ s i, Records P (f s i)) :
    ∀ (items : List ι) (s : σ), Records P (items.foldlM f s) := by
  intro items
  induction items with
  | nil => intro s; exact .pure s
  | cons i rest ih =>
      intro s
      rw [List.foldlM_cons]
      exact (h s i).bind ih

end Traced

/-! ## Reads after writes -/

/-- What is done with a field; `fresh` if it comes to lie in memory that was just allocated. -/
inductive Access (κ : Type) : Type where
  | fresh (c : κ)
  | read (c : κ)
  | write (c : κ)
deriving DecidableEq

section Fields

variable {κ ε α β : Type} [DecidableEq κ]

/-- The fields that have been written. -/
def writtenAfter : Finset κ → List (Access κ) → Finset κ
  | w, [] => w
  | w, .fresh c :: rest => writtenAfter (w.erase c) rest
  | w, .read _ :: rest => writtenAfter w rest
  | w, .write c :: rest => writtenAfter (insert c w) rest

/-- Each field that is read has been written. -/
def ReadsWritten : Finset κ → List (Access κ) → Prop
  | _, [] => True
  | w, .fresh c :: rest => ReadsWritten (w.erase c) rest
  | w, .read c :: rest => c ∈ w ∧ ReadsWritten w rest
  | w, .write c :: rest => ReadsWritten (insert c w) rest

theorem writtenAfter_append (w : Finset κ) (l l' : List (Access κ)) :
    writtenAfter w (l ++ l') = writtenAfter (writtenAfter w l) l' := by
  induction l generalizing w with
  | nil => rfl
  | cons a rest ih => cases a <;> exact ih _

theorem readsWritten_append (w : Finset κ) (l l' : List (Access κ)) :
    ReadsWritten w (l ++ l') ↔ ReadsWritten w l ∧ ReadsWritten (writtenAfter w l) l' := by
  induction l generalizing w with
  | nil => exact (and_iff_right trivial).symm
  | cons a rest ih =>
      cases a with
      | fresh c => exact ih _
      | read c => exact (and_congr_right fun _ => ih w).trans and_assoc.symm
      | write c => exact ih _

namespace Traced

/-- From a state in which the fields of `w` are written, the computation reads no other
before it writes it, and if it gets to its end, what it returns and the fields that are
written then are as `post` says. -/
structure Follows (w : Finset κ) (x : Traced (Access κ) ε α) (post : α → Finset κ → Prop) :
    Prop where
  reads : ReadsWritten w x.events
  done : ∀ a, x.result = .ok a → post a (writtenAfter w x.events)

variable {w : Finset κ} {post : β → Finset κ → Prop}

/-- The fields that are written at the end are those that the events write. -/
theorem Follows.exact {x : Traced (Access κ) ε β} (h : ReadsWritten w x.events) :
    Follows w x fun _ w' => w' = writtenAfter w x.events := ⟨h, fun _ _ => rfl⟩

theorem Follows.pure {b : β} (h : post b w) : Follows w (pure b : Traced (Access κ) ε β) post := by
  refine ⟨trivial, ?_⟩
  intro b' hb
  cases hb
  exact h

theorem Follows.bind {x : Traced (Access κ) ε α} {f : α → Traced (Access κ) ε β}
    {mid : α → Finset κ → Prop} (hx : Follows w x mid)
    (hf : ∀ a w', x.result = .ok a → mid a w' → Follows w' (f a) post) :
    Follows w (x >>= f) post := by
  have hevents := events_bind x f
  cases hresult : x.result with
  | error e =>
      rw [hresult, eventsAfter_error, List.append_nil] at hevents
      refine ⟨hevents ▸ hx.reads, ?_⟩
      intro b hb
      rw [result_bind, hresult] at hb
      cases hb
  | ok a =>
      rw [hresult, eventsAfter_ok] at hevents
      have hrest := hf a _ hresult (hx.done a hresult)
      constructor
      · rw [hevents, readsWritten_append]
        exact ⟨hx.reads, hrest.reads⟩
      · intro b hb
        rw [result_bind, hresult] at hb
        rw [hevents, writtenAfter_append]
        exact hrest.done b hb

/-- The computation succeeds or fails without a trace. -/
theorem Follows.lift {x : Except ε β} (h : ∀ b, x = .ok b → post b w) :
    Follows w (lift x : Traced (Access κ) ε β) post := ⟨trivial, h⟩

theorem Follows.lift_bind {x : Except ε α} {f : α → Traced (Access κ) ε β}
    (hf : ∀ a, x = .ok a → Follows w (f a) post) : Follows w (Traced.lift x >>= f) post := by
  have hsame : Follows w (Traced.lift x) fun _ w' => w' = w := .lift fun _ _ => rfl
  refine hsame.bind ?_
  rintro a w' ha rfl
  exact hf a ha

variable {c : κ} {f : Unit → Traced (Access κ) ε β}

theorem Follows.fresh_bind (hf : Follows (w.erase c) (f ()) post) :
    Follows w (event (.fresh c) >>= f) post := ⟨hf.reads, hf.done⟩

theorem Follows.read_bind (hc : c ∈ w) (hf : Follows w (f ()) post) :
    Follows w (event (.read c) >>= f) post := ⟨⟨hc, hf.reads⟩, hf.done⟩

theorem Follows.write_bind (hf : Follows (insert c w) (f ()) post) :
    Follows w (event (.write c) >>= f) post := ⟨hf.reads, hf.done⟩

end Traced

end Fields

end Lib
