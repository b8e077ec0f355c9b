import Freecoin.Lib.Traced

/-!
# A mutex

One thread that uses a mutex and the data behind it leaves a trace, and is
disciplined if it holds the mutex whenever it touches the data. Of all threads, the
one that holds the mutex is the one that is where it holds it.
-/

namespace Lib

/-! ## One thread -/

/-- What a thread does with a mutex and with the data behind it. -/
inductive MutexEvent : Type where
  | lock
  | unlock
  | touch
deriving DecidableEq

/-- Whether the thread holds the mutex at the end. -/
def heldAfter : Bool → List MutexEvent → Bool
  | held, [] => held
  | _, .lock :: rest => heldAfter true rest
  | _, .unlock :: rest => heldAfter false rest
  | held, .touch :: rest => heldAfter held rest

/-- Each time the thread touches the data, it holds the mutex. -/
def Disciplined : Bool → List MutexEvent → Prop
  | _, [] => True
  | _, .lock :: rest => Disciplined true rest
  | _, .unlock :: rest => Disciplined false rest
  | held, .touch :: rest => held = true ∧ Disciplined held rest

theorem heldAfter_append : ∀ (held : Bool) (l l' : List MutexEvent),
    heldAfter held (l ++ l') = heldAfter (heldAfter held l) l' := by
  intro held l l'
  induction l generalizing held with
  | nil => rfl
  | cons w rest ih => cases w <;> exact ih _

theorem disciplined_append : ∀ (held : Bool) (l l' : List MutexEvent),
    Disciplined held (l ++ l') ↔ Disciplined held l ∧ Disciplined (heldAfter held l) l' := by
  intro held l l'
  induction l generalizing held with
  | nil => exact (and_iff_right trivial).symm
  | cons w rest ih =>
      cases w with
      | lock => exact ih true
      | unlock => exact ih false
      | touch => exact (and_congr_right fun _ => ih held).trans and_assoc.symm

section Touches

variable {l : List MutexEvent} (h : ∀ w ∈ l, w = .touch)

include h

/-- Touching the data leaves the mutex as it is. -/
theorem heldAfter_touches (held : Bool) : heldAfter held l = held := by
  induction l with
  | nil => rfl
  | cons w rest ih =>
      obtain ⟨rfl, hrest⟩ := List.forall_mem_cons.mp h
      exact ih hrest

/-- A thread that holds the mutex may touch the data. -/
theorem disciplined_held_touches : Disciplined true l := by
  induction l with
  | nil => trivial
  | cons w rest ih =>
      obtain ⟨rfl, hrest⟩ := List.forall_mem_cons.mp h
      exact ⟨rfl, ih hrest⟩

/-- Without the mutex it may not. -/
theorem disciplined_free_touches_iff : Disciplined false l ↔ l = [] := by
  cases l with
  | nil => exact iff_of_true trivial rfl
  | cons w rest =>
      obtain ⟨rfl, -⟩ := List.forall_mem_cons.mp h
      exact iff_of_false (fun hl => nomatch hl.1) (List.cons_ne_nil _ _)

end Touches

namespace Traced

variable {ε α β : Type}

/-- A call that touches the data. -/
def touching (x : Except ε α) : Traced MutexEvent ε α := do
  event .touch
  lift x

/-- A critical section. -/
def locked (x : Traced MutexEvent ε α) : Traced MutexEvent ε α := do
  event .lock
  let a ← x
  event .unlock
  return a

@[simp] theorem result_touching (x : Except ε α) : (touching x).result = x := rfl

@[simp] theorem events_touching (x : Except ε α) : (touching x).events = [.touch] := rfl

@[simp] theorem result_locked (x : Traced MutexEvent ε α) : (locked x).result = x.result :=
  bind_pure x.result

theorem Records.touching (x : Except ε α) : Records (· = .touch) (touching x) :=
  ⟨fun _ hw => List.mem_singleton.mp hw⟩

/-- The computation starts without the mutex, holds it whenever it touches the data,
and has left it again when it gets to its end. -/
structure Bracketed (x : Traced MutexEvent ε α) : Prop where
  disciplined : Disciplined false x.events
  released : ∀ a, x.result = .ok a → heldAfter false x.events = false

theorem Bracketed.lift (x : Except ε α) : Bracketed (lift x) := ⟨trivial, fun _ _ => rfl⟩

/-- **Critical sections** in which the data is touched. -/
theorem Bracketed.locked {x : Traced MutexEvent ε α} (h : Records (· = .touch) x) :
    Bracketed (locked x) := by
  have hevents : (Traced.locked x).events =
      .lock :: (x.events ++ eventsAfter x.result fun _ => (event .unlock : Traced _ ε Unit)) := by
    cases hx : x.result <;> simp [Traced.locked, events_bind, hx]
  constructor
  · rw [hevents]
    refine (disciplined_append true _ _).mpr ⟨disciplined_held_touches h.kind, ?_⟩
    cases x.result <;> trivial
  · intro a ha
    rw [result_locked] at ha
    rw [hevents, ha]
    exact heldAfter_append true _ _

theorem Bracketed.map {x : Traced MutexEvent ε α} (h : Bracketed x) (g : α → β) :
    Bracketed (x >>= fun a => pure (g a)) := by
  constructor
  · rw [events_bind_pure]
    exact h.disciplined
  · intro b hb
    rw [events_bind_pure]
    cases hx : x.result with
    | error e =>
        rw [result_bind, hx] at hb
        cases hb
    | ok a => exact h.released a hx

end Traced

/-! ## All threads -/

section Holder

variable {τ : Type} {owner : Option τ} {holds holds' : τ → Prop}

/-- The mutex is held by a thread if and only if the thread is where it holds it. -/
def HeldBy (owner : Option τ) (holds : τ → Prop) : Prop := ∀ t, owner = some t ↔ holds t

/-- **Mutual exclusion.** -/
theorem HeldBy.unique (h : HeldBy owner holds) {t t' : τ} (ht : holds t) (ht' : holds t') :
    t = t' := by
  have howner := (h t).mpr ht
  rw [(h t').mpr ht'] at howner
  exact (Option.some_inj.mp howner).symm

/-- A step that has nothing to do with the mutex. -/
theorem HeldBy.other (h : HeldBy owner holds) (hsame : ∀ t, holds' t ↔ holds t) :
    HeldBy owner holds' := by
  intro t
  rw [hsame]
  exact h t

/-- A thread takes the mutex. -/
theorem HeldBy.lock (h : HeldBy none holds) {t : τ}
    (hlock : ∀ t', holds' t' ↔ t' = t ∨ holds t') : HeldBy (some t) holds' := by
  intro t'
  have hnone : ¬ holds t' := fun ht' => Option.some_ne_none t' ((h t').mpr ht').symm
  rw [hlock, Option.some_inj, eq_comm]
  exact (or_iff_left hnone).symm

/-- The thread that holds it gives it back. -/
theorem HeldBy.unlock (h : HeldBy owner holds) {t : τ} (ht : holds t)
    (hunlock : ∀ t', holds' t' ↔ t' ≠ t ∧ holds t') : HeldBy none holds' := by
  intro t'
  rw [hunlock]
  apply iff_of_false (Option.some_ne_none t').symm
  rintro ⟨hne, ht'⟩
  exact hne (h.unique ht' ht)

end Holder

end Lib
