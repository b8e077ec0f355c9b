import Freecoin.Lib.Mutex
import Freecoin.Lib.Run

/-!
# Critical sections of many threads

Any number of threads work on shared data, each in one critical section of the same
mutex, and their steps come in any order. Whenever a run is looked at, the sections
that are over have been gone through one after the other, in the order in which they
were left: each of them has found the data as the one before it left them. The order
of an earlier point of a run is the first part of the order of a later one, so a
section that was over before another one was entered stands before it.
-/

namespace Lib

variable {ι σ κ ε α : Type}

/-- A critical section: where it starts, and what a step makes of the data. The last
step yields a result; what is left then is to unlock the mutex. -/
structure Section (σ κ ε α : Type) : Type where
  enter : κ
  step : σ → κ → Except ε (σ × (κ ⊕ α))

/-- `rest` is what is still to be done from a point of the section on. -/
structure Section.Leaves (S : Section σ κ ε α) (rest : σ → κ ⊕ α → Except ε (σ × α)) :
    Prop where
  ends : ∀ d a, rest d (.inr a) = .ok (d, a)
  step : ∀ {d d' k l}, S.step d k = .ok (d', l) → rest d' l = rest d (.inl k)

/-- Where a thread is. -/
inductive Phase (κ α : Type) : Type where
  | waiting
  | inside (l : κ ⊕ α)
  | done (a : α)

/-- The data, who holds the mutex, and where each thread is. -/
structure Shared (ι σ κ α : Type) : Type where
  data : σ
  owner : Option ι
  phase : ι → Phase κ α

/-- No thread has got the mutex yet. -/
def Shared.start (d : σ) : Shared ι σ κ α := ⟨d, none, fun _ => .waiting⟩

/-- What happens next: a thread gets the mutex, takes a step, or unlocks the mutex. -/
inductive SectionEvent (ι : Type) : Type where
  | lock (i : ι)
  | step (i : ι)
  | unlock (i : ι)

/-! ## One after the other -/

/-- The sections of `order` one after the other, each at one go, with the results that
go with them. -/
def InTurn (whole : ι → σ → Except ε (σ × α)) : List (ι × α) → σ → σ → Prop
  | [], d, d' => d' = d
  | (i, a) :: rest, d, d' => ∃ e, whole i d = .ok (e, a) ∧ InTurn whole rest e d'

theorem InTurn.append {whole : ι → σ → Except ε (σ × α)} {order : List (ι × α)} {d e d' : σ}
    {i : ι} {a : α} (h : InTurn whole order d e) (hlast : whole i e = .ok (d', a)) :
    InTurn whole (order ++ [(i, a)]) d d' := by
  induction order generalizing d with
  | nil =>
      cases h
      exact ⟨d', hlast, rfl⟩
  | cons first rest ih =>
      obtain ⟨j, b⟩ := first
      obtain ⟨f, hfirst, hrest⟩ := h
      exact ⟨f, hfirst, ih hrest⟩

/-- The thread is between lock and unlock. -/
def Shared.Inside (s : Shared ι σ κ α) (i : ι) : Prop := ∃ l, s.phase i = .inside l

variable (S : ι → Section σ κ ε α) (rest : ι → σ → κ ⊕ α → Except ε (σ × α))

/-- What a thread does in its section. -/
def wholeSection (i : ι) (d : σ) : Except ε (σ × α) := rest i d (.inl (S i).enter)

/-- The sections of `order` are the ones that are over, and they have been gone through
in that order; the thread that holds the mutex has started where they end. -/
structure Serial (d₀ : σ) (order : List (ι × α)) (s : Shared ι σ κ α) : Prop where
  nodup : (order.map Prod.fst).Nodup
  finished : ∀ i a, s.phase i = .done a ↔ (i, a) ∈ order
  held : HeldBy s.owner s.Inside
  turn : ∃ d, InTurn (wholeSection S rest) order d₀ d ∧ (s.owner = none → s.data = d) ∧
    ∀ i l, s.phase i = .inside l → rest i s.data l = wholeSection S rest i d

variable {S rest} {d₀ : σ} {order : List (ι × α)} {s s' : Shared ι σ κ α}

theorem serial_start (d₀ : σ) : Serial S rest d₀ [] (Shared.start d₀) := by
  refine ⟨List.nodup_nil, ?_, ?_, d₀, rfl, fun _ => rfl, ?_⟩
  · intro i a
    exact iff_of_false (fun h => nomatch h) List.not_mem_nil
  · intro i
    exact iff_of_false (fun h => nomatch h) fun ⟨l, h⟩ => nomatch h
  · intro i l h
    cases h

/-! ## Runs -/

section Runs

variable [DecidableEq ι]

/-- A thread comes to `p`. -/
def Shared.move (s : Shared ι σ κ α) (i : ι) (p : Phase κ α) : ι → Phase κ α :=
  Function.update s.phase i p

def sectionStep (S : ι → Section σ κ ε α) (s : Shared ι σ κ α) :
    SectionEvent ι → Option (Shared ι σ κ α)
  | .lock i =>
      match s.owner, s.phase i with
      | none, .waiting => some ⟨s.data, some i, s.move i (.inside (.inl (S i).enter))⟩
      | _, _ => none
  | .step i =>
      match s.phase i with
      | .inside (.inl k) =>
          match (S i).step s.data k with
          | .ok (d, l) => some ⟨d, s.owner, s.move i (.inside l)⟩
          | .error _ => none
      | _ => none
  | .unlock i =>
      match s.phase i with
      | .inside (.inr a) => some ⟨s.data, none, s.move i (.done a)⟩
      | _ => none

/-- A run, if it can go on to its end. -/
def sectionRun (S : ι → Section σ κ ε α) (events : List (SectionEvent ι)) (s : Shared ι σ κ α) :
    Option (Shared ι σ κ α) :=
  events.foldlM (sectionStep S) s

theorem Shared.move_self (s : Shared ι σ κ α) (i : ι) (p : Phase κ α) : s.move i p i = p :=
  Function.update_self ..

theorem Shared.move_other {i j : ι} (h : j ≠ i) (s : Shared ι σ κ α) (p : Phase κ α) :
    s.move i p j = s.phase j :=
  Function.update_of_ne h ..

/-- A step, by what it does. -/
inductive SectionMoves (S : ι → Section σ κ ε α) (s : Shared ι σ κ α) :
    SectionEvent ι → Shared ι σ κ α → Prop where
  | lock {i : ι} (hfree : s.owner = none) (hphase : s.phase i = .waiting) :
      SectionMoves S s (.lock i) ⟨s.data, some i, s.move i (.inside (.inl (S i).enter))⟩
  | step {i : ι} {k : κ} {d : σ} {l : κ ⊕ α} (hphase : s.phase i = .inside (.inl k))
      (hstep : (S i).step s.data k = .ok (d, l)) :
      SectionMoves S s (.step i) ⟨d, s.owner, s.move i (.inside l)⟩
  | unlock {i : ι} {a : α} (hphase : s.phase i = .inside (.inr a)) :
      SectionMoves S s (.unlock i) ⟨s.data, none, s.move i (.done a)⟩

theorem sectionStep_cases {m : SectionEvent ι} (h : sectionStep S s m = some s') :
    SectionMoves S s m s' := by
  cases m with
  | lock i =>
      rw [sectionStep] at h
      split at h
      · next hfree hphase =>
          cases h
          exact .lock hfree hphase
      · cases h
  | step i =>
      rw [sectionStep] at h
      split at h
      · next hphase =>
          split at h
          · next hstep =>
              cases h
              exact .step hphase hstep
          · cases h
      · cases h
  | unlock i =>
      rw [sectionStep] at h
      split at h
      · next hphase =>
          cases h
          exact .unlock hphase
      · cases h

/-- A thread whose section is not over leaves the others' as they are. -/
theorem Serial.finished_move (h : Serial S rest d₀ order s) {i : ι} {p : Phase κ α}
    (hbefore : ∀ a, s.phase i ≠ .done a) (hafter : ∀ a, p ≠ .done a) (j : ι) (a : α) :
    s.move i p j = .done a ↔ (j, a) ∈ order := by
  by_cases hj : j = i
  · subst hj
    rw [Shared.move_self]
    exact iff_of_false (hafter a) fun hmem => hbefore a ((h.finished j a).mpr hmem)
  · rw [Shared.move_other hj]
    exact h.finished j a

/-- A thread gets the mutex: it starts where the order ends. -/
theorem Serial.lock (h : Serial S rest d₀ order s) {i : ι} (hfree : s.owner = none)
    (hphase : s.phase i = .waiting) :
    Serial S rest d₀ order ⟨s.data, some i, s.move i (.inside (.inl (S i).enter))⟩ := by
  obtain ⟨d, hturn, hdata, -⟩ := h.turn
  have hheld := h.held
  rw [hfree] at hheld
  have hout : ∀ j, ¬ s.Inside j := fun j hj => nomatch (hheld j).mpr hj
  refine ⟨h.nodup, h.finished_move (by simp [hphase]) (by simp), ?_, d, hturn, (nomatch ·), ?_⟩
  · refine hheld.lock fun j => ?_
    by_cases hj : j = i
    · subst hj
      simp [Shared.Inside, Shared.move_self]
    · simp [Shared.Inside, Shared.move_other hj, hj]
  · intro j l hl
    by_cases hj : j = i
    · subst hj
      simp only [Shared.move_self, Phase.inside.injEq] at hl
      subst hl
      rw [hdata hfree, wholeSection]
    · simp only [Shared.move_other hj] at hl
      exact absurd ⟨l, hl⟩ (hout j)

/-- A step in a section leaves as much to do as it takes off. -/
theorem Serial.step (hS : ∀ i, (S i).Leaves (rest i)) (h : Serial S rest d₀ order s) {i : ι}
    {k : κ} {d : σ} {l : κ ⊕ α} (hphase : s.phase i = .inside (.inl k))
    (hstep : (S i).step s.data k = .ok (d, l)) :
    Serial S rest d₀ order ⟨d, s.owner, s.move i (.inside l)⟩ := by
  obtain ⟨e, hturn, -, hrest⟩ := h.turn
  have howner : s.owner = some i := (h.held i).mpr ⟨_, hphase⟩
  refine ⟨h.nodup, h.finished_move (by simp [hphase]) (by simp), ?_, e, hturn, ?_, ?_⟩
  · refine h.held.other fun j => ?_
    by_cases hj : j = i
    · subst hj
      exact iff_of_true ⟨l, Shared.move_self ..⟩ ⟨_, hphase⟩
    · simp [Shared.Inside, Shared.move_other hj]
  · intro hnone
    cases howner.symm.trans hnone
  · intro j l' hl'
    by_cases hj : j = i
    · subst hj
      simp only [Shared.move_self, Phase.inside.injEq] at hl'
      subst hl'
      rw [(hS j).step hstep]
      exact hrest j _ hphase
    · simp only [Shared.move_other hj] at hl'
      exact absurd (h.held.unique ⟨l', hl'⟩ ⟨_, hphase⟩) hj

/-- A thread unlocks the mutex: it is the next in the order. -/
theorem Serial.unlock (hS : ∀ i, (S i).Leaves (rest i)) (h : Serial S rest d₀ order s) {i : ι}
    {a : α} (hphase : s.phase i = .inside (.inr a)) :
    Serial S rest d₀ (order ++ [(i, a)]) ⟨s.data, none, s.move i (.done a)⟩ := by
  obtain ⟨d, hturn, -, hrest⟩ := h.turn
  have hnew : ∀ b, (i, b) ∉ order := by
    intro b hmem
    cases hphase.symm.trans ((h.finished i b).mpr hmem)
  have hwhole : wholeSection S rest i d = .ok (s.data, a) := by
    rw [← hrest i _ hphase]
    exact (hS i).ends ..
  refine ⟨?_, ?_, ?_, s.data, hturn.append hwhole, fun _ => rfl, ?_⟩
  · rw [List.map_append, List.map_singleton, List.nodup_append]
    refine ⟨h.nodup, List.nodup_singleton i, ?_⟩
    intro j hj k hk
    obtain ⟨⟨j', b⟩, hmem, rfl⟩ := List.mem_map.mp hj
    rw [List.mem_singleton.mp hk]
    rintro rfl
    exact hnew b hmem
  · intro j b
    rw [List.mem_append, List.mem_singleton]
    by_cases hj : j = i
    · subst hj
      simp [Shared.move_self, hnew b, eq_comm]
    · simp only [Shared.move_other hj, h.finished j b]
      simp [hj]
  · refine h.held.unlock (t := i) ⟨_, hphase⟩ fun j => ?_
    by_cases hj : j = i
    · subst hj
      simp [Shared.Inside, Shared.move_self]
    · simp [Shared.Inside, Shared.move_other hj, hj]
  · intro j l hl
    by_cases hj : j = i
    · subst hj
      simp [Shared.move_self] at hl
    · simp only [Shared.move_other hj] at hl
      exact absurd (h.held.unique ⟨l, hl⟩ ⟨_, hphase⟩) hj

/-- **Serialisation.** However the steps of the threads are mixed, the sections that are
over have been gone through one after the other, and what follows is added at the
end of their order. -/
theorem Serial.run (hS : ∀ i, (S i).Leaves (rest i)) {events : List (SectionEvent ι)}
    (h : Serial S rest d₀ order s) (hrun : sectionRun S events s = some s') :
    ∃ later, Serial S rest d₀ (order ++ later) s' := by
  induction events generalizing s order with
  | nil =>
      cases hrun
      exact ⟨[], by rwa [List.append_nil]⟩
  | cons m events ih =>
      obtain ⟨r, hfirst, hrest⟩ := Option.bind_eq_some_iff.mp hrun
      have hnext : ∃ more, Serial S rest d₀ (order ++ more) r := by
        cases sectionStep_cases hfirst with
        | lock hfree hphase => exact ⟨[], by rw [List.append_nil]; exact h.lock hfree hphase⟩
        | step hphase hstep => exact ⟨[], by rw [List.append_nil]; exact h.step hS hphase hstep⟩
        | unlock hphase => exact ⟨_, h.unlock hS hphase⟩
      obtain ⟨more, hmore⟩ := hnext
      obtain ⟨later, hlater⟩ := ih hmore hrest
      exact ⟨more ++ later, by rw [← List.append_assoc]; exact hlater⟩

end Runs

end Lib
