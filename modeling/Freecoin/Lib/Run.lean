import Mathlib.Data.List.Infix
import Mathlib.Logic.Relation

/-!
# Runs of a system

Inversion of a sequence of computations that may fail, the kinds of error it
can fail with, the induction over the steps of a run (what every step
preserves, every run preserves), runs judged after every one of their inputs,
and loops that collect the output of their passes.
-/

namespace Lib

open Relation

/-- A sequence of two computations succeeds only if both do. -/
theorem ok_of_bind {ε α β : Type} {first : Except ε α} {next : α → Except ε β} {b : β}
    (h : (first >>= next) = .ok b) : ∃ a, first = .ok a ∧ next a = .ok b := by
  cases first with
  | error e => cases h
  | ok a => exact ⟨a, rfl, h⟩

theorem ok_of_map {ε α β : Type} {x : Except ε α} {f : α → β} {b : β} (h : x.map f = .ok b) :
    ∃ a, x = .ok a ∧ f a = b := by
  cases x with
  | error e => cases h
  | ok a => exact ⟨a, rfl, Except.ok.inj h⟩

/-- A last step that cannot fail does not change how a computation fails. -/
theorem bind_pure_eq_error_iff {ε α β : Type} (x : Except ε α) (f : α → β) (e : ε) :
    (x >>= fun a => pure (f a)) = .error e ↔ x = .error e := by
  cases x with
  | error e' =>
      constructor
      · intro h
        cases h
        rfl
      · intro h
        cases h
        rfl
  | ok a => exact ⟨(nomatch ·), (nomatch ·)⟩

/-! ## Kinds of failure -/

section FailsOnly

variable {ε α β σ ι : Type} {P : ε → Prop}

/-- The computation fails only with errors of the given kind, if at all. -/
structure FailsOnly (P : ε → Prop) (x : Except ε α) : Prop where
  kind : ∀ e, x = .error e → P e

theorem FailsOnly.ok (a : α) : FailsOnly P (.ok a : Except ε α) := by
  constructor
  intro e h
  cases h

theorem FailsOnly.error {e : ε} (h : P e) : FailsOnly P (.error e : Except ε α) := by
  constructor
  intro e' h'
  cases h'
  exact h

theorem FailsOnly.bind {x : Except ε α} {f : α → Except ε β} (hx : FailsOnly P x)
    (hf : ∀ a, FailsOnly P (f a)) : FailsOnly P (x >>= f) := by
  cases x with
  | error e => exact .error (hx.kind e rfl)
  | ok a => exact hf a

theorem FailsOnly.ite {c : Prop} [Decidable c] {x y : Except ε α} (hx : c → FailsOnly P x)
    (hy : ¬ c → FailsOnly P y) : FailsOnly P (if c then x else y) := by
  by_cases hc : c
  · rw [if_pos hc]
    exact hx hc
  · rw [if_neg hc]
    exact hy hc

theorem FailsOnly.map {x : Except ε α} {f : α → β} (hx : FailsOnly P x) :
    FailsOnly P (x.map f) := by
  cases x with
  | error e => exact .error (hx.kind e rfl)
  | ok a => exact .ok _

theorem FailsOnly.foldlM {f : σ → ι → Except ε σ} (h : ∀ s i, FailsOnly P (f s i)) :
    ∀ (items : List ι) (s : σ), FailsOnly P (items.foldlM f s) := by
  intro items
  induction items with
  | nil => intro s; exact .ok s
  | cons i rest ih =>
      intro s
      rw [List.foldlM_cons]
      exact (h s i).bind ih

end FailsOnly

variable {σ μ τ : Type}

/-- The steps of a system whose inputs all meet a condition on the state they
arrive in. -/
def Guarded (step : σ → μ → σ → Prop) (guard : σ → μ → Prop) (s s' : σ) : Prop :=
  ∃ m, guard s m ∧ step s m s'

/-- **Run rule.** What a step preserves holds in every state a run reaches. -/
theorem run_invariant {r : σ → σ → Prop} {P : σ → Prop}
    (hstep : ∀ s s', r s s' → P s → P s') {s s' : σ} (hrun : ReflTransGen r s s')
    (hs : P s) : P s' := by
  induction hrun with
  | refl => exact hs
  | tail _ h ih => exact hstep _ _ h ih

/-- **Frame rule.** What no step changes, no run changes. -/
theorem run_frame {r : σ → σ → Prop} {f : σ → τ} (hstep : ∀ s s', r s s' → f s' = f s)
    {s s' : σ} (hrun : ReflTransGen r s s') : f s' = f s :=
  run_invariant (P := fun x => f x = f s) (fun _ _ h hx => (hstep _ _ h).trans hx) hrun rfl

/-- **Step conditions.** If, while all has been well so far, another input keeps it
well exactly under a condition, then all is well after every part of a
sequence of inputs exactly when every input of it meets the condition. -/
theorem prefixes_iff (Good : List μ → Prop) (Cond : List μ → μ → Prop) (inputs : List μ)
    (hnil : Good [])
    (hstep : ∀ before m, before ++ [m] <+: inputs → (∀ p, p <+: before → Good p) →
      (Good (before ++ [m]) ↔ Cond before m)) :
    (∀ p, p <+: inputs → Good p) ↔ ∀ before m, before ++ [m] <+: inputs → Cond before m := by
  constructor
  · intro hgood before m hpre
    refine (hstep before m hpre fun p hp => hgood p ?_).mp (hgood _ hpre)
    exact (hp.trans (List.prefix_append before [m])).trans hpre
  · intro hcond
    -- by induction on the length, so that all shorter parts are known to be well
    have hlength : ∀ (n : ℕ) (p : List μ), p.length = n → p <+: inputs → Good p := by
      intro n
      induction n using Nat.strong_induction_on with
      | _ n ih =>
          intro p hn hpre
          rcases List.eq_nil_or_concat' p with rfl | ⟨before, m, rfl⟩
          · exact hnil
          · refine (hstep before m hpre ?_).mpr (hcond before m hpre)
            intro q hq
            have hlt : q.length < n := by
              have hle := hq.length_le
              simp only [List.length_append, List.length_singleton] at hn
              omega
            exact ih _ hlt q rfl ((hq.trans (List.prefix_append before [m])).trans hpre)
    intro p hpre
    exact hlength _ p rfl hpre

/-! ## Loops that collect output -/

section Collect

variable {ε ι α : Type}

/-- A loop over a list of items: each pass works on the state the one before left
and adds to the output, or fails. -/
def collect (pass : σ → ι → Except ε (σ × List α)) : List ι → σ → Except ε (List α)
  | [], _ => .ok []
  | i :: rest, s => do
      let done ← pass s i
      let later ← collect pass rest done.1
      return done.2 ++ later

/-- The same loop, with the state it ends in. -/
def collectState (pass : σ → ι → Except ε (σ × List α)) : List ι → σ → Except ε (σ × List α)
  | [], s => .ok (s, [])
  | i :: rest, s => do
      let done ← pass s i
      let later ← collectState pass rest done.1
      return (later.1, done.2 ++ later.2)

theorem collectState_congr {pass pass' : σ → ι → Except ε (σ × List α)} :
    ∀ (items : List ι) (s : σ), (∀ i ∈ items, ∀ s, pass s i = pass' s i) →
      collectState pass items s = collectState pass' items s := by
  intro items
  induction items with
  | nil => intro s _; rfl
  | cons i rest ih =>
      intro s h
      obtain ⟨hi, hrest⟩ := List.forall_mem_cons.mp h
      rw [collectState, collectState, hi s]
      refine bind_congr fun done => ?_
      rw [ih done.1 hrest]

theorem FailsOnly.collectState {P : ε → Prop} {pass : σ → ι → Except ε (σ × List α)}
    (h : ∀ s i, FailsOnly P (pass s i)) :
    ∀ (items : List ι) (s : σ), FailsOnly P (collectState pass items s) := by
  intro items
  induction items with
  | nil => intro s; exact .ok _
  | cons i rest ih =>
      intro s
      exact (h s i).bind fun done => (ih done.1).bind fun later => .ok _

/-- **Rule for loops that go on.** If every pass succeeds from where the loop may stand, gets it
to where it may stand again and puts out nothing unexpected, so does the loop. -/
theorem collectState_total {P : σ → Prop} {Q : α → Prop} {pass : σ → ι → Except ε (σ × List α)} :
    ∀ {items : List ι} {s : σ}, (∀ i ∈ items, ∀ s, P s →
      ∃ s' out, pass s i = .ok (s', out) ∧ P s' ∧ ∀ a ∈ out, Q a) → P s →
      ∃ s' out, collectState pass items s = .ok (s', out) ∧ P s' ∧ ∀ a ∈ out, Q a := by
  intro items
  induction items with
  | nil =>
      intro s _ hs
      exact ⟨s, [], rfl, hs, List.forall_mem_nil _⟩
  | cons i rest ih =>
      intro s h hs
      obtain ⟨hi, hrest⟩ := List.forall_mem_cons.mp h
      obtain ⟨s₁, first, hpass, hs₁, hfirst⟩ := hi s hs
      obtain ⟨s₂, later, hloop, hs₂, hlater⟩ := ih hrest hs₁
      refine ⟨s₂, first ++ later, ?_, hs₂, ?_⟩
      · rw [collectState, hpass]
        show (collectState pass rest s₁ >>= fun later => pure (later.1, first ++ later.2)) = _
        rw [hloop]
        rfl
      · intro a ha
        rcases List.mem_append.mp ha with ha | ha
        · exact hfirst a ha
        · exact hlater a ha

/-- **Rule for loops with output.** What every pass keeps, said of the state and of everything put
out up to then, the loop keeps. -/
theorem collectState_log {P : List α → σ → Prop} {pass : σ → ι → Except ε (σ × List α)}
    (h : ∀ log s i s' out, pass s i = .ok (s', out) → P log s → P (log ++ out) s') :
    ∀ {items : List ι} {log : List α} {s s' : σ} {out : List α},
      collectState pass items s = .ok (s', out) → P log s → P (log ++ out) s' := by
  intro items
  induction items with
  | nil =>
      intro log s s' out hrun hs
      cases hrun
      rwa [List.append_nil]
  | cons i rest ih =>
      intro log s s' out hrun hs
      obtain ⟨⟨s₁, first⟩, hpass, hrun⟩ := ok_of_bind hrun
      obtain ⟨⟨s₂, later⟩, hlater, hret⟩ := ok_of_bind hrun
      cases hret
      rw [← List.append_assoc]
      exact ih hlater (h _ _ _ _ _ hpass hs)

/-- What every pass keeps of the state the loop keeps, and what is put out in such states is as
in every pass. -/
theorem collectState_invariant {P : σ → Prop} {Q : α → Prop}
    {pass : σ → ι → Except ε (σ × List α)}
    (h : ∀ s i s' out, pass s i = .ok (s', out) → P s → P s' ∧ ∀ a ∈ out, Q a)
    {items : List ι} {s s' : σ} {out : List α} (hrun : collectState pass items s = .ok (s', out))
    (hs : P s) : P s' ∧ ∀ a ∈ out, Q a := by
  have hlog := collectState_log (P := fun log t => P t ∧ ∀ a ∈ log, Q a) ?_ hrun
    ⟨hs, List.forall_mem_nil Q⟩
  · exact hlog
  · intro log s i s' out hpass hs
    obtain ⟨hs', hout⟩ := h _ _ _ _ hpass hs.1
    exact ⟨hs', List.forall_mem_append.mpr ⟨hs.2, hout⟩⟩

theorem collectState_append {pass : σ → ι → Except ε (σ × List α)} {rest : List ι} :
    ∀ {items : List ι} {s s₁ s₂ : σ} {out later : List α},
      collectState pass items s = .ok (s₁, out) → collectState pass rest s₁ = .ok (s₂, later) →
        collectState pass (items ++ rest) s = .ok (s₂, out ++ later) := by
  intro items
  induction items with
  | nil =>
      intro s s₁ s₂ out later hitems hrest
      cases hitems
      exact hrest
  | cons i items ih =>
      intro s s₁ s₂ out later hitems hrest
      obtain ⟨⟨t, first⟩, hpass, hitems⟩ := ok_of_bind hitems
      obtain ⟨⟨t', middle⟩, hmiddle, hret⟩ := ok_of_bind hitems
      cases hret
      have hboth := ih hmiddle hrest
      rw [List.cons_append, collectState, hpass]
      show (collectState pass (items ++ rest) t >>= fun done => pure (done.1, first ++ done.2)) = _
      rw [hboth, List.append_assoc]
      rfl

/-- In every pass of the loop the output is the wanted one. -/
def Collects (pass : σ → ι → Except ε (σ × List α)) (want : ι → List α) : List ι → σ → Prop
  | [], _ => True
  | i :: rest, s => ∃ s', pass s i = .ok (s', want i) ∧ Collects pass want rest s'

variable {pass : σ → ι → Except ε (σ × List α)} {want : ι → List α}

/-- **Rule for collecting loops.** If a pass that succeeds always puts out as many
items as are wanted, a loop over the first items puts out what is wanted for
all of them exactly when nothing is wanted for the others and every pass puts
out what is wanted for it. -/
theorem collect_eq_ok_iff
    (hlength : ∀ s i s' out, pass s i = .ok (s', out) → out.length = (want i).length)
    (others : List ι) : ∀ (items : List ι) (s : σ),
      collect pass items s = .ok ((items ++ others).flatMap want) ↔
        (∀ i ∈ others, want i = []) ∧ Collects pass want items s := by
  intro items
  induction items with
  | nil =>
      intro s
      rw [collect, Collects, and_true, List.nil_append, Except.ok.injEq, eq_comm,
        List.flatMap_eq_nil_iff]
  | cons i rest ih =>
      intro s
      rw [List.cons_append, List.flatMap_cons, Collects]
      constructor
      · intro h
        obtain ⟨⟨s', out⟩, hpass, h⟩ := ok_of_bind h
        obtain ⟨later, hlater, h⟩ := ok_of_bind h
        obtain ⟨hout, hrest⟩ := List.append_inj (Except.ok.inj h) (hlength _ _ _ _ hpass)
        dsimp only at hout hrest hlater
        rw [hrest] at hlater
        obtain ⟨hothers, hall⟩ := (ih s').mp hlater
        rw [hout] at hpass
        exact ⟨hothers, s', hpass, hall⟩
      · rintro ⟨hothers, s', hpass, hall⟩
        have hlater := (ih s').mpr ⟨hothers, hall⟩
        rw [collect, hpass]
        show (collect pass rest s' >>= fun later => pure (want i ++ later)) = _
        rw [hlater]
        rfl

/-- What holds of everything a pass puts out holds of everything the loop does. -/
theorem collect_forall {P : α → Prop}
    (h : ∀ s i s' out, pass s i = .ok (s', out) → ∀ a ∈ out, P a) :
    ∀ {items : List ι} {s : σ} {out : List α}, collect pass items s = .ok out →
      ∀ a ∈ out, P a := by
  intro items
  induction items with
  | nil =>
      intro s out hrun
      cases hrun
      exact fun a ha => absurd ha List.not_mem_nil
  | cons i rest ih =>
      intro s out hrun
      obtain ⟨⟨s', first⟩, hpass, hrun⟩ := ok_of_bind hrun
      obtain ⟨later, hlater, hrun⟩ := ok_of_bind hrun
      cases hrun
      intro a ha
      rcases List.mem_append.mp ha with ha | ha
      · exact h _ _ _ _ hpass a ha
      · exact ih hlater a ha

/-- Passes whose success does not depend on the state can be judged one by one. -/
theorem collects_iff_forall {P : ι → Prop}
    (h : ∀ s i, (∃ s', pass s i = .ok (s', want i)) ↔ P i) :
    ∀ (items : List ι) (s : σ), Collects pass want items s ↔ ∀ i ∈ items, P i := by
  intro items
  induction items with
  | nil => intro s; exact ⟨fun _ i hi => absurd hi List.not_mem_nil, fun _ => trivial⟩
  | cons i rest ih =>
      intro s
      rw [Collects, List.forall_mem_cons]
      constructor
      · rintro ⟨s', hpass, hrest⟩
        exact ⟨(h s i).mp ⟨s', hpass⟩, (ih s').mp hrest⟩
      · rintro ⟨hi, hrest⟩
        obtain ⟨s', hpass⟩ := (h s i).mpr hi
        exact ⟨s', hpass, (ih s').mpr hrest⟩

end Collect

end Lib
