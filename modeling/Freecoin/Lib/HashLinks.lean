import Mathlib.Data.Finset.Card
import Mathlib.Data.Finset.Dedup
import Mathlib.Data.List.Infix

/-!
# Values filed under their hash

A log of values, each filed under its own hash and each naming another value by the
hash of that. Filing a value under a hash that is taken replaces what was there. What
two logs make of the same hashes, and what they show from one hash back, is the same,
or the logs hold two different values with one hash. For a hash function with more
arguments than results that such a pair does not exist cannot be assumed; here it is
shown where it has to be.
-/

namespace Lib

variable {κ ρ : Type} (hash : ρ → κ)

/-- Two different values with one hash, one in each log. -/
def Collides (as bs : List ρ) : Prop := ∃ a ∈ as, ∃ b ∈ bs, a ≠ b ∧ hash a = hash b

/-- Values from the two logs with one hash are equal, or they collide. -/
theorem eq_or_collides {as bs : List ρ} {a b : ρ} (ha : a ∈ as) (hb : b ∈ bs)
    (h : hash a = hash b) : a = b ∨ Collides hash as bs := by
  by_cases hne : a = b
  · exact .inl hne
  · exact .inr ⟨a, ha, b, hb, hne, h⟩

/-- More different values than there are hashes collide. -/
theorem collides_of_card_lt [DecidableEq ρ] [DecidableEq κ] {log : List ρ} {range : Finset κ}
    (hrange : ∀ r ∈ log, hash r ∈ range) (hmany : range.card < log.dedup.length) :
    Collides hash log log := by
  have hcard : range.card < log.toFinset.card := by
    rw [List.card_toFinset]
    exact hmany
  obtain ⟨a, ha, b, hb, hne, hsame⟩ := Finset.exists_ne_map_eq_of_card_lt_of_maps_to hcard
    (f := hash) fun r hr => hrange r (List.mem_toFinset.mp hr)
  exact ⟨a, List.mem_toFinset.mp ha, b, List.mem_toFinset.mp hb, hne, hsame⟩

/-! ## What is filed -/

section Filed

variable [DecidableEq κ]

/-- What is filed under `k`: the last value of the log with that hash. -/
def filed (log : List ρ) (k : κ) : Option ρ := log.reverse.find? fun r => hash r = k

theorem filed_concat (log : List ρ) (r : ρ) (k : κ) :
    filed hash (log ++ [r]) k = if hash r = k then some r else filed hash log k := by
  rw [filed, List.reverse_append, List.reverse_singleton, List.singleton_append, List.find?_cons]
  by_cases h : hash r = k
  · simp [h]
  · simp [h, filed]

theorem filed_some {log : List ρ} {k : κ} {r : ρ} (h : filed hash log k = some r) :
    r ∈ log ∧ hash r = k := by
  refine ⟨List.mem_reverse.mp (List.mem_of_find?_eq_some h), ?_⟩
  simpa using List.find?_some h

theorem filed_isSome_iff (log : List ρ) (k : κ) :
    (filed hash log k).isSome = true ↔ ∃ r ∈ log, hash r = k := by
  simp [filed, List.find?_isSome]

theorem filed_isSome_perm {log log' : List ρ} (h : log.Perm log') (k : κ) :
    (filed hash log k).isSome = (filed hash log' k).isSome := by
  rw [Bool.eq_iff_iff, filed_isSome_iff, filed_isSome_iff]
  constructor
  · rintro ⟨r, hr, hk⟩
    exact ⟨r, h.mem_iff.mp hr, hk⟩
  · rintro ⟨r, hr, hk⟩
    exact ⟨r, h.mem_iff.mpr hr, hk⟩

/-- **Permanence.** What is filed stays, however long the log grows. -/
theorem filed_append {log : List ρ} {k : κ} {r : ρ} (h : filed hash log k = some r)
    (later : List ρ) : filed hash (log ++ later) k = some r ∨ Collides hash log later := by
  obtain ⟨hmem, hhash⟩ := filed_some hash h
  induction later using List.reverseRecOn with
  | nil => exact .inl (by rw [List.append_nil]; exact h)
  | append_singleton later last ih =>
      rw [← List.append_assoc, filed_concat]
      rcases ih with hstays | ⟨a, ha, b, hb, hc⟩
      · by_cases hlast : hash last = k
        · rw [if_pos hlast]
          have hmem' := List.mem_append_right later (List.mem_singleton_self last)
          rcases eq_or_collides hash hmem hmem' (hhash.trans hlast.symm) with rfl | hc
          · exact .inl rfl
          · exact .inr hc
        · rw [if_neg hlast]
          exact .inl hstays
      · exact .inr ⟨a, ha, b, List.mem_append_left _ hb, hc⟩

/-- **Convergence.** Two logs of the same hashes file the same values, in whatever order
and how often they came. -/
theorem filed_converge {as bs : List ρ} (h : ∀ k, (∃ a ∈ as, hash a = k) ↔ ∃ b ∈ bs, hash b = k) :
    (∀ k, filed hash as k = filed hash bs k) ∨ Collides hash as bs := by
  by_contra hnone
  rw [not_or] at hnone
  obtain ⟨hdiff, hfree⟩ := hnone
  apply hdiff
  intro k
  have hsame := (filed_isSome_iff hash as k).trans ((h k).trans (filed_isSome_iff hash bs k).symm)
  cases ha : filed hash as k with
  | none =>
      rw [ha] at hsame
      exact (Option.not_isSome_iff_eq_none.mp (mt hsame.mpr (by simp))).symm
  | some a =>
      rw [ha] at hsame
      obtain ⟨b, hb⟩ := Option.isSome_iff_exists.mp (hsame.mp rfl)
      obtain ⟨hamem, hahash⟩ := filed_some hash ha
      obtain ⟨hbmem, hbhash⟩ := filed_some hash hb
      rw [hb, (eq_or_collides hash hamem hbmem (hahash.trans hbhash.symm)).resolve_right hfree]

end Filed

/-! ## Histories -/

variable (link : ρ → κ)

/-- The values met from `k` back, at most `n` of them, as far as they are found. -/
def history (get : κ → Option ρ) : ℕ → κ → List ρ
  | 0, _ => []
  | n + 1, k =>
      match get k with
      | none => []
      | some r => r :: history get n (link r)

/-- What is found under a hash is a value of the log with that hash. -/
def FoundIn (log : List ρ) (get : κ → Option ρ) : Prop :=
  ∀ k r, get k = some r → r ∈ log ∧ hash r = k

variable {hash link}

/-- **Agreement.** From one hash back, two stores show the same history as far as both of
them go. -/
theorem history_agree {as bs : List ρ} {get get' : κ → Option ρ} (h : FoundIn hash as get)
    (h' : FoundIn hash bs get') : ∀ (n : ℕ) (k : κ),
      history link get n k <+: history link get' n k ∨
      history link get' n k <+: history link get n k ∨ Collides hash as bs := by
  intro n
  induction n with
  | zero => intro k; exact .inl (List.prefix_refl _)
  | succ n ih =>
      intro k
      rw [history, history]
      cases ha : get k with
      | none => exact .inl (List.nil_prefix ..)
      | some a =>
          cases hb : get' k with
          | none => exact .inr (.inl (List.nil_prefix ..))
          | some b =>
              obtain ⟨hamem, hahash⟩ := h k a ha
              obtain ⟨hbmem, hbhash⟩ := h' k b hb
              rcases eq_or_collides hash hamem hbmem (hahash.trans hbhash.symm) with rfl | hc
              · rcases ih (link a) with hle | hge | hc
                · exact .inl ((List.prefix_cons_inj a).mpr hle)
                · exact .inr (.inl ((List.prefix_cons_inj a).mpr hge))
                · exact .inr (.inr hc)
              · exact .inr (.inr hc)

end Lib
