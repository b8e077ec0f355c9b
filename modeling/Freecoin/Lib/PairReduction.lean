import Mathlib.Data.List.Basic
import Mathlib.Tactic

/-!
# Reducing a list in pairs

One level of the reduction combines neighbours two by two; a last element
without a neighbour is combined with itself. Repeated until at most one
element remains this is the root of a hash tree over the list.

The self-pairing makes roots ambiguous between lists of different lengths. It
is harmless between lists of the same length: there the list of pairs
determines the list, so two equal roots either come from equal lists or
exhibit two different pairs with the same combination.
-/

namespace Lib

variable {α : Type*}

/-- The pairs that one level combines, in order. -/
def pairs : List α → List (α × α)
  | [] => []
  | [a] => [(a, a)]
  | a :: b :: l => (a, b) :: pairs l

/-- One level. -/
def pairUp (f : α × α → α) (l : List α) : List α := (pairs l).map f

/-- Levels until at most one element is left; `n` bounds their number. -/
def reduce (f : α × α → α) : ℕ → List α → List α
  | 0, l => l
  | n + 1, l => if l.length ≤ 1 then l else reduce f n (pairUp f l)

/-- All pairs combined on the way, level by level. -/
def reducePairs (f : α × α → α) : ℕ → List α → List (α × α)
  | 0, _ => []
  | n + 1, l => if l.length ≤ 1 then [] else pairs l ++ reducePairs f n (pairUp f l)

/-- The reduction as a rule: one element is the result, more than one are replaced by
the next level. -/
inductive ReducesTo (f : α × α → α) : List α → α → Prop where
  | single (a : α) : ReducesTo f [a] a
  | level {l : List α} {r : α} (hmore : 1 < l.length) (hup : ReducesTo f (pairUp f l) r) :
      ReducesTo f l r

@[simp] theorem pairs_length : ∀ l : List α, (pairs l).length = (l.length + 1) / 2
  | [] => by simp [pairs]
  | [_] => by simp [pairs]
  | a :: b :: l => by
      rw [pairs, List.length_cons, pairs_length l, List.length_cons, List.length_cons]
      omega

@[simp] theorem pairUp_length (f : α × α → α) (l : List α) :
    (pairUp f l).length = (l.length + 1) / 2 := by
  simp [pairUp]

/-- The `j`-th pair by position: neighbours `2j` and `2j+1`, the last element
twice when there is no neighbour. -/
theorem pairs_getElem? : ∀ (l : List α) (j : ℕ),
    (pairs l)[j]? = l[2 * j]?.map fun a => (a, (l[2 * j + 1]?).getD a)
  | [], j => by simp [pairs]
  | [a], 0 => by simp [pairs]
  | [a], j + 1 => by simp [pairs, Nat.mul_add]
  | a :: b :: l, 0 => by simp [pairs]
  | a :: b :: l, j + 1 => by
      rw [pairs, List.getElem?_cons_succ, pairs_getElem? l j,
        show 2 * (j + 1) = 2 * j + 1 + 1 by ring, List.getElem?_cons_succ,
        List.getElem?_cons_succ, List.getElem?_cons_succ, List.getElem?_cons_succ]

/-- Lists of the same length with the same pairs are equal. -/
theorem pairs_injective : ∀ {l₁ l₂ : List α}, l₁.length = l₂.length →
    pairs l₁ = pairs l₂ → l₁ = l₂
  | [], [], _, _ => rfl
  | [a], [b], _, h => by
      simp only [pairs, List.cons.injEq, Prod.mk.injEq, and_true, and_self] at h
      rw [h]
  | a :: b :: l₁, c :: d :: l₂, hlen, h => by
      simp only [pairs, List.cons.injEq, Prod.mk.injEq] at h
      obtain ⟨⟨rfl, rfl⟩, h⟩ := h
      have hl : l₁.length = l₂.length := by simpa using hlen
      rw [pairs_injective hl h]

/-- Equal images of two lists: the lists are equal, or two different members
have the same image. -/
theorem eq_or_collision {β γ : Type*} (f : β → γ) : ∀ {l₁ l₂ : List β},
    l₁.map f = l₂.map f → l₁ = l₂ ∨ ∃ p ∈ l₁, ∃ q ∈ l₂, p ≠ q ∧ f p = f q
  | [], [], _ => Or.inl rfl
  | p :: l₁, q :: l₂, h => by
      obtain ⟨hpq, h⟩ : f p = f q ∧ l₁.map f = l₂.map f := by simpa using h
      by_cases hne : p = q
      · rcases eq_or_collision f h with rfl | ⟨p', hp', q', hq', hc⟩
        · exact Or.inl (by rw [hne])
        · exact Or.inr ⟨p', List.mem_cons_of_mem _ hp', q', List.mem_cons_of_mem _ hq', hc⟩
      · exact Or.inr ⟨p, List.mem_cons_self, q, List.mem_cons_self, hne, hpq⟩

theorem reducesTo_of_reduce (f : α × α → α) : ∀ (n : ℕ) {l : List α} {r : α},
    reduce f n l = [r] → ReducesTo f l r := by
  intro n
  induction n with
  | zero =>
      intro l r h
      obtain rfl : l = [r] := h
      exact .single r
  | succ n ih =>
      intro l r h
      rw [reduce] at h
      split at h
      · obtain rfl : l = [r] := h
        exact .single r
      · rename_i hmore
        exact .level (Nat.not_le.mp hmore) (ih h)

/-- **Binding.** Two lists of the same length that reduce to the same result
are equal, or the two reductions combine different pairs to the same value. -/
theorem reduce_binding (f : α × α → α) : ∀ (n : ℕ) {l₁ l₂ : List α},
    l₁.length = l₂.length → reduce f n l₁ = reduce f n l₂ →
      l₁ = l₂ ∨ ∃ p ∈ reducePairs f n l₁, ∃ q ∈ reducePairs f n l₂, p ≠ q ∧ f p = f q := by
  intro n
  induction n with
  | zero => intro l₁ l₂ _ h; exact Or.inl h
  | succ n ih =>
      intro l₁ l₂ hlen h
      by_cases hone : l₁.length ≤ 1
      · rw [reduce, reduce, if_pos hone, if_pos (hlen ▸ hone)] at h
        exact Or.inl h
      · have hone₂ : ¬ l₂.length ≤ 1 := hlen ▸ hone
        rw [reduce, reduce, if_neg hone, if_neg hone₂] at h
        rw [reducePairs, reducePairs, if_neg hone, if_neg hone₂]
        have hup : (pairUp f l₁).length = (pairUp f l₂).length := by simp [hlen]
        -- either this level is where the two runs part, or a level above it
        rcases ih hup h with heq | ⟨p, hp, q, hq, hc⟩
        · rcases eq_or_collision f heq with hpairs | ⟨p, hp, q, hq, hc⟩
          · exact Or.inl (pairs_injective hlen hpairs)
          · exact Or.inr ⟨p, List.mem_append_left _ hp, q, List.mem_append_left _ hq, hc⟩
        · exact Or.inr ⟨p, List.mem_append_right _ hp, q, List.mem_append_right _ hq, hc⟩

end Lib
