import Mathlib.Data.List.Basic

/-!
# A numbered log that loses its oldest entries

`num` gives an entry's number; the list is ascending. Entries are put under
their number, deleted by number from the front, and read in pages.
-/

namespace Hearth.Base

open List

universe u

variable {α : Type u} (num : α → Nat)

def Ascending (l : List α) : Prop := l.Pairwise fun a b => num a < num b

/-- Puts `a` under its number, in place of what stood there. -/
def putNumbered (a : α) : List α → List α
  | [] => [a]
  | b :: l => if num a < num b then a :: b :: l else if num a = num b then a :: l else b :: putNumbered a l

def deleteNumbered (n : Nat) (l : List α) : List α := l.filter fun a => num a ≠ n

variable {num} {a b : α} {l : List α}

theorem putNumbered_last (h : ∀ b ∈ l, num b < num a) : putNumbered num a l = l ++ [a] := by
  induction l with
  | nil => rfl
  | cons b l ih =>
    have hb := h b mem_cons_self
    rw [putNumbered, if_neg (Nat.not_lt_of_gt hb), if_neg (Nat.ne_of_gt hb),
      ih fun c hc => h c (mem_cons_of_mem _ hc), cons_append]

theorem Ascending.concat (h : Ascending num l) (hlast : ∀ b ∈ l, num b < num a) : Ascending num (l ++ [a]) := by
  refine pairwise_append.2 ⟨h, pairwise_singleton _ _, fun b hb c hc => ?_⟩
  rw [mem_singleton.1 hc]
  exact hlast b hb

theorem Ascending.deleteNumbered_head (h : Ascending num (a :: l)) : deleteNumbered num (num a) (a :: l) = l := by
  unfold deleteNumbered
  rw [filter_cons_of_neg (by simp), filter_eq_self]
  intro b hb
  have hlt := (pairwise_cons.1 h).1 b hb
  simpa using Nat.ne_of_gt hlt

/-- A page holds everything up to its last entry. -/
theorem Ascending.mem_page (h : Ascending num l) {limit : Nat} (hlast : (l.take limit).getLast? = some b)
    (ha : a ∈ l) (hle : num a ≤ num b) : a ∈ l.take limit := by
  rw [← take_append_drop _ l, mem_append] at ha
  rcases ha with ha | ha
  · exact ha
  · rw [← take_append_drop _ l] at h
    have hlt := (pairwise_append.1 h).2.2 b (mem_of_getLast? hlast) a ha
    exact absurd hlt (Nat.not_lt_of_ge hle)

end Hearth.Base
