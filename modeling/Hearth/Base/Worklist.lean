import Hearth.Base.Fallible
import Mathlib.Algebra.BigOperators.Group.Finset.Basic

/-!
# Worklist loops

Two loops that compute a closure. `drain` pops a node, skips it when it was seen
before, and otherwise visits it and pushes its successors. `saturate` repeats a
pass over a list until the pass adds nothing.

Both take a fuel. `drain_closed` and `saturate_fixed` say how much is enough: the
nodes still to pop and the successors of the nodes not seen yet, or any measure
that every growing pass lowers.
-/

namespace Hearth.Base

open List Finset

variable {α β σ ε : Type}

section

variable [DecidableEq α] (next : α → List α) (visit : α → σ → Except ε σ)

/-- The loop over the stack `todo`, whose top is its head. -/
def drain : Nat → List α → Finset α → σ → Except ε (Finset α × σ)
  | 0, _, seen, s | _ + 1, [], seen, s => .ok (seen, s)
  | n + 1, a :: todo, seen, s =>
    if a ∈ seen then drain n todo seen s
    else do
      let s ← visit a s
      drain n ((next a).reverse ++ todo) (insert a seen) s

/-- What is left of the loop's work: `nodes` holds every node with a successor. -/
def pending (nodes : Finset α) (todo : List α) (seen : Finset α) : Nat :=
  todo.length + ∑ a ∈ nodes \ seen, (next a).length

variable {next visit} {nodes seen seen' : Finset α} {todo : List α} {s s' : σ} {n : Nat}

theorem pending_insert {a : α} (todo : List α) (hnodes : ∀ a ∉ nodes, next a = []) (ha : a ∉ seen) :
    pending next nodes ((next a).reverse ++ todo) (insert a seen) + 1 =
      pending next nodes (a :: todo) seen := by
  unfold pending
  rw [length_append, length_reverse, length_cons, sdiff_insert]
  by_cases hn : a ∈ nodes
  · have hsum := add_sum_erase _ (fun a => (next a).length) (mem_sdiff.2 ⟨hn, ha⟩)
    omega
  · rw [erase_eq_of_notMem (fun h => hn (mem_sdiff.1 h).1), hnodes a hn, length_nil]
    omega

/-- With enough fuel the loop ends in a set that holds what was to pop and that its
successors do not leave. -/
theorem drain_closed (hnodes : ∀ a ∉ nodes, next a = []) (hfuel : pending next nodes todo seen ≤ n)
    (hcover : ∀ a ∈ seen, ∀ b ∈ next a, b ∈ seen ∨ b ∈ todo)
    (h : drain next visit n todo seen s = .ok (seen', s')) :
    seen ⊆ seen' ∧ (∀ a ∈ todo, a ∈ seen') ∧ ∀ a ∈ seen', ∀ b ∈ next a, b ∈ seen' := by
  induction n generalizing todo seen s with
  | zero =>
    have hnil : todo = [] := by
      refine eq_nil_of_length_eq_zero (Nat.le_zero.1 (le_trans ?_ hfuel))
      exact Nat.le_add_right ..
    cases h
    subst hnil
    exact ⟨subset_rfl, by simp, fun a ha b hb => (hcover a ha b hb).resolve_right (by simp)⟩
  | succ n ih =>
    cases todo with
    | nil =>
      cases h
      exact ⟨subset_rfl, by simp, fun a ha b hb => (hcover a ha b hb).resolve_right (by simp)⟩
    | cons a todo =>
      unfold drain at h
      split at h
      · next ha =>
        have hfuel : pending next nodes todo seen ≤ n := by
          unfold pending at hfuel ⊢
          rw [length_cons] at hfuel
          omega
        have hcover : ∀ c ∈ seen, ∀ b ∈ next c, b ∈ seen ∨ b ∈ todo := by
          intro c hc b hb
          rcases hcover c hc b hb with hs | ht
          · exact .inl hs
          · rcases mem_cons.1 ht with rfl | ht
            · exact .inl ha
            · exact .inr ht
        obtain ⟨hsub, htodo, hclos⟩ := ih hfuel hcover h
        exact ⟨hsub, forall_mem_cons.2 ⟨hsub ha, htodo⟩, hclos⟩
      · next ha =>
        obtain ⟨s1, -, h⟩ := bind_eq_ok.1 h
        have hfuel : pending next nodes ((next a).reverse ++ todo) (insert a seen) ≤ n := by
          have := pending_insert todo hnodes ha
          omega
        have hcover : ∀ c ∈ insert a seen, ∀ b ∈ next c,
            b ∈ insert a seen ∨ b ∈ (next a).reverse ++ todo := by
          intro c hc b hb
          rcases mem_insert.1 hc with rfl | hc
          · exact .inr (mem_append_left _ (mem_reverse.2 hb))
          · rcases hcover c hc b hb with hs | ht
            · exact .inl (mem_insert_of_mem hs)
            · rcases mem_cons.1 ht with rfl | ht
              · exact .inl (mem_insert_self ..)
              · exact .inr (mem_append_right _ ht)
        obtain ⟨hsub, htodo, hclos⟩ := ih hfuel hcover h
        obtain ⟨ha, hseen⟩ := insert_subset_iff.1 hsub
        exact ⟨hseen, forall_mem_cons.2 ⟨ha, (forall_mem_append.1 htodo).2⟩, hclos⟩

/-- A relation between the nodes seen and the state that every visit keeps holds at
the end. -/
theorem drain_invariant {I : Finset α → σ → Prop}
    (hvisit : ∀ a seen s s', a ∉ seen → I seen s → visit a s = .ok s' → I (insert a seen) s')
    (hI : I seen s) (h : drain next visit n todo seen s = .ok (seen', s')) : I seen' s' := by
  induction n generalizing todo seen s with
  | zero => cases h; exact hI
  | succ n ih =>
    cases todo with
    | nil => cases h; exact hI
    | cons a todo =>
      unfold drain at h
      split at h
      · exact ih hI h
      · next ha =>
        obtain ⟨s1, hv, h⟩ := bind_eq_ok.1 h
        exact ih (hvisit a seen s s1 ha hI hv) h

end

section

variable (pass : List β → List β)

/-- Repeats `pass` until the list does not grow. -/
def saturate : Nat → List β → List β
  | 0, l => l
  | n + 1, l => if (pass l).length = l.length then l else saturate n (pass l)

variable {pass} {l : List β} {n : Nat}

theorem saturate_invariant {I : List β → Prop} (hpass : ∀ l, I l → I (pass l)) (hl : I l) :
    I (saturate pass n l) := by
  induction n generalizing l with
  | zero => exact hl
  | succ n ih =>
    unfold saturate
    split
    · exact hl
    · exact ih (hpass l hl)

theorem saturate_fixed (hpass : ∀ l, l <+: pass l) (μ : List β → Nat)
    (hμ : ∀ l, pass l ≠ l → μ (pass l) < μ l) (hn : μ l ≤ n) :
    pass (saturate pass n l) = saturate pass n l := by
  induction n generalizing l with
  | zero =>
    by_contra hne
    exact absurd (hμ l hne) (by omega)
  | succ n ih =>
    unfold saturate
    split
    · next hlen => exact ((hpass l).eq_of_length hlen.symm).symm
    · next hlen =>
      have hlt := hμ l (fun he => hlen (congrArg length he))
      exact ih (by omega)

end

end Hearth.Base
