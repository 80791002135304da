import Mathlib.Logic.Relation

/-!
# Chains of a relation

A relation to which edges out of one point are added. If no new target leads back
to that point, a chain uses at most one new edge, so no cycle appears, and a new
chain is an old one into the point, the new edge, and an old one from its target.
-/

namespace Hearth.Base

open Relation

variable {α : Type}

/-- `n` edges from the first point to the second. -/
inductive Chain (R : α → α → Prop) : Nat → α → α → Prop
  | refl (a : α) : Chain R 0 a a
  | head {n : Nat} {a b c : α} : R a b → Chain R n b c → Chain R (n + 1) a c

def Acyclic (R : α → α → Prop) : Prop := ∀ a, ¬ TransGen R a a

variable {R R' : α → α → Prop} {i a b : α} {P : α → Prop} {n : Nat}

theorem Chain.snoc {c : α} (h : Chain R n a b) (hbc : R b c) : Chain R (n + 1) a c := by
  induction h with
  | refl a => exact .head hbc (.refl _)
  | head hab _ ih => exact .head hab (ih hbc)

theorem Chain.mono (hR : ∀ a b, R a b → R' a b) (h : Chain R n a b) : Chain R' n a b := by
  induction h with
  | refl a => exact .refl a
  | head hab _ ih => exact .head (hR _ _ hab) ih

theorem Acyclic.mono (hR : ∀ a b, R' a b → R a b) (h : Acyclic R) : Acyclic R' :=
  fun a ha => h a (.mono hR _ _ ha)

/-- `R'` has no edge but those of `R` and edges from `i` to points of `P`. -/
def AddsFrom (R R' : α → α → Prop) (i : α) (P : α → Prop) : Prop :=
  ∀ a b, R' a b → R a b ∨ (a = i ∧ P b)

section

variable (h : AddsFrom R R' i P)

include h

/-- What a new target leads to, it led to before. -/
theorem AddsFrom.old_path (hback : ∀ q, P q → ¬ ReflTransGen R q i) {q x : α}
    (hq : P q) (hx : ReflTransGen R' q x) : ReflTransGen R q x := by
  induction hx with
  | refl => exact .refl
  | tail _ hedge ih =>
    rcases h _ _ hedge with hold | ⟨rfl, -⟩
    · exact ih.tail hold
    · exact absurd ih (hback q hq)

theorem AddsFrom.path_cases (hab : TransGen R' a b) :
    TransGen R a b ∨ ReflTransGen R' a i ∧ ∃ q, P q ∧ ReflTransGen R' q b := by
  induction hab with
  | single hedge =>
    rcases h _ _ hedge with hold | ⟨rfl, hP⟩
    · exact .inl (.single hold)
    · exact .inr ⟨.refl, _, hP, .refl⟩
  | tail hpath hedge ih =>
    rcases ih with hold | ⟨hi, q, hP, hq⟩
    · rcases h _ _ hedge with he | ⟨rfl, hP⟩
      · exact .inl (hold.tail he)
      · exact .inr ⟨hpath.to_reflTransGen, _, hP, .refl⟩
    · exact .inr ⟨hi, q, hP, hq.tail hedge⟩

theorem AddsFrom.acyclic (hback : ∀ q, P q → ¬ ReflTransGen R q i) (hR : Acyclic R) : Acyclic R' := by
  intro a ha
  rcases h.path_cases ha with hold | ⟨hi, q, hP, hq⟩
  · exact hR a hold
  · exact hback q hP (h.old_path hback hP (hq.trans hi))

/-- In a relation without cycles, a chain from a new target is an old chain. -/
theorem AddsFrom.old_chain (hback : ¬ ReflTransGen R' a i) (hab : Chain R' n a b) : Chain R n a b := by
  induction hab with
  | refl a => exact .refl a
  | head hedge _ ih =>
    rcases h _ _ hedge with hold | ⟨rfl, -⟩
    · exact .head hold (ih fun hc => hback (hc.head hedge))
    · exact absurd .refl hback

theorem AddsFrom.chain_cases (hback : ∀ q, P q → ¬ ReflTransGen R' q i) (hab : Chain R' n a b) :
    Chain R n a b ∨ ∃ k m q, n = k + 1 + m ∧ Chain R k a i ∧ P q ∧ Chain R m q b := by
  induction hab with
  | refl a => exact .inl (.refl a)
  | @head m a c b hedge hrest ih =>
    rcases h _ _ hedge with hold | ⟨rfl, hP⟩
    · rcases ih with hchain | ⟨k, l, q, rfl, hk, hP, hl⟩
      · exact .inl (.head hold hchain)
      · exact .inr ⟨k + 1, l, q, Nat.add_right_comm _ l 1, .head hold hk, hP, hl⟩
    · exact .inr ⟨0, m, c, by rw [Nat.add_comm], .refl _, hP, h.old_chain (hback c hP) hrest⟩

/-- The bound on every chain, where the new edges keep it. -/
theorem AddsFrom.chain_le {N : Nat}
    (hback : ∀ q, P q → ¬ ReflTransGen R' q i) (hR : ∀ n a b, Chain R n a b → n ≤ N)
    (hfit : ∀ k m a q b, Chain R k a i → P q → Chain R m q b → k + 1 + m ≤ N) :
    ∀ n a b, Chain R' n a b → n ≤ N := by
  intro n a b hab
  rcases h.chain_cases hback hab with hold | ⟨k, m, q, rfl, hk, hP, hm⟩
  · exact hR n a b hold
  · exact hfit k m a q b hk hP hm

end

end Hearth.Base
