import Hearth.Base.Run

/-!
# A replicated log with lagging readers

All writes are ordered in one log; `state k` is what its first `k` entries
amount to. Each node has applied some prefix of the log and reads the state
there. A node whose own proposal has been answered has applied it.

`Logged x` says that `x` was the state at some point: it is all that a node can
have read.
-/

namespace Hearth.Base

open Function

structure Replicated (N σ : Type) where
  state : Nat → σ
  length : Nat
  view : N → Nat
  view_le : ∀ n, view n ≤ length

namespace Replicated

variable {N σ : Type} (r : Replicated N σ)

def current : σ := r.state r.length

/-- What a node reads. -/
def read (n : N) : σ := r.state (r.view n)

def Logged (x : σ) : Prop := ∃ k ≤ r.length, r.state k = x

theorem logged_current : r.Logged r.current := ⟨r.length, Nat.le_refl _, rfl⟩

theorem logged_read (n : N) : r.Logged (r.read n) := ⟨r.view n, r.view_le n, rfl⟩

/-- One state, applied by every node. -/
def start (x : σ) : Replicated N σ := ⟨fun _ => x, 0, fun _ => 0, fun _ => Nat.le_refl _⟩

theorem logged_start {x y : σ} : (start x : Replicated N σ).Logged y ↔ y = x :=
  ⟨fun ⟨_, _, h⟩ => h.symm, fun h => ⟨0, Nat.le_refl _, h.symm⟩⟩

section

variable [DecidableEq N]

/-- An entry that leads to the state `next`, proposed and applied by node `n`. -/
def propose (r : Replicated N σ) (n : N) (next : σ) : Replicated N σ where
  state := update r.state (r.length + 1) next
  length := r.length + 1
  view := update r.view n (r.length + 1)
  view_le := forall_update (Nat.le_refl _) fun m _ => Nat.le_succ_of_le (r.view_le m)

/-- Node `n` applies the log up to entry `v`. -/
def catchUp (r : Replicated N σ) (n : N) (v : Nat) (hv : v ≤ r.length) : Replicated N σ where
  state := r.state
  length := r.length
  view := update r.view n v
  view_le := forall_update hv fun m _ => r.view_le m

variable {r : Replicated N σ} {n : N} {x y : σ}

@[simp] theorem current_propose : (r.propose n x).current = x := update_self ..

theorem logged_propose : (r.propose n x).Logged y ↔ r.Logged y ∨ y = x := by
  constructor
  · rintro ⟨k, hk, rfl⟩
    rcases Nat.lt_or_eq_of_le hk with hk | rfl
    · refine .inl ⟨k, Nat.lt_succ_iff.1 hk, ?_⟩
      exact (update_of_ne (Nat.ne_of_lt hk) _ _).symm
    · exact .inr (update_self ..)
  · rintro (⟨k, hk, rfl⟩ | rfl)
    · exact ⟨k, Nat.le_succ_of_le hk, update_of_ne (Nat.ne_of_lt (Nat.lt_succ_iff.2 hk)) _ _⟩
    · exact ⟨r.length + 1, Nat.le_refl _, update_self ..⟩

end

end Replicated

end Hearth.Base
