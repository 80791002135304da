import Mathlib.Data.Finset.Card
import Mathlib.Order.Interval.Finset.Nat

/-!
# A map that is rebuilt while it is written

A map has one entry for each key, and an `Edit` sets one entry. Edits made while a
new map is being computed are kept in a list and replayed onto it
(`replay`): an entry that an edit touches is what the last edit of it says
(`replay_concat_self`); the other entries are the new map's (`replay_of_not_touches`).

A `Watermark` is a number below which everything is done, with the numbers above it
that are done out of order. It moves up through them.
-/

namespace Hearth.Base

open Function

section

variable {κ : Type} {ν : κ → Type}

/-- One entry and its new content. -/
structure Edit (κ : Type) (ν : κ → Type) where
  key : κ
  value : ν key

def Touches (edits : List (Edit κ ν)) (k : κ) : Prop := ∃ e ∈ edits, e.key = k

theorem touches_concat {edits : List (Edit κ ν)} {e : Edit κ ν} {k : κ} :
    Touches (edits ++ [e]) k ↔ Touches edits k ∨ e.key = k := by
  simp [Touches]

variable [DecidableEq κ]

def Edit.apply (m : ∀ k, ν k) (e : Edit κ ν) : ∀ k, ν k := update m e.key e.value

def replay (m : ∀ k, ν k) (edits : List (Edit κ ν)) : ∀ k, ν k := edits.foldl Edit.apply m

variable {m : ∀ k, ν k} {edits : List (Edit κ ν)} {e : Edit κ ν} {k : κ}

theorem replay_concat : replay m (edits ++ [e]) = update (replay m edits) e.key e.value := by
  simp [replay, Edit.apply]

theorem replay_concat_self : replay m (edits ++ [e]) e.key = e.value := by
  rw [replay_concat, update_self]

theorem replay_concat_of_ne (h : e.key ≠ k) : replay m (edits ++ [e]) k = replay m edits k := by
  rw [replay_concat, update_of_ne h.symm]

theorem replay_of_not_touches (h : ¬Touches edits k) : replay m edits k = m k := by
  induction edits using List.reverseRecOn with
  | nil => rfl
  | append_singleton edits e ih =>
    rw [touches_concat, not_or] at h
    rw [replay_concat_of_ne h.2, ih h.1]

end

/-! ## Watermarks -/

structure Watermark where
  mark : Nat
  parked : Finset Nat
  deriving DecidableEq

/-- The end of the numbers of `parked` that follow `mark` without a gap. -/
def runUp (parked : Finset Nat) : Nat → Nat → Nat
  | 0, mark => mark
  | fuel + 1, mark => if mark + 1 ∈ parked then runUp parked fuel (mark + 1) else mark

theorem mem_of_le_runUp {parked : Finset Nat} {fuel mark n : Nat} (hlt : mark < n)
    (hle : n ≤ runUp parked fuel mark) : n ∈ parked := by
  induction fuel generalizing mark with
  | zero => exact absurd hle (not_le.2 hlt)
  | succ fuel ih =>
    unfold runUp at hle
    split at hle
    case isTrue hmem =>
      rcases Nat.eq_or_lt_of_le hlt with rfl | hlt
      · exact hmem
      · exact ih hlt hle
    case isFalse => exact absurd hle (not_le.2 hlt)

namespace Watermark

/-- Raises the mark to `floor`, then through the parked numbers that follow. -/
def raise (w : Watermark) (floor : Nat) : Watermark :=
  let mark := runUp w.parked w.parked.card (max w.mark floor)
  { mark, parked := w.parked.filter (mark < ·) }

/-- A number above the mark is done. More than `limit` numbers are not kept apart. -/
def record (limit : Nat) (w : Watermark) (n : Nat) : Watermark :=
  if n ≤ w.mark then w
  else
    let w := raise { w with parked := insert n w.parked } w.mark
    if limit < w.parked.card then { w with parked := ∅ } else w

variable {w : Watermark} {floor limit n k : Nat}

theorem le_raise (h : k ≤ (w.raise floor).mark) : k ≤ w.mark ∨ k ≤ floor ∨ k ∈ w.parked := by
  rcases lt_or_ge (max w.mark floor) k with hlt | hle
  · exact .inr (.inr (mem_of_le_runUp hlt h))
  · rcases le_max_iff.1 hle with hm | hf
    · exact .inl hm
    · exact .inr (.inl hf)

theorem parked_raise (h : k ∈ (w.raise floor).parked) : k ∈ w.parked := Finset.mem_of_mem_filter k h

theorem le_record (h : k ≤ (w.record limit n).mark) : k ≤ w.mark ∨ k = n ∨ k ∈ w.parked := by
  unfold record at h
  split at h
  · exact .inl h
  · have hr : k ≤ (raise { w with parked := insert n w.parked } w.mark).mark := by
      dsimp only at h
      split at h <;> exact h
    rcases le_raise hr with hm | hm | hm
    · exact .inl hm
    · exact .inl hm
    · exact .inr (Finset.mem_insert.1 hm)

theorem parked_record (h : k ∈ (w.record limit n).parked) : k = n ∨ k ∈ w.parked := by
  unfold record at h
  split at h
  · exact .inr h
  · dsimp only at h
    split at h
    · exact absurd h (Finset.notMem_empty k)
    · exact Finset.mem_insert.1 (parked_raise h)

end Watermark

end Hearth.Base
