import Mathlib.Logic.Function.Basic

/-!
# Runs of a transition system

A system is a predicate `init` on its first states and a relation `step`.
`Reachable init step` holds of the states of its runs.

* `Reachable.invariant`: what holds first and survives a step holds everywhere;
  `Reachable.preserves` for the steps of a labelled relation that meet a condition.
* `Reachable.mono`: more steps reach more states; a run whose steps all meet a
  condition is a run.
* `Reachable.project`: a map that sends each step to a step, or to no change,
  sends runs to runs.
-/

namespace Hearth.Base

open Function

universe u v

/-- `Reachable init step s`: a finite run of `step` from a state of `init` ends in `s`. -/
inductive Reachable {σ : Type u} (init : σ → Prop) (step : σ → σ → Prop) : σ → Prop
  | start {s : σ} : init s → Reachable init step s
  | next {s t : σ} : Reachable init step s → step s t → Reachable init step t

/-- The steps of `step` that also meet `cond`. -/
def Guarded {σ : Type u} (step cond : σ → σ → Prop) (s t : σ) : Prop := step s t ∧ cond s t

/-- The steps of a labelled relation whose label meets `cond` in the state before. -/
def LabelledWith {σ : Type u} {ε : Type v} (step : ε → σ → σ → Prop) (cond : ε → σ → Prop) (s t : σ) :
    Prop :=
  ∃ ev, cond ev s ∧ step ev s t

section

variable {σ : Type u} {τ : Type v} {init : σ → Prop} {step : σ → σ → Prop}

theorem Reachable.invariant {I : σ → Prop} (h0 : ∀ s, init s → I s)
    (hs : ∀ s t, Reachable init step s → I s → step s t → I t) {s : σ}
    (h : Reachable init step s) : I s := by
  induction h with
  | start hi => exact h0 _ hi
  | next hr hst ih => exact hs _ _ hr ih hst

theorem Reachable.mono {step' : σ → σ → Prop} (hs : ∀ s t, step s t → step' s t) {s : σ}
    (h : Reachable init step s) : Reachable init step' s := by
  induction h with
  | start hi => exact .start hi
  | next _ hst ih => exact ih.next (hs _ _ hst)

section

variable {ε : Type v} {labelled : ε → σ → σ → Prop} {cond : ε → σ → Prop} {s t : σ}
  (h : Reachable init (LabelledWith labelled cond) s)

include h

/-- A step of a labelled relation. -/
theorem Reachable.take {ev : ε} (hst : labelled ev s t) (hc : cond ev s := by exact trivial) :
    Reachable init (LabelledWith labelled cond) t :=
  h.next ⟨ev, hc, hst⟩

theorem Reachable.preserves {I : σ → Prop} (h0 : ∀ {s}, init s → I s)
    (hs : ∀ {s t ev}, I s → cond ev s → labelled ev s t → I t) : I s := by
  refine h.invariant (fun _ => h0) ?_
  rintro _ _ - hi ⟨_, hc, hst⟩
  exact hs hi hc hst

theorem Reachable.unconditional : Reachable init (LabelledWith labelled fun _ _ => True) s := by
  refine h.mono ?_
  rintro _ _ ⟨ev, -, hst⟩
  exact ⟨ev, trivial, hst⟩

end

theorem Reachable.of_guarded {cond : σ → σ → Prop} {s : σ}
    (h : Reachable init (Guarded step cond) s) : Reachable init step s :=
  h.mono fun _ _ hst => hst.1

/-- A list of events that the step function takes is a run. -/
theorem Reachable.of_events {ε : Type v} {stepFn : σ → ε → Option σ} {evs : List ε} {s t : σ}
    (hs : Reachable init (LabelledWith (fun ev s t => stepFn s ev = some t) fun _ _ => True) s)
    (h : evs.foldlM stepFn s = some t) :
    Reachable init (LabelledWith (fun ev s t => stepFn s ev = some t) fun _ _ => True) t := by
  induction evs generalizing s with
  | nil => cases h; exact hs
  | cons ev evs ih =>
    obtain ⟨s1, h1, h⟩ := Option.bind_eq_some_iff.1 h
    exact ih (hs.next ⟨ev, trivial, h1⟩) h

theorem Reachable.project {init' : τ → Prop} {step' : τ → τ → Prop} (f : σ → τ)
    (h0 : ∀ s, init s → init' (f s))
    (hs : ∀ s t, step s t → f t = f s ∨ step' (f s) (f t)) {s : σ}
    (h : Reachable init step s) : Reachable init' step' (f s) := by
  induction h with
  | start hi => exact .start (h0 _ hi)
  | next _ hst ih =>
    rcases hs _ _ hst with heq | hst'
    · rw [heq]
      exact ih
    · exact ih.next hst'

end

/-! ### One party moves -/

section

variable {α : Type u} {β : Type v} [DecidableEq α] {f g : α → β} {a x : α} {b y : β} {P : β → Prop}

/-- What holds of the new place, and of the places of the others, holds of every party's place. -/
@[elab_as_elim]
theorem forall_update {motive : α → β → Prop} (hself : motive a b) (hold : ∀ x ≠ a, motive x (f x)) (x : α) :
    motive x (update f a b x) :=
  (forall_update_iff f _).2 ⟨hself, hold⟩ x

@[elab_as_elim]
theorem forall_move {motive : α → β → Prop} (hmove : g = update f a b) (hself : motive a b)
    (hold : ∀ x ≠ a, motive x (f x)) (x : α) : motive x (g x) := by
  rw [hmove]
  exact forall_update hself hold x

/-- A party's new place is the move or its old place. -/
theorem update_cases (h : update f a b x = y) : x = a ∧ y = b ∨ f x = y := by
  subst h
  exact forall_update (.inl ⟨rfl, rfl⟩) (fun _ _ => .inr rfl) x

theorem exists_move (hmove : g = update f a b) (hkeep : P (f a) → P b) (h : ∃ x, P (f x)) : ∃ x, P (g x) := by
  obtain ⟨x, hx⟩ := h
  by_cases heq : x = a
  · exact ⟨a, by rw [hmove, update_self]; exact hkeep (heq ▸ hx)⟩
  · exact ⟨x, by rwa [hmove, update_of_ne heq]⟩

theorem exists_of_move (hmove : g = update f a b) (hback : P b → P (f a)) (h : ∃ x, P (g x)) :
    ∃ x, P (f x) := by
  obtain ⟨x, hx⟩ := h
  exact forall_move hmove (fun hb => ⟨a, hback hb⟩) (fun x _ hx => ⟨x, hx⟩) x hx

/-- The party that has moved joins those of which there is one at most. -/
theorem unique_move (h : ∀ x y, P (f x) → P (f y) → x = y) (hmove : g = update f a b)
    (hb : P b → ∀ x, P (f x) → x = a) : ∀ x y, P (g x) → P (g y) → x = y := by
  refine forall_move hmove ?_ fun x _ y hx => ?_
  · exact forall_move hmove (fun _ _ => rfl) fun y _ hself hy => (hb hself y hy).symm
  · exact forall_move hmove (fun hself => hb hself x hx) (fun y _ => h x y hx) y

/-! ### Locks

`∀ x, needs (f x) → lock = some x`: a party at a place that needs the lock has it. -/

variable {needs : β → Prop} {lock lock' : Option α}

section

variable (h : ∀ x, needs (f x) → lock = some x) (hmove : g = update f a b)

include h hmove

/-- One party has moved, and the lock is where it was. -/
theorem lock_keep (hb : needs b → needs (f a)) : ∀ x, needs (g x) → lock = some x :=
  forall_move hmove (fun hx => h a (hb hx)) fun x _ => h x

/-- One party has moved, and has taken or given back the lock: no other had it. -/
theorem lock_pass
    (hfree : lock = none ∨ lock = some a) (hb : needs b → lock' = some a) : ∀ x, needs (g x) → lock' = some x := by
  refine forall_move hmove hb fun x hne hx => ?_
  rcases hfree with hnone | hsome
  · cases hnone.symm.trans (h x hx)
  · exact absurd (Option.some.inj ((h x hx).symm.trans hsome)) hne

end

end

end Hearth.Base
