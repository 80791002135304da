import Hearth.Base.Run

/-!
# Calls over shared rows

A call is the operations it makes on the rows, one after another, and the operations of
the calls in flight interleave. `ok_of_apart` is the rule for runs in which a call begins
only where it is apart from those in flight: each call has an owner, relies on what the
calls apart from it leave alone, and leaves alone what they rely on.
-/

namespace Hearth.Base

open List

/-- What is left of a call. -/
inductive Prog (σ : Type)
  | done
  | read (k : σ → Prog σ)
  | write (w : σ → σ) (k : Prog σ)

/-- The rows, and the calls in flight with what is left of each, in any order. -/
structure Shared (ε σ : Type) where
  rows : σ
  calls : List (ε × Prog σ)

inductive SharedEvent (ε σ : Type)
  | begin (call : ε)
  | read
  | write (w : σ → σ) (others : List (ε × Prog σ))
  | finish

variable {ε σ ι : Type}

namespace Shared

inductive Step (prog : ε → Prog σ) : SharedEvent ε σ → Shared ε σ → Shared ε σ → Prop
  | begin {s} (call) : Step prog (.begin call) s { s with calls := (call, prog call) :: s.calls }
  | read {s call k others} : s.calls ~ (call, .read k) :: others →
      Step prog .read s { s with calls := (call, k s.rows) :: others }
  | write {s call w k others} : s.calls ~ (call, .write w k) :: others →
      Step prog (.write w others) s ⟨w s.rows, (call, k) :: others⟩
  | finish {s call others} : s.calls ~ (call, .done) :: others →
      Step prog .finish s { s with calls := others }

/-- The states of the runs from rows that meet `I` whose steps meet `cond`. -/
def Reached (prog : ε → Prog σ) (cond : SharedEvent ε σ → Shared ε σ → Prop) (I : σ → Prop) :
    Shared ε σ → Prop :=
  Reachable (fun s => s.calls = [] ∧ I s.rows) (LabelledWith (Step prog) cond)

/-- A call begins only where it is apart from those in flight. -/
def BeginsApart (apart : ε → ε → Prop) : SharedEvent ε σ → Shared ε σ → Prop
  | .begin call, s => ∀ c ∈ s.calls, apart call c.1
  | _, _ => True

end Shared

/-- Calls with their owners. `rely call` holds of rows and later rows as far as the call must not
see a difference. -/
structure Owned (ε σ ι : Type) where
  owner : ε → ι
  ok : ι → σ → Prop
  rely : ε → σ → σ → Prop
  apart : ε → ε → Prop
  refl : ∀ call rows, rely call rows rows
  trans : ∀ {call a b c}, rely call a b → rely call b c → rely call a c
  stable : ∀ {call a b}, rely call a b → ok (owner call) a → ok (owner call) b
  symm : ∀ {call other}, apart call other → apart other call
  owner_ne : ∀ {call other}, apart call other → owner call ≠ owner other
  /-- A call of the owner that is in no other owner's way. -/
  least : ι → ε
  owner_least : ∀ i, owner (least i) = i
  apart_least : ∀ {call i}, owner call ≠ i → apart call (least i)

namespace Owned

variable (O : Owned ε σ ι)

/-- The rest of the call leaves the others what they rely on, and ends with its owner's rows in
order. -/
def Minds (call : ε) : Prog σ → σ → Prop
  | .done, rows => O.ok (O.owner call) rows
  | .read k, rows => ∀ rows', O.rely call rows rows' → Minds call (k rows') rows'
  | .write w k, rows => ∀ rows', O.rely call rows rows' →
      (∀ other, O.apart call other → O.rely other rows' (w rows')) ∧ Minds call k (w rows')

variable {O}

theorem Minds.mono {call : ε} {p : Prog σ} {a b : σ} (h : O.Minds call p a) (hab : O.rely call a b) :
    O.Minds call p b := by
  cases p with
  | done => exact O.stable hab h
  | read | write => exact fun c hbc => h c (O.trans hab hbc)

/-- The rows of the owners without a call are in order, and the calls in flight mind each other. -/
structure Inv (O : Owned ε σ ι) (s : Shared ε σ) : Prop where
  idle : ∀ i, (∀ c ∈ s.calls, O.owner c.1 ≠ i) → O.ok i s.rows
  minds : ∀ c ∈ s.calls, O.Minds c.1 c.2 s.rows
  apart : s.calls.Pairwise fun c d => O.apart c.1 d.1

variable {s : Shared ε σ} {call : ε} {p : Prog σ} {others : List (ε × Prog σ)}

/-- A call goes on. -/
theorem Inv.go (h : O.Inv s) (hs : s.calls ~ (call, p) :: others) {rows : σ} {q : Prog σ}
    (hrely : ∀ other, O.apart call other → O.rely other s.rows rows) (hq : O.Minds call q rows) :
    O.Inv ⟨rows, (call, q) :: others⟩ := by
  obtain ⟨hapart, hothers⟩ := pairwise_cons.1 ((hs.pairwise_iff O.symm).1 h.apart)
  refine ⟨fun i hi => ?_, forall_mem_cons.2 ⟨hq, fun c hc => ?_⟩, pairwise_cons.2 ⟨hapart, hothers⟩⟩
  · have hne : O.owner call ≠ i := hi _ mem_cons_self
    rw [← O.owner_least i]
    refine O.stable (hrely _ (O.apart_least hne)) (h.idle _ fun c hc => ?_)
    rw [O.owner_least]
    rcases mem_cons.1 (hs.mem_iff.1 hc) with rfl | hc
    · exact hne
    · exact hi c (mem_cons_of_mem _ hc)
  · exact (h.minds c (hs.mem_iff.2 (mem_cons_of_mem _ hc))).mono (hrely _ (hapart c hc))

theorem Inv.step {prog : ε → Prog σ} (hprog : ∀ call rows, O.ok (O.owner call) rows → O.Minds call (prog call) rows)
    (h : O.Inv s) {ev t} (hcond : Shared.BeginsApart O.apart ev s) (hst : Shared.Step prog ev s t) : O.Inv t := by
  cases hst with
  | begin call =>
    have hnew : O.ok (O.owner call) s.rows := h.idle _ fun c hc => (O.owner_ne (hcond c hc)).symm
    exact ⟨fun i hi => h.idle i fun c hc => hi c (mem_cons_of_mem _ hc),
      forall_mem_cons.2 ⟨hprog call _ hnew, h.minds⟩, pairwise_cons.2 ⟨hcond, h.apart⟩⟩
  | @read _ call k others hs =>
    have hminds := h.minds _ (hs.mem_iff.2 mem_cons_self)
    exact h.go hs (fun _ _ => O.refl ..) (hminds _ (O.refl ..))
  | @write _ call w k others hs =>
    obtain ⟨hrely, hk⟩ := h.minds _ (hs.mem_iff.2 mem_cons_self) _ (O.refl ..)
    exact h.go hs hrely hk
  | @finish _ call others hs =>
    refine ⟨fun i hi => ?_, fun c hc => h.minds c (hs.mem_iff.2 (mem_cons_of_mem _ hc)),
      (pairwise_cons.1 ((hs.pairwise_iff O.symm).1 h.apart)).2⟩
    by_cases howner : O.owner call = i
    · exact howner ▸ h.minds _ (hs.mem_iff.2 mem_cons_self)
    · refine h.idle i fun c hc => ?_
      rcases mem_cons.1 (hs.mem_iff.1 hc) with rfl | hc
      · exact howner
      · exact hi c hc

/-- Between the calls the rows of every owner are in order. -/
theorem ok_of_apart {prog : ε → Prog σ}
    (hprog : ∀ call rows, O.ok (O.owner call) rows → O.Minds call (prog call) rows)
    (h : Shared.Reached prog (Shared.BeginsApart O.apart) (fun rows => ∀ i, O.ok i rows) s)
    (hquiet : s.calls = []) (i : ι) : O.ok i s.rows := by
  have hinv : O.Inv s := h.preserves
    (fun ⟨hnil, hs⟩ => ⟨fun i _ => hs i, hnil ▸ nofun, hnil ▸ .nil⟩) fun hi => hi.step hprog
  exact hinv.idle i (hquiet ▸ nofun)

end Owned

end Hearth.Base
