import Hearth.Base.Run

/-!
# Advisory locks by key

A map keeps one mutex per key, behind a counted reference. A handle holds a reference of its
own, and its drop removes the entry when the map's reference and its own are the only ones.
The drop body runs under the map's lock; the handle's reference goes after that, outside it.

Results:
1. `advisory_locks`: live handles of one key share their mutex, in every run; and no entry
   outlives its live handles where no two drops of one mutex overlap.
2. `advisory_lock_leaks`: two drops that overlap count each other's reference, and the entry
   stays.
-/

namespace Hearth.Identity

open Base Function List

/-- A handle; `dropped` once its drop body has run, while it still holds its reference. A mutex
is told by the key it was made for and a number. -/
structure AdvisoryLock where
  key : String
  inner : Nat
  dropped : Bool
  deriving DecidableEq

/-- The entries, and the handles that hold a reference, in any order. -/
structure AdvisoryLocks where
  map : String → Option Nat
  handles : List AdvisoryLock

namespace AdvisoryLocks

variable (s : AdvisoryLocks)

/-- The mutex that `acquire` clones: that of the entry, or a new one. -/
def Acquires (key : String) (inner : Nat) : Prop :=
  match s.map key with
  | some existing => inner = existing
  | none => ∀ x ∈ s.handles, x.key = key → x.inner ≠ inner

/-- `Arc::strong_count` of a mutex in the map: the map's reference and those of the handles. -/
def strongCount (key : String) (inner : Nat) : Nat :=
  1 + s.handles.countP fun x => x.key = key ∧ x.inner = inner

/-- The map after a drop body. -/
def reclaim (lock : AdvisoryLock) : String → Option Nat :=
  match s.map lock.key with
  | some existing =>
    if s.strongCount lock.key existing = 2 ∧ existing = lock.inner then update s.map lock.key none
    else s.map
  | none => s.map

inductive Event
  | acquire (key : String)
  | drop (lock : AdvisoryLock)
  | release (lock : AdvisoryLock)

inductive Step : Event → AdvisoryLocks → AdvisoryLocks → Prop
  | acquire {s key inner} : s.Acquires key inner →
      Step (.acquire key) s ⟨update s.map key (some inner), ⟨key, inner, false⟩ :: s.handles⟩
  | drop {s lock others} : s.handles ~ lock :: others → lock.dropped = false →
      Step (.drop lock) s ⟨s.reclaim lock, { lock with dropped := true } :: others⟩
  | release {s lock others} : s.handles ~ lock :: others → lock.dropped = true →
      Step (.release lock) s { s with handles := others }

/-- No other handle of the mutex is between its drop body and its release. -/
def Apart : Event → AdvisoryLocks → Prop
  | .drop lock, s => ∀ x ∈ s.handles, x.dropped = true → x.key = lock.key → x.inner ≠ lock.inner
  | _, _ => True

/-- Live handles of one key share one mutex. -/
def Shares : Prop :=
  ∀ x ∈ s.handles, ∀ y ∈ s.handles, x.dropped = false → y.dropped = false → x.key = y.key →
    x.inner = y.inner

/-- While no handle of a key is alive, the map has no entry for the key. -/
def NoLeak : Prop := ∀ key, (∀ x ∈ s.handles, x.key = key → x.dropped = true) → s.map key = none

/-- The mutex of a live handle is the one in the map. -/
def Mapped : Prop := ∀ x ∈ s.handles, x.dropped = false → s.map x.key = some x.inner

variable {s s' : AdvisoryLocks} {ev : Event} {lock : AdvisoryLock} {others : List AdvisoryLock}

theorem strongCount_eq_two (hs : s.handles ~ lock :: others) :
    s.strongCount lock.key lock.inner = 2 ↔ ∀ x ∈ others, x.key = lock.key → x.inner ≠ lock.inner := by
  simp [strongCount, hs.countP_eq, Nat.add_comm 1]

theorem reclaim_apply (hmap : s.map lock.key = some lock.inner) (k) : s.reclaim lock k =
    if k = lock.key ∧ s.strongCount lock.key lock.inner = 2 then none else s.map k := by
  unfold reclaim
  by_cases htwo : s.strongCount lock.key lock.inner = 2 <;> simp [hmap, htwo, update_apply]

theorem Mapped.step (h : s.Mapped) (hst : Step ev s s') : s'.Mapped := by
  cases hst with
  | @acquire _ key inner hinner =>
    refine forall_mem_cons.2 ⟨fun _ => update_self .., fun x hx hlive => ?_⟩
    have hmap := h x hx hlive
    by_cases hkey : x.key = key
    · subst hkey
      rw [Acquires, hmap] at hinner
      exact (update_self ..).trans (congrArg some hinner)
    · exact (update_of_ne hkey ..).trans hmap
  | @drop _ lock others hs hlock =>
    refine forall_mem_cons.2 ⟨nofun, fun x hx hlive => ?_⟩
    have hown := h lock (hs.mem_iff.2 mem_cons_self) hlock
    have hmap := h x (hs.mem_iff.2 (mem_cons_of_mem _ hx)) hlive
    refine (reclaim_apply hown _).trans ((if_neg ?_).trans hmap)
    rintro ⟨hkey, htwo⟩
    rw [hkey, hown] at hmap
    exact (strongCount_eq_two hs).1 htwo x hx hkey (Option.some.inj hmap).symm
  | release hs _ => exact fun x hx => h x (hs.mem_iff.2 (mem_cons_of_mem _ hx))

/-- The last drop of a mutex, if it is apart from the others, finds no other handle. -/
theorem NoLeak.step (h : s.NoLeak) (hm : s.Mapped) (hapart : Apart ev s) (hst : Step ev s s') : s'.NoLeak := by
  cases hst with
  | acquire =>
    intro k hdead
    obtain ⟨hnew, hold⟩ := forall_mem_cons.1 hdead
    exact (update_of_ne (fun hk => nomatch hnew hk.symm) ..).trans (h k hold)
  | @drop _ lock others hs hlock =>
    intro k hdead
    have hother := (forall_mem_cons.1 hdead).2
    refine (reclaim_apply (hm lock (hs.mem_iff.2 mem_cons_self) hlock) k).trans ?_
    split
    · rfl
    · next hkept =>
      refine h k fun x hx hk => ?_
      rcases mem_cons.1 (hs.mem_iff.1 hx) with rfl | hx
      · refine absurd ⟨hk.symm, (strongCount_eq_two hs).2 fun y hy hy' => ?_⟩ hkept
        exact hapart y (hs.mem_iff.2 (mem_cons_of_mem _ hy)) (hother y hy (hy'.trans hk)) hy'
      · exact hother x hx hk
  | @release _ lock others hs hlock =>
    intro k hdead
    refine h k fun x hx hk => ?_
    rcases mem_cons.1 (hs.mem_iff.1 hx) with rfl | hx
    · exact hlock
    · exact hdead x hx hk

def empty : AdvisoryLocks := ⟨fun _ => none, []⟩

/-- In every run live handles of one key share one mutex, and in every run in which no two drops
of one mutex overlap, a key without a live handle has no entry. -/
theorem advisory_locks {t : AdvisoryLocks}
    (hs : Reachable (· = empty) (LabelledWith Step fun _ _ => True) s)
    (ht : Reachable (· = empty) (LabelledWith Step Apart) t) : s.Shares ∧ t.NoLeak := by
  have hempty : empty.Mapped ∧ empty.NoLeak := ⟨nofun, fun _ _ => rfl⟩
  constructor
  · intro x hx y hy hlive hlive' hkey
    have hm : s.Mapped := hs.preserves (· ▸ hempty.1) fun hm _ => hm.step
    exact Option.some.inj ((hm x hx hlive).symm.trans (hkey ▸ hm y hy hlive'))
  · have hinv : t.Mapped ∧ t.NoLeak := ht.preserves (· ▸ hempty) fun hinv hapart hst =>
      ⟨hinv.1.step hst, hinv.2.step hinv.1 hapart hst⟩
    exact hinv.2

/-- Two handles of one key, of which the second is dropped once the first has been released. -/
theorem advisory_locks_two : ∃ s t : AdvisoryLocks,
    s.handles = [⟨"k", 0, false⟩, ⟨"k", 0, false⟩] ∧ s.Shares ∧
      t.handles = [⟨"k", 0, true⟩] ∧ t.NoLeak ∧ t.map "k" = none := by
  have h0 : Reachable (· = empty) (LabelledWith Step Apart) empty := .start rfl
  have h1 := h0.take (@Step.acquire _ "k" 0 nofun)
  have h2 := h1.take (@Step.acquire _ "k" 0 rfl)
  have h3 := h2.take (.drop (.refl _) rfl) (by simp [Apart, empty])
  have h4 := h3.take (.release (.refl _) rfl)
  have h5 := h4.take (.drop (.refl _) rfl) (by simp [Apart, empty])
  obtain ⟨hshares, hnoLeak⟩ := advisory_locks h2.unconditional h5
  exact ⟨_, _, rfl, hshares, rfl, hnoLeak, rfl⟩

/-- Two handles of one key. Each drop body counts three references, and the entry stays. -/
theorem advisory_lock_leaks : ∃ s, Reachable (· = empty) (LabelledWith Step fun _ _ => True) s ∧
    s.handles = [] ∧ s.map "k" = some 0 := by
  have h0 : Reachable (· = empty) (LabelledWith Step fun _ _ => True) empty := .start rfl
  have h1 := h0.take (@Step.acquire _ "k" 0 nofun)
  have h2 := h1.take (@Step.acquire _ "k" 0 rfl)
  have h3 := h2.take (.drop (.refl _) rfl)
  have h4 := h3.take (.drop (.swap ..) rfl)
  have h5 := h4.take (.release (.refl _) rfl)
  have h6 := h5.take (.release (.refl _) rfl)
  exact ⟨_, h6, rfl, rfl⟩

end AdvisoryLocks

end Hearth.Identity
