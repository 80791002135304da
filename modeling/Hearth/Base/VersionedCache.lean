import Hearth.Base.Reads
import Hearth.Base.Run
import Mathlib.Order.Nat

/-!
# A cache guarded by a version

A computation over a store is cached under the version it started from, and a
cached value is served while that version is current. Writers change the store and
raise the version, in separate steps.

A value is as good as the store it was read from. `Computed` says from which moment
on; the moments are numbered by the writes. What a version promises is the moment
at which it was reached, so a value served for a version is one of the store at
that moment or later.

* `cacheInv_reachable`: that is kept, provided no write lands in the middle of a computation
  that still reads what it changes, and provided every write has been followed by
  a rise of the version before anyone is told that a change is done.
-/

namespace Hearth.Base

open Function

section

variable {Q σ κ ρ W : Type} (A : Q → Type)

/-- Where a cached computation is. `since` is the moment at which the last change
that was done when it began had ended. -/
inductive ReadCall (κ ρ : Type) : Type
  | idle
  | started (key : κ) (since : Nat)
  | loaded (key : κ) (since version : Nat)
  | missed (key : κ) (since : Nat)
  | reading (key : κ) (since version : Nat) (rest : Reads A ρ)
  | computed (key : κ) (since version : Nat) (r : ρ)
  | filling (key : κ) (since version : Nat) (r : ρ)
  | returned (key : κ) (since : Nat) (r : ρ)

/-- Where a change is. -/
inductive WriteCall (W : Type) : Type
  | idle
  | running (script : Script A W)
  | bumping (next : Script A W)
  | returned

/-- The store at every moment so far, the version, and the moment each version was
reached. The version is taken not to wrap around. -/
structure CacheSystem (σ κ ρ W : Type) where
  now : Nat
  storeAt : Nat → σ
  version : Nat
  reachedAt : Nat → Nat
  lastReturn : Nat
  entries : κ → Option (Nat × ρ)
  reads : Nat → ReadCall A κ ρ
  writes : Nat → WriteCall A W

/-- What the system is over: the answers of a store, the effect of a write, the
computation of a key, and which results are cached. -/
structure CacheSpec (σ κ ρ W : Type) where
  answer : σ → (q : Q) → A q
  apply : W → σ → σ
  compute : κ → Reads A ρ
  cacheable : ρ → Bool

inductive CacheEvent (κ W : Type) : Type
  | start (c : Nat) (key : κ)
  | loadVersion (c : Nat)
  | loadEntry (c : Nat)
  | capture (c : Nat)
  | read (c : Nat)
  | finish (c : Nat)
  | recheck (c : Nat)
  | fill (c : Nat)
  | evict (keep : κ → Bool)
  | begin (m : Nat) (script : Script A W)
  | readRow (m : Nat)
  | write (m : Nat)
  | writeFails (m : Nat)
  | bump (m : Nat)
  | finishWrite (m : Nat)

variable {A}

namespace CacheSystem

variable (s : CacheSystem A σ κ ρ W)

def store : σ := s.storeAt s.now

def setRead (c : Nat) (call : ReadCall A κ ρ) : CacheSystem A σ κ ρ W :=
  { s with reads := update s.reads c call }

def setWrite (m : Nat) (call : WriteCall A W) : CacheSystem A σ κ ρ W :=
  { s with writes := update s.writes m call }

/-- A write: the next moment. -/
def advance (store : σ) : CacheSystem A σ κ ρ W :=
  { s with now := s.now + 1, storeAt := update s.storeAt (s.now + 1) store }

/-- A change has ended, whether it succeeded or not. -/
def endWrite (m : Nat) : CacheSystem A σ κ ρ W :=
  { s.setWrite m .returned with lastReturn := s.now }

def raise : CacheSystem A σ κ ρ W :=
  { s with
    version := s.version + 1
    reachedAt := update s.reachedAt (s.version + 1) s.now }

end CacheSystem

variable (spec : CacheSpec A σ κ ρ W)

/-- One step, if the call it names is where the step begins. -/
def cacheStep [DecidableEq κ] (s : CacheSystem A σ κ ρ W) : CacheEvent A κ W → Option (CacheSystem A σ κ ρ W)
  | .start c key => some (s.setRead c (.started key s.lastReturn))
  | .loadVersion c => match s.reads c with
    | .started key since => some (s.setRead c (.loaded key since s.version))
    | _ => none
  | .loadEntry c => match s.reads c with
    | .loaded key since version => match s.entries key with
      | some (v, r) =>
        if v = version then some (s.setRead c (.returned key since r))
        else some (s.setRead c (.missed key since))
      | none => some (s.setRead c (.missed key since))
    | _ => none
  | .capture c => match s.reads c with
    | .missed key since => some (s.setRead c (.reading key since s.version (spec.compute key)))
    | _ => none
  | .read c => match s.reads c with
    | .reading key since version (.ask q next) =>
      some (s.setRead c (.reading key since version (next (spec.answer s.store q))))
    | _ => none
  | .finish c => match s.reads c with
    | .reading key since version (.done r) =>
      if spec.cacheable r then some (s.setRead c (.computed key since version r))
      else some (s.setRead c (.returned key since r))
    | _ => none
  | .recheck c => match s.reads c with
    | .computed key since version r =>
      if s.version = version then some (s.setRead c (.filling key since version r))
      else some (s.setRead c (.returned key since r))
    | _ => none
  | .fill c => match s.reads c with
    | .filling key since version r =>
      some ({ s with entries := update s.entries key (some (version, r)) }.setRead c
        (.returned key since r))
    | _ => none
  | .evict keep => some { s with entries := fun key => if keep key then s.entries key else none }
  | .begin m script => some (s.setWrite m (.running script))
  | .readRow m => match s.writes m with
    | .running (.ask q next) => some (s.setWrite m (.running (next (spec.answer s.store q))))
    | _ => none
  | .write m => match s.writes m with
    | .running (.write w bumps next) =>
      some ((s.advance (spec.apply w s.store)).setWrite m (if bumps then .bumping next else .running next))
    | _ => none
  | .writeFails m => match s.writes m with
    | .running (.write ..) => some (s.endWrite m)
    | _ => none
  | .bump m => match s.writes m with
    | .bumping next => some (s.raise.setWrite m (.running next))
    | _ => none
  | .finishWrite m => match s.writes m with
    | .running .done => some (s.endWrite m)
    | _ => none

/-- An empty cache over the store. -/
def CacheSystem.init (store : σ) : CacheSystem A σ κ ρ W where
  now := 0
  storeAt := fun _ => store
  version := 0
  reachedAt := fun _ => 0
  lastReturn := 0
  entries := fun _ => none
  reads := fun _ => .idle
  writes := fun _ => .idle

/-! ## The condition -/

/-- A write changes nothing that a computation under way has still to read, unless it has read
nothing so far. -/
def Unmixed (w : W) (s : CacheSystem A σ κ ρ W) : Prop :=
  ∀ c key since version rest, s.reads c = .reading key since version rest →
    rest = spec.compute key ∨
      rest.Agree (spec.answer s.store) (spec.answer (spec.apply w s.store))

variable (s : CacheSystem A σ κ ρ W)

/-- Every write so far has been followed by a rise of the version. -/
def Announced : Prop := s.reachedAt s.version = s.now

def CacheGuard : CacheEvent A κ W → CacheSystem A σ κ ρ W → Prop
  | .write m, s => ∀ w bumps next, s.writes m = .running (.write w bumps next) → Unmixed spec w s
  | .writeFails _, s | .finishWrite _, s => Announced s
  | _, _ => True

/-! ## What is kept -/

/-- `r` is what the computation of `key` gives on the store of a moment from `t0` on. -/
def Computed (key : κ) (t0 : Nat) (r : ρ) : Prop :=
  ∃ t, t0 ≤ t ∧ t ≤ s.now ∧ r = (spec.compute key).eval (spec.answer (s.storeAt t))

/-- What holds of a call in each of its phases. -/
def ReadCall.Holds : ReadCall A κ ρ → Prop
  | .idle => True
  | .started _ since | .missed _ since => since ≤ s.lastReturn
  | .loaded _ since version => since ≤ s.lastReturn ∧ version ≤ s.version ∧ since ≤ s.reachedAt version
  | .reading key since version rest => version ≤ s.version ∧ since ≤ s.reachedAt version ∧
      Computed spec s key (s.reachedAt version) (rest.eval (spec.answer s.store))
  | .computed key since version r => version ≤ s.version ∧ since ≤ s.reachedAt version ∧
      Computed spec s key (s.reachedAt version) r
  | .filling key since version r => version ≤ s.version ∧ since ≤ s.reachedAt version ∧
      Computed spec s key (s.reachedAt version) r
  | .returned key since r => Computed spec s key since r

structure CacheInv (s : CacheSystem A σ κ ρ W) : Prop where
  returned : s.lastReturn ≤ s.reachedAt s.version
  reached : ∀ v ≤ s.version, s.reachedAt v ≤ s.now
  entries : ∀ key v r, s.entries key = some (v, r) → v ≤ s.version ∧ Computed spec s key (s.reachedAt v) r
  reads : ∀ c, (s.reads c).Holds spec s

/-- The later state has the same past. -/
structure Extends (s s' : CacheSystem A σ κ ρ W) : Prop where
  now : s.now ≤ s'.now
  storeAt : ∀ t ≤ s.now, s'.storeAt t = s.storeAt t
  version : s.version ≤ s'.version
  reachedAt : ∀ v ≤ s.version, s'.reachedAt v = s.reachedAt v
  lastReturn : s.lastReturn ≤ s'.lastReturn

variable {spec} {s s' : CacheSystem A σ κ ρ W} {key : κ} {t0 since version c m : Nat} {r : ρ}
  {call : ReadCall A κ ρ}

theorem Computed.mono (hx : Extends s s') (h : Computed spec s key t0 r) : Computed spec s' key t0 r := by
  obtain ⟨t, ht0, ht, hr⟩ := h
  exact ⟨t, ht0, ht.trans hx.now, by rw [hx.storeAt t ht]; exact hr⟩

/-- What a version promises, it keeps promising. -/
theorem promise_mono (hx : Extends s s') (h : version ≤ s.version ∧ since ≤ s.reachedAt version) :
    version ≤ s'.version ∧ since ≤ s'.reachedAt version :=
  ⟨h.1.trans hx.version, by rw [hx.reachedAt _ h.1]; exact h.2⟩

/-- Apart from a computation under way, whose rest reads the store that is new. -/
theorem ReadCall.Holds.mono (hx : Extends s s') (hreach : ∀ v ≤ s.version, s.reachedAt v ≤ s.now)
    (hrest : ∀ key since version rest, call = .reading key since version rest →
      rest.eval (spec.answer s'.store) = rest.eval (spec.answer s.store) ∨
        rest.eval (spec.answer s'.store) = (spec.compute key).eval (spec.answer s'.store))
    (h : call.Holds spec s) : call.Holds spec s' := by
  cases call with
  | idle => trivial
  | started key since | missed key since => exact le_trans h hx.lastReturn
  | loaded key since version => exact ⟨le_trans h.1 hx.lastReturn, promise_mono hx h.2⟩
  | computed key since version r | filling key since version r =>
    obtain ⟨hv, hs⟩ := promise_mono hx ⟨h.1, h.2.1⟩
    exact ⟨hv, hs, by rw [hx.reachedAt _ h.1]; exact h.2.2.mono hx⟩
  | returned key since r => exact .mono hx h
  | reading key since version rest =>
    obtain ⟨hv, hs⟩ := promise_mono hx ⟨h.1, h.2.1⟩
    refine ⟨hv, hs, ?_⟩
    rw [hx.reachedAt _ h.1]
    rcases hrest key _ _ rest rfl with hsame | hwhole
    · rw [hsame]
      exact h.2.2.mono hx
    · exact ⟨s'.now, (hreach _ h.1).trans hx.now, le_rfl, hwhole⟩

theorem extends_same {entries reads writes} : Extends s { s with entries, reads, writes } :=
  ⟨le_rfl, fun _ _ => rfl, le_rfl, fun _ _ => rfl, le_rfl⟩

section

variable (I : CacheInv spec s)

include I

/-- A call goes on to a phase in which what is needed of it holds. -/
theorem CacheInv.setRead (h : call.Holds spec s) : CacheInv spec (s.setRead c call) := by
  refine { I with reads := fun c' => ?_ }
  exact forall_update (motive := fun _ => ReadCall.Holds spec s) h (fun c' _ => I.reads c') c'

/-- A state with the calls of `s`, later. -/
theorem CacheInv.later (hx : Extends s s')
    (hret : s'.lastReturn ≤ s'.reachedAt s'.version) (hreach : ∀ v ≤ s'.version, s'.reachedAt v ≤ s'.now)
    (hents : ∀ key v r, s'.entries key = some (v, r) → s.entries key = some (v, r))
    (hreads : s'.reads = s.reads)
    (hrest : ∀ c key since version rest, s.reads c = .reading key since version rest →
      rest.eval (spec.answer s'.store) = rest.eval (spec.answer s.store) ∨
        rest.eval (spec.answer s'.store) = (spec.compute key).eval (spec.answer s'.store)) :
    CacheInv spec s' := by
  refine ⟨hret, hreach, fun key v r he => ?_, fun c => ?_⟩
  · obtain ⟨hv, hcomp⟩ := I.entries key v r (hents key v r he)
    exact ⟨hv.trans hx.version, by rw [hx.reachedAt v hv]; exact hcomp.mono hx⟩
  · rw [hreads]
    exact (I.reads c).mono hx I.reached (hrest c)

theorem CacheInv.setWrite {call : WriteCall A W} : CacheInv spec (s.setWrite m call) :=
  I.later extends_same I.returned I.reached (fun _ _ _ h => h) rfl fun _ _ _ _ _ _ => .inl rfl

theorem CacheInv.endWrite (h : Announced s) : CacheInv spec (s.endWrite m) := by
  have hret : s.lastReturn ≤ s.now := I.returned.trans (I.reached _ le_rfl)
  refine I.later ⟨le_rfl, fun _ _ => rfl, le_rfl, fun _ _ => rfl, hret⟩ ?_ I.reached
    (fun _ _ _ h => h) rfl fun _ _ _ _ _ _ => .inl rfl
  exact le_of_eq h.symm

theorem CacheInv.raise : CacheInv spec s.raise := by
  have hold : ∀ v ≤ s.version, s.raise.reachedAt v = s.reachedAt v := fun v hv =>
    update_of_ne (ne_of_lt (Nat.lt_succ_of_le hv)) _ _
  have hnew : s.raise.reachedAt (s.version + 1) = s.now := update_self ..
  refine I.later ⟨le_rfl, fun _ _ => rfl, Nat.le_succ _, hold, le_rfl⟩ ?_ ?_
    (fun _ _ _ h => h) rfl fun _ _ _ _ _ _ => .inl rfl
  · exact (I.returned.trans (I.reached _ le_rfl)).trans (le_of_eq hnew.symm)
  · intro v hv
    rcases Nat.le_succ_iff.1 hv with hv | rfl
    · rw [hold v hv]
      exact I.reached v hv
    · exact le_of_eq hnew

theorem CacheInv.advance {w : W} (h : Unmixed spec w s) :
    CacheInv spec (s.advance (spec.apply w s.store)) := by
  have hstore : (s.advance (spec.apply w s.store)).store = spec.apply w s.store := update_self ..
  refine I.later ⟨Nat.le_succ _, fun t ht => ?_, le_rfl, fun _ _ => rfl, le_rfl⟩ I.returned
    (fun v hv => (I.reached v hv).trans (Nat.le_succ _)) (fun _ _ _ h => h) rfl ?_
  · exact update_of_ne (ne_of_lt (Nat.lt_succ_of_le ht)) _ _
  · rw [hstore]
    intro c key since version rest hc
    rcases h c key since version rest hc with rfl | hagree
    · exact .inr rfl
    · exact .inl hagree.eval_eq

theorem CacheInv.evict {keep : κ → Bool} :
    CacheInv spec { s with entries := fun key => if keep key then s.entries key else none } := by
  refine I.later extends_same I.returned
    I.reached (fun key v r h => ?_) rfl fun _ _ _ _ _ _ => .inl rfl
  dsimp only at h
  split at h
  · exact h
  · cases h

/-- A value goes into the cache under the version its computation started from. -/
theorem CacheInv.fill [DecidableEq κ] (hv : version ≤ s.version)
    (h : Computed spec s key (s.reachedAt version) r) :
    CacheInv spec { s with entries := update s.entries key (some (version, r)) } := by
  refine ⟨I.returned, I.reached, fun k v r' he => ?_, fun c => ?_⟩
  · rcases update_cases he with ⟨rfl, heq⟩ | he
    · cases heq
      exact ⟨hv, h⟩
    · exact I.entries k v r' he
  · exact (I.reads c).mono extends_same I.reached fun _ _ _ _ _ => .inl rfl

end

theorem Computed.weaken {t1 : Nat} (h : Computed spec s key t1 r) (ht : t0 ≤ t1) : Computed spec s key t0 r := by
  obtain ⟨t, ht1, htn, hr⟩ := h
  exact ⟨t, ht.trans ht1, htn, hr⟩

theorem CacheInv.holds (I : CacheInv spec s) (hc : s.reads c = call) : call.Holds spec s :=
  hc ▸ I.reads c

theorem cacheInv_step [DecidableEq κ] (I : CacheInv spec s) {ev : CacheEvent A κ W}
    (hguard : CacheGuard spec ev s) (h : cacheStep spec s ev = some s') : CacheInv spec s' := by
  cases ev with dsimp only [cacheStep] at h
  | start c key =>
    cases h
    exact I.setRead le_rfl
  | loadVersion c =>
    split at h
    · next key since hc =>
      cases h
      have hsince : since ≤ s.lastReturn := I.holds hc
      exact I.setRead ⟨hsince, le_rfl, hsince.trans I.returned⟩
    · cases h
  | loadEntry c =>
    split at h
    · next key since version hc =>
      obtain ⟨hret, -, hsince⟩ := I.holds hc
      split at h
      · next v r he =>
        split at h
        · next hv =>
          subst hv
          cases h
          exact I.setRead ((I.entries key v r he).2.weaken hsince)
        · cases h
          exact I.setRead hret
      · cases h
        exact I.setRead hret
    · cases h
  | capture c =>
    split at h
    · next key since hc =>
      cases h
      have hsince : since ≤ s.lastReturn := I.holds hc
      refine I.setRead ⟨le_rfl, hsince.trans I.returned, s.now, ?_, le_rfl, rfl⟩
      exact I.reached _ le_rfl
    · cases h
  | read c =>
    split at h
    · next hc =>
      have hcall := I.holds hc
      cases h
      exact I.setRead hcall
    · cases h
  | finish c | recheck c =>
    split at h
    · next key since version r hc =>
      obtain ⟨hv, hsince, hcomp⟩ := I.holds hc
      split at h
      · cases h
        exact I.setRead ⟨hv, hsince, hcomp⟩
      · cases h
        exact I.setRead (hcomp.weaken hsince)
    · cases h
  | fill c =>
    split at h
    · next key since version r hc =>
      obtain ⟨hv, hsince, hcomp⟩ := I.holds hc
      cases h
      exact (I.fill hv hcomp).setRead (hcomp.weaken hsince)
    · cases h
  | evict keep => cases h; exact I.evict
  | begin m script => cases h; exact I.setWrite
  | readRow m =>
    split at h
    · cases h; exact I.setWrite
    · cases h
  | write m =>
    split at h
    · next w bumps next hm => cases h; exact (I.advance (hguard w _ next hm)).setWrite
    · cases h
  | writeFails m | finishWrite m =>
    split at h
    · cases h; exact I.endWrite hguard
    · cases h
  | bump m =>
    split at h
    · cases h; exact I.raise.setWrite
    · cases h

theorem cacheInv_init (store : σ) : CacheInv spec (.init store) where
  returned := le_rfl
  reached := fun _ _ => le_rfl
  entries := nofun
  reads := fun _ => trivial

/-- In a run in which no write mixes a computation and no change ends unannounced,
what a call returns was computed on a store from when it began or later. -/
theorem cacheInv_reachable [DecidableEq κ] {store : σ} (h : Reachable (· = .init store)
      (LabelledWith (fun ev s s' => cacheStep spec s ev = some s') (CacheGuard spec)) s) : CacheInv spec s := by
  refine h.invariant ?_ ?_
  · rintro s rfl
    exact cacheInv_init _
  · rintro s s' - I ⟨ev, hguard, hstep⟩
    exact cacheInv_step I hguard hstep

end

end Hearth.Base
