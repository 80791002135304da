import Hearth.Base.Replicated
import Mathlib.Data.Bool.Basic
import Mathlib.Order.Basic

/-!
# The session row

`revoke_session`, `refresh_session` and `bulk_revoke_sessions` read the whole row of a
session and write it back. The first two do so under a lock of their node; the third takes
no lock. In a cluster the writes are ordered in one log and a node reads a prefix of it.

Results:
1. `revoked_row_stays`: where a refresh reads no row that the log has revoked since, and no
   revocation is written while a refresh is under way, a revoked row stays revoked.
2. `refresh_undoes_revocation`: a refresh on another node, or one under way while the realm
   is suspended, writes the row back un-revoked.
-/

namespace Hearth.Identity

open Base Function

/-- The fields of a session that its validity depends on, in UTC microseconds. -/
structure Session where
  expiresAt : Int
  lastRefreshedAt : Int
  revoked : Bool
  idleDeadline : Option Int
  absoluteDeadline : Option Int
  deriving DecidableEq, Repr

namespace Session

variable (s : Session)

def isValid (now : Int) : Bool := !s.revoked && decide (now < s.expiresAt)

def isPolicyExpired (now : Int) : Bool :=
  s.idleDeadline.any (fun d => decide (d ≤ now)) || s.absoluteDeadline.any fun d => decide (d ≤ now)

def revoke : Session := { s with revoked := true }

/-- The idle window is the one that the last refresh had left. -/
def refresh (now ttlMicros : Int) : Session :=
  { s with
    expiresAt := now + ttlMicros
    lastRefreshedAt := now
    idleDeadline := s.idleDeadline.map fun deadline => now + (deadline - s.lastRefreshedAt) }

theorem not_revoked_of_isValid {s : Session} {now : Int} (h : s.isValid now = true) : s.revoked = false := by
  simp only [isValid, Bool.and_eq_true, Bool.not_eq_true'] at h
  exact h.1

end Session

/-! ## Calls in a cluster -/

/-- The log of the rows of one session, and the calls under way. -/
structure SessionSys (N : Type) where
  log : Replicated N Session
  /-- The row that the holder of the node's row lock is about to write. -/
  row : N → Option Session
  /-- The rows that bulk revocations are about to write, and where. -/
  scanned : List (N × Session)

inductive SessionEvent (N : Type)
  | refreshRead (n : N) (now : Int)
  | evictRead (n : N) (now : Int)
  | revokeRead (n : N)
  | write (n : N)
  | giveUp (n : N)
  | bulkScan (n : N)
  | bulkWrite (n : N) (s : Session)
  | catchUp (n : N) (v : Nat)

namespace SessionSys

variable {N : Type} (s : SessionSys N)

def Init : Prop := (∃ session, s.log = .start session) ∧ (∀ n, s.row n = none) ∧ s.scanned = []

/-- No refresh is between its read and its write. -/
def NoRefresh : Prop := ∀ n t, s.row n = some t → t.revoked = true

/-- A refresh starts on a node that has applied any revocation in the log, and a revocation is
written while no refresh is under way. -/
def Apart : SessionEvent N → SessionSys N → Prop
  | .refreshRead n _, s => s.log.current.revoked = true → (s.log.read n).revoked = true
  | .write n, s => (∀ t, s.row n = some t → t.revoked = false) ∨ s.NoRefresh
  | .bulkWrite _ _, s => s.NoRefresh
  | _, _ => True

/-- No row after a revoked one is un-revoked. -/
def StaysRevoked : Prop :=
  ∀ k k', k ≤ k' → k' ≤ s.log.length → (s.log.state k).revoked = true → (s.log.state k').revoked = true

structure Inv (s : SessionSys N) : Prop where
  stays : s.StaysRevoked
  refreshing : ∀ n t, s.row n = some t → t.revoked = false → s.log.current.revoked = false
  scanned : ∀ x ∈ s.scanned, x.2.revoked = true

theorem Inv.init {s : SessionSys N} (h : s.Init) : s.Inv := by
  obtain ⟨⟨session, hlog⟩, hrow, hscan⟩ := h
  refine ⟨?_, ?_, ?_⟩
  · rw [StaysRevoked, hlog]
    exact fun _ _ _ _ hk => hk
  · intro n t ht
    rw [hrow] at ht
    cases ht
  · simp [hscan]

variable [DecidableEq N] (s : SessionSys N)

/-- A call takes the row lock of node `n` to write `t`. -/
def hold (n : N) (t : Session) : SessionSys N := { s with row := update s.row n (some t) }

def release (n : N) : SessionSys N := { s with row := update s.row n none }

def append (n : N) (t : Session) : SessionSys N := { s with log := s.log.propose n t }

/-- A refresh that finds the session past its policy evicts it, which writes it revoked; one that
finds it invalid writes nothing. -/
inductive Step (ttlMicros : Int) : SessionEvent N → SessionSys N → SessionSys N → Prop
  | refreshRead {s n now} :
      s.row n = none → (s.log.read n).isValid now = true → (s.log.read n).isPolicyExpired now = false →
      Step ttlMicros (.refreshRead n now) s (s.hold n ((s.log.read n).refresh now ttlMicros))
  | evictRead {s n now} :
      s.row n = none → (s.log.read n).isValid now = true → (s.log.read n).isPolicyExpired now = true →
      Step ttlMicros (.evictRead n now) s (s.hold n (s.log.read n).revoke)
  | revokeRead {s n} :
      s.row n = none → Step ttlMicros (.revokeRead n) s (s.hold n (s.log.read n).revoke)
  | write {s n t} : s.row n = some t → Step ttlMicros (.write n) s ((s.append n t).release n)
  | giveUp {s n} : Step ttlMicros (.giveUp n) s (s.release n)
  | bulkScan {s n} : (s.log.read n).revoked = false →
      Step ttlMicros (.bulkScan n) s { s with scanned := (n, (s.log.read n).revoke) :: s.scanned }
  | bulkWrite {s n t} : (n, t) ∈ s.scanned → Step ttlMicros (.bulkWrite n t) s (s.append n t)
  | catchUp {s n v} (hv : v ≤ s.log.length) :
      s.log.view n ≤ v → Step ttlMicros (.catchUp n v) s { s with log := s.log.catchUp n v hv }

variable {s t : SessionSys N} {ttlMicros : Int} {ev : SessionEvent N} {n : N} {r : Session}

theorem row_hold {m : N} {u} (h : (s.hold n r).row m = some u) : u = r ∨ s.row m = some u :=
  (update_cases h).imp_left fun heq => Option.some.inj heq.2

theorem row_release {m : N} {u} (h : (s.release n).row m = some u) : s.row m = some u :=
  (update_cases h).resolve_left fun heq => nomatch heq.2

/-- A call that has read the row is about to write it revoked, or the log's last row is not
revoked. -/
theorem Inv.hold (h : s.Inv) (hr : r.revoked = false → s.log.current.revoked = false) : (s.hold n r).Inv := by
  refine ⟨h.stays, fun m u hu hlive => ?_, h.scanned⟩
  rcases row_hold hu with rfl | hu
  · exact hr hlive
  · exact h.refreshing m u hu hlive

theorem Inv.release (h : s.Inv) : (s.release n).Inv :=
  ⟨h.stays, fun m u hu => h.refreshing m u (row_release hu), h.scanned⟩

/-- A row may follow if it is revoked, or if none before it is. -/
theorem StaysRevoked.append (h : s.StaysRevoked) (hr : r.revoked = true ∨ s.log.current.revoked = false) :
    (s.append n r).StaysRevoked := by
  intro k k' hk hk' hrev
  change k' ≤ s.log.length + 1 at hk'
  change (update s.log.state (s.log.length + 1) r k').revoked = true
  change (update s.log.state (s.log.length + 1) r k).revoked = true at hrev
  rcases Nat.lt_or_eq_of_le hk' with hlt | rfl
  · rw [update_of_ne (Nat.ne_of_lt hlt)]
    rw [update_of_ne (Nat.ne_of_lt (Nat.lt_of_le_of_lt hk hlt))] at hrev
    exact h k k' hk (Nat.le_of_lt_succ hlt) hrev
  · rw [update_self]
    rcases Nat.lt_or_eq_of_le hk with hlt | rfl
    · rw [update_of_ne (Nat.ne_of_lt hlt)] at hrev
      have hlast := h k _ (Nat.le_of_lt_succ hlt) (Nat.le_refl _) hrev
      rcases hr with hr | hr
      · exact hr
      · rw [Replicated.current, hlast] at hr
        cases hr
    · rwa [update_self] at hrev

theorem Inv.append (h : s.Inv) (hr : r.revoked = true ∨ s.log.current.revoked = false)
    (hnone : r.revoked = true → s.NoRefresh) : (s.append n r).Inv := by
  refine ⟨h.stays.append hr, fun m u hu hlive => ?_, h.scanned⟩
  change (s.log.propose n r).current.revoked = false
  rw [Replicated.current_propose, ← Bool.not_eq_true]
  intro hrev
  rw [hnone hrev m u hu] at hlive
  cases hlive

theorem Inv.step (h : s.Inv) (hev : Apart ev s) (hstep : Step ttlMicros ev s t) : t.Inv := by
  cases hstep with
  | refreshRead _ hvalid _ =>
    refine h.hold fun _ => ?_
    rw [← Bool.not_eq_true]
    intro hcur
    have hread := hev hcur
    rw [Session.not_revoked_of_isValid hvalid] at hread
    cases hread
  | evictRead | revokeRead => exact h.hold nofun
  | @write _ n r hr =>
    refine release (h.append ?_ fun hrev => ?_)
    · cases hrev : r.revoked with
      | true => exact .inl rfl
      | false => exact .inr (h.refreshing n r hr hrev)
    · rcases hev with hlive | hnone
      · rw [hlive r hr] at hrev
        cases hrev
      · exact hnone
  | giveUp => exact h.release
  | bulkScan =>
    exact { h with scanned := List.forall_mem_cons.2 ⟨rfl, h.scanned⟩ }
  | bulkWrite hmem => exact h.append (.inl (h.scanned _ hmem)) fun _ => hev
  | catchUp => exact { h with }

/-- In every run where refreshes and revocations keep apart, a row that is revoked is revoked in
all later rows of the log. -/
theorem revoked_row_stays (h : Reachable Init (LabelledWith (Step ttlMicros) Apart) s) : s.StaysRevoked := by
  have hI : s.Inv := by
    refine h.invariant (fun s => .init) fun s t _ hs hst => ?_
    obtain ⟨ev, hev, hstep⟩ := hst
    exact hs.step hev hstep
  exact hI.stays

/-- A session without a policy that expires at `100`. -/
def sample : Session := ⟨100, 0, false, none, none⟩

def sampleSys : SessionSys Bool := ⟨.start sample, fun _ => none, []⟩

theorem sampleSys_init : sampleSys.Init := ⟨⟨sample, rfl⟩, fun _ => rfl, rfl⟩

/-- Node `false` refreshes the session, node `true` revokes it, and node `false`, which has not seen
this, revokes it again. -/
theorem revoked_row_stays_two : ∃ s : SessionSys Bool, s.log.length = 3 ∧
    (s.log.state 1).revoked = false ∧ (s.log.state 2).revoked = true ∧ s.StaysRevoked := by
  have h0 : Reachable Init (LabelledWith (Step 100) Apart) sampleSys := .start sampleSys_init
  have h1 := h0.next ⟨.refreshRead false 10, nofun, .refreshRead rfl rfl rfl⟩
  have hlive : Apart (.write false) (sampleSys.hold false (sample.refresh 10 100)) := by
    refine .inl fun t ht => ?_
    cases ht
    rfl
  have h2 := h1.next ⟨.write false, hlive, .write rfl⟩
  have h3 := h2.next ⟨.revokeRead true, trivial, .revokeRead rfl⟩
  have hrevoke : ∀ {s : SessionSys Bool} {n r}, (∀ m, s.row m = none) →
      (s.hold n (Session.revoke r)).NoRefresh := by
    intro s n r hnone m t ht
    rcases row_hold ht with rfl | ht
    · rfl
    · cases (hnone m).symm.trans ht
  have h4 := h3.next ⟨.write true, .inr (hrevoke (by decide)), .write rfl⟩
  have h5 := h4.next ⟨.revokeRead false, trivial, .revokeRead rfl⟩
  have h6 := h5.next ⟨.write false, .inr (hrevoke (by decide)), .write rfl⟩
  exact ⟨_, rfl, rfl, rfl, revoked_row_stays h6⟩

/-- Node `false` has read the live row for a refresh when node `true` revokes the session; the
refresh writes its copy after. On one node, a realm suspension does the same: it takes no lock. -/
theorem refresh_undoes_revocation :
    (∃ s : SessionSys Bool, Reachable Init (fun s t => ∃ ev, Step 100 ev s t) s ∧ s.scanned = [] ∧
      s.log.length = 2 ∧ (s.log.state 1).revoked = true ∧ (s.log.state 2).revoked = false) ∧
    ∃ s : SessionSys Unit, Reachable Init (fun s t => ∃ ev, Step 100 ev s t) s ∧
      s.log.length = 2 ∧ (s.log.state 1).revoked = true ∧ (s.log.state 2).revoked = false := by
  constructor
  · have h0 : Reachable Init (fun s t => ∃ ev, Step 100 ev s t) sampleSys := .start sampleSys_init
    have h1 := h0.next ⟨.refreshRead false 10, .refreshRead rfl rfl rfl⟩
    have h2 := h1.next ⟨.revokeRead true, .revokeRead rfl⟩
    have h3 := h2.next ⟨.write true, .write rfl⟩
    have h4 := h3.next ⟨.write false, .write rfl⟩
    exact ⟨_, h4, rfl, rfl, rfl, rfl⟩
  · have h0 : Reachable Init (fun s t => ∃ ev, Step 100 ev s t) (⟨.start sample, fun _ => none, []⟩ : SessionSys Unit) :=
      .start ⟨⟨sample, rfl⟩, fun _ => rfl, rfl⟩
    have h1 := h0.next ⟨.refreshRead () 10, .refreshRead rfl rfl rfl⟩
    have h2 := h1.next ⟨.bulkScan (), .bulkScan rfl⟩
    have h3 := h2.next ⟨.bulkWrite () sample.revoke, .bulkWrite (List.mem_singleton_self _)⟩
    have h4 := h3.next ⟨.write (), .write rfl⟩
    exact ⟨_, h4, rfl, rfl, rfl⟩

end SessionSys

end Hearth.Identity
