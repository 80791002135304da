import Hearth.Base.Run

/-!
# Required password updates

The token of a required action is claimed before the password is changed, and the
claim is released when the change returns an error. The change still writes behind the
credential, and returns an error when that fails.

Results:
1. `required_password_once`: where nothing fails behind the put of the credential, the
   calls with one token write at most one password.
2. `required_password_twice`: the write of the watermark fails, and the next call
   writes another password.
-/

namespace Hearth.Identity

open Base

/-- A credential; `upToDate` says that it is hashed by the realm's algorithm and parameters. -/
structure StoredCredential (P : Type) where
  password : P
  upToDate : Bool

/-- What a call of `complete_required_password_update` does next, in `change_password` and in
`store_vetted_password`. No error of `change_password` says that there is no credential. -/
inductive UpdatePc (P : Type)
  | idle
  | verify (current new : P)
  | auditChanged (new : P)
  | rotate (new : P)
  | put (new : P)
  | watermark
  | auditSet

/-- The rows of the token and the user, and the passwords written through the token. -/
structure RequiredUpdate (P : Type) where
  claimed : Bool
  credential : Option (StoredCredential P)
  history : List (StoredCredential P)
  watermark : Int
  written : List P
  pc : UpdatePc P

namespace RequiredUpdate

variable {P : Type}

/-- The label says whether the step is a failure. The calls with one token run one after another. -/
inductive Step : Bool → RequiredUpdate P → RequiredUpdate P → Prop
  | claim {s} (current new : P) : s.pc = .idle → s.claimed = false →
      Step false s { s with claimed := true, pc := .verify current new }
  | taken {s} : s.pc = .idle → s.claimed = true → Step false s s
  /-- `verify_password`, which hashes an outdated credential again. -/
  | verify {s current new upToDate} : s.pc = .verify current new →
      s.credential = some ⟨current, upToDate⟩ →
      Step false s { s with credential := some ⟨current, true⟩, pc := .auditChanged new }
  | auditChanged {s new} : s.pc = .auditChanged new → Step false s { s with pc := .rotate new }
  /-- The password is vetted, and the credential goes to the history if that has a depth. -/
  | rotate {s new} (historyDepth : Nat) : s.pc = .rotate new → Step false s { s with
        history := if historyDepth = 0 then s.history
          else (s.credential.toList ++ s.history).take historyDepth
        pc := .put new }
  | put {s new} : s.pc = .put new →
      Step false s { s with credential := some ⟨new, true⟩, written := new :: s.written, pc := .watermark }
  | watermark {s} (now : Int) : s.pc = .watermark →
      Step false s { s with watermark := max s.watermark now, pc := .auditSet }
  /-- The sessions are revoked behind this; a failure there is only logged. -/
  | auditSet {s} : s.pc = .auditSet → Step false s { s with pc := .idle }
  /-- A check refuses the call or an operation fails; the release of the claim may fail too. -/
  | fail {s} (released : Bool) : s.pc ≠ .idle → Step true s { s with claimed := !released, pc := .idle }

def Start (s : RequiredUpdate P) : Prop := s.written = [] ∧ s.pc = .idle

/-- Nothing fails behind the put of the credential. -/
def Settles : Bool → RequiredUpdate P → Prop
  | true, s => s.pc ≠ .watermark ∧ s.pc ≠ .auditSet
  | false, _ => True

/-- A password was written only where the claim stands. -/
def Inv (s : RequiredUpdate P) : Prop :=
  match s.pc with
  | .idle => s.written = [] ∨ s.claimed = true ∧ s.written.length = 1
  | .watermark | .auditSet => s.claimed = true ∧ s.written.length = 1
  | _ => s.claimed = true ∧ s.written = []

theorem Inv.step {s t : RequiredUpdate P} {failed} (h : s.Inv) (hok : Settles failed s)
    (hst : Step failed s t) : t.Inv := by
  unfold Inv at h ⊢
  cases hst with
  | claim _ _ hpc hfree =>
    rw [hpc] at h
    exact ⟨rfl, h.resolve_right fun h => nomatch hfree.symm.trans h.1⟩
  | taken => exact h
  | verify hpc | auditChanged hpc | rotate _ hpc | watermark _ hpc =>
    rw [hpc] at h
    exact h
  | put hpc =>
    rw [hpc] at h
    exact ⟨h.1, congrArg (·.length + 1) h.2⟩
  | auditSet hpc =>
    rw [hpc] at h
    exact .inr h
  | fail released hpc =>
    obtain ⟨hmark, haudit⟩ := hok
    cases hs : s.pc with
    | idle => exact absurd hs hpc
    | watermark => exact absurd hs hmark
    | auditSet => exact absurd hs haudit
    | _ => rw [hs] at h; exact .inl h.2

/-- In every run in which nothing fails behind the put of a credential, the token writes at most one
password. -/
theorem required_password_once {s : RequiredUpdate P} (h : Reachable Start (LabelledWith Step Settles) s) :
    s.written.length ≤ 1 := by
  have hinv : s.Inv := h.preserves (fun hs => by unfold Inv; rw [hs.2]; exact .inl hs.1) Inv.step
  unfold Inv at hinv
  grind

def demoRows : RequiredUpdate Nat := ⟨false, some ⟨0, true⟩, [], 0, [], .idle⟩

/-- The first call is refused and the second writes its password. -/
theorem required_password_once_resubmitted : ∃ s : RequiredUpdate Nat, s.written = [2] ∧ s.written.length ≤ 1 := by
  have h0 : Reachable Start (LabelledWith Step Settles) demoRows := .start ⟨rfl, rfl⟩
  have h1 := h0.take (.claim 1 2 rfl rfl)
  have h2 := h1.take (.fail true nofun) ⟨nofun, nofun⟩
  have h3 := h2.take (.claim 0 2 rfl rfl)
  have h4 := h3.take (.verify rfl rfl)
  have h5 := h4.take (.auditChanged rfl)
  have h6 := h5.take (.rotate 0 rfl)
  exact ⟨_, rfl, required_password_once (h6.take (.put rfl))⟩

theorem required_password_twice : ∃ s : RequiredUpdate Nat,
    Reachable Start (LabelledWith Step fun _ _ => True) s ∧ s.written = [2, 1] := by
  have h0 : Reachable Start (LabelledWith Step fun _ _ => True) demoRows := .start ⟨rfl, rfl⟩
  have h1 := h0.take (.claim 0 1 rfl rfl)
  have h2 := h1.take (.verify rfl rfl)
  have h3 := h2.take (.auditChanged rfl)
  have h4 := h3.take (.rotate 0 rfl)
  have h5 := h4.take (.put rfl)
  have h6 := h5.take (.fail true nofun)
  have h7 := h6.take (.claim 1 2 rfl rfl)
  have h8 := h7.take (.verify rfl rfl)
  have h9 := h8.take (.auditChanged rfl)
  have h10 := h9.take (.rotate 0 rfl)
  exact ⟨_, h10.take (.put rfl), rfl⟩

end RequiredUpdate

end Hearth.Identity
