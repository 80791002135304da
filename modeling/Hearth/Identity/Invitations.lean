import Hearth.Identity.Dpop
import Hearth.Identity.UserUpdate

/-!
# Registration by invitation

An invitation is a record under its id, and a row under the hash of its token that
holds the id. Accepting reads the record through that row. Registering in a realm that
is open to invited users only reads the row itself as the record.

Results:
1. `invite_only_admits_iff`: registration admits exactly the invited if and only if the
   token is of no open invitation to the address.
2. `invited_refused`: the invited user is refused.
-/

namespace Hearth.Identity

open Base Function

abbrev InvitationId := { uuid : Bytes // uuid.length = 16 }

inductive InvitationStatus
  | pending
  | accepted
  | revoked
  | expired
  deriving DecidableEq

structure OrganizationInvitation (Org : Type) where
  id : InvitationId
  orgId : Org
  email : String
  tokenHash : String
  status : InvitationStatus
  expiresAt : Int

inductive InvitationError
  | organizationNotFound
  | organizationSuspended
  | validation (e : UserError)
  | duplicateInvitation
  | alreadyMember
  | invitationInvalid
  | serialization (reason : String)
  | registrationRequiresInvitation
  deriving DecidableEq

/-- `serde_json` on invitations. A text it accepts has all fields, of which three are UUIDs. -/
structure InvitationCodec (Org : Type) where
  toVec : OrganizationInvitation Org → Bytes
  fromSlice : Bytes → Except String (OrganizationInvitation Org)
  length_of_fromSlice : ∀ {bytes x}, fromSlice bytes = .ok x → 16 < bytes.length

/-- What the calls find outside the rows of invitations: whether an organization is there and active,
and whether the user of an address is a member. -/
structure Directory (Org : Type) where
  organization : Org → Option Bool
  member : Org → String → Bool

def Directory.check {Org : Type} (d : Directory Org) (orgId : Org) : Except InvitationError Unit := do
  let active ← okOr (d.organization orgId) .organizationNotFound
  failIf (!active) .organizationSuspended

structure InvitationRows (Org : Type) where
  records : InvitationId → Option Bytes
  tokens : String → Option Bytes
  dedup : Org × String → Option Bytes
  listed : Org → List InvitationId
  consumed : InvitationId → Bool

namespace InvitationRows

variable {Org : Type} [DecidableEq Org] (codec : InvitationCodec Org) (sha256Hex : String → String)
  (unicode : Unicode) (d : Directory Org) (rows : InvitationRows Org)

def createInvitation (orgId : Org) (email token : String) (id : InvitationId) (now : Int) :
    Except InvitationError (InvitationRows Org) := do
  d.check orgId
  let email ← (validateEmail unicode email).mapError .validation
  failIf (rows.dedup (orgId, email)).isSome .duplicateInvitation
  failIf (d.member orgId email) .alreadyMember
  let expiresAt := now + 7 * 24 * 60 * 60 * 1000000
  return {
    records := update rows.records id
      (some (codec.toVec ⟨id, orgId, email, sha256Hex token, .pending, expiresAt⟩))
    tokens := update rows.tokens (sha256Hex token) (some id)
    dedup := update rows.dedup (orgId, email) (some id)
    listed := update rows.listed orgId (id :: rows.listed orgId)
    consumed := rows.consumed }

section

variable (id : InvitationId)

/-- `get` of a record that is still pending. -/
def loadPending : Except InvitationError (OrganizationInvitation Org) := do
  let bytes ← okOr (rows.records id) .invitationInvalid
  let invitation ← (codec.fromSlice bytes).mapError .serialization
  failIf (invitation.status ≠ .pending) .invitationInvalid
  return invitation

/-- The part of `accept_invitation` before its first write. -/
def acceptable (token : String) (now : Int) : Except InvitationError (InvitationId × OrganizationInvitation Org) := do
  let bytes ← okOr (rows.tokens (sha256Hex token)) .invitationInvalid
  let id ← if h : bytes.length = 16 then .ok ⟨bytes, h⟩ else .error (.serialization "invalid invitation UUID")
  let invitation ← rows.loadPending codec id
  failIf (invitation.expiresAt ≤ now) .invitationInvalid
  d.check invitation.orgId
  failIf (d.member invitation.orgId invitation.email) .alreadyMember
  failIf (rows.consumed id) .invitationInvalid
  return (id, invitation)

def claim : InvitationRows Org := { rows with consumed := update rows.consumed id true }

/-- The record with its new status. The dedup row goes. -/
def settle (invitation : OrganizationInvitation Org) (status : InvitationStatus) : InvitationRows Org :=
  { rows with
    records := update rows.records id (some (codec.toVec { invitation with status }))
    dedup := update rows.dedup (invitation.orgId, invitation.email) none }

/-- `joined` is whether the user could be created and added to the organization. -/
def acceptInvitation (token : String) (now : Int) (joined : Bool) : InvitationRows Org :=
  match rows.acceptable codec sha256Hex d token now with
  | .error _ => rows
  | .ok (id, invitation) =>
    if joined then (rows.claim id).settle codec id invitation .accepted else rows.claim id

def revokeInvitation : InvitationRows Org :=
  match rows.loadPending codec id with
  | .error _ => rows
  | .ok invitation => if rows.consumed id then rows else (rows.claim id).settle codec id invitation .revoked

end

/-- What `delete_organization` does for a row of the list. -/
def deleteListed (orgId : Org) (rows : InvitationRows Org) (id : InvitationId) : InvitationRows Org :=
  match (rows.records id).map codec.fromSlice with
  | some (.ok invitation) =>
    { rows with
      records := update rows.records id none
      tokens := update rows.tokens invitation.tokenHash none
      dedup := update rows.dedup (orgId, invitation.email) none }
  | _ => { rows with records := update rows.records id none }

def deleteOrganization (orgId : Org) : InvitationRows Org :=
  let rows := (rows.listed orgId).foldl (deleteListed codec orgId) rows
  { rows with listed := update rows.listed orgId [] }

/-- The check of `register_user` under the policy `InviteOnly`. -/
def checkInviteOnly (email : String) (token : Option String) : Except InvitationError Unit := do
  let token ← okOr token .registrationRequiresInvitation
  let bytes ← okOr (rows.tokens (sha256Hex token)) .registrationRequiresInvitation
  let invitation ← (codec.fromSlice bytes).mapError .serialization
  failIf (!eqIgnoreAsciiCase invitation.email email || invitation.status ≠ .pending) .registrationRequiresInvitation

/-- The token is of an invitation to the address that is pending and has not expired. -/
def Invited (now : Int) (email : String) (token : Option String) : Prop :=
  ∃ t id bytes invitation, token = some t ∧ rows.records id = some bytes ∧ codec.fromSlice bytes = .ok invitation ∧
    invitation.tokenHash = sha256Hex t ∧ invitation.status = .pending ∧ now < invitation.expiresAt ∧
    eqIgnoreAsciiCase invitation.email email = true

def empty : InvitationRows Org := ⟨fun _ => none, fun _ => none, fun _ => none, fun _ => [], fun _ => false⟩

inductive Step : InvitationRows Org → InvitationRows Org → Prop
  | create {d rows rows' orgId email token id now} :
      createInvitation codec sha256Hex unicode d rows orgId email token id now = .ok rows' → Step rows rows'
  | accept (d rows token now joined) : Step rows (acceptInvitation codec sha256Hex d rows token now joined)
  | revoke (rows id) : Step rows (revokeInvitation codec rows id)
  | delete (rows orgId) : Step rows (deleteOrganization codec rows orgId)

def TokensAreIds : Prop := ∀ hash, ∀ bytes ∈ rows.tokens hash, bytes.length = 16

variable {codec sha256Hex unicode d rows}

omit [DecidableEq Org] in
theorem TokensAreIds.update (h : rows.TokensAreIds) {rows' : InvitationRows Org} {hash value}
    (htokens : rows'.tokens = update rows.tokens hash value) (hvalue : ∀ bytes ∈ value, bytes.length = 16) :
    rows'.TokensAreIds :=
  forall_move (motive := fun _ row => ∀ bytes ∈ (row : Option Bytes), bytes.length = 16) htokens hvalue fun hash _ => h hash

theorem TokensAreIds.deleteListed (h : rows.TokensAreIds) (orgId id) :
    (deleteListed codec orgId rows id).TokensAreIds := by
  unfold InvitationRows.deleteListed
  split
  · exact h.update rfl nofun
  · exact h

theorem TokensAreIds.step (h : rows.TokensAreIds) {rows'} (hst : Step codec sha256Hex unicode rows rows') :
    rows'.TokensAreIds := by
  cases hst with
  | @create _ _ _ _ _ _ id _ hok =>
    simp only [createInvitation, bind_eq_ok] at hok
    obtain ⟨_, -, email, -, _, -, _, -, hrows⟩ := hok
    cases hrows
    exact h.update rfl (by simp [id.2])
  | accept =>
    unfold acceptInvitation
    split
    · exact h
    · split <;> exact h
  | revoke =>
    unfold revokeInvitation
    split
    · exact h
    · split <;> exact h
  | delete => exact List.foldlRecOn _ _ h fun rows h id _ => h.deleteListed _ id

omit [DecidableEq Org] in
/-- The id in the row of a token is too short for a record, so nobody passes. -/
theorem TokensAreIds.checkInviteOnly_ne_ok (h : rows.TokensAreIds) {email token} :
    rows.checkInviteOnly codec sha256Hex email token ≠ .ok () := by
  intro hok
  simp only [checkInviteOnly, bind_eq_ok, okOr_eq_ok, mapError_eq_ok] at hok
  obtain ⟨t, -, bytes, hrow, invitation, hdec, -⟩ := hok
  have hlong := codec.length_of_fromSlice hdec
  have hshort := h _ _ hrow
  omega

/-- Registration admits exactly the invited if and only if nobody is invited. -/
theorem invite_only_admits_iff (hr : Reachable (· = empty) (Step codec sha256Hex unicode) rows) (now : Int)
    (email : String) (token : Option String) :
    (rows.checkInviteOnly codec sha256Hex email token = .ok () ↔ rows.Invited codec sha256Hex now email token) ↔
      ¬rows.Invited codec sha256Hex now email token := by
  have hids : rows.TokensAreIds := by
    refine Reachable.invariant ?_ (fun _ _ _ h => h.step) hr
    exact nofun
  have hrefused : rows.checkInviteOnly codec sha256Hex email token ≠ .ok () := hids.checkInviteOnly_ne_ok
  tauto

def demoInvitation : OrganizationInvitation Unit :=
  ⟨⟨.replicate 16 0x42, List.length_replicate⟩, (), "a@b.c", "t", .pending, 604800000000⟩

/-- The texts of one invitation: an opening brace, and the status. -/
def demoFromSlice : Bytes → Except String (OrganizationInvitation Unit)
  | 0x7b :: status :: rest =>
    if rest.length = 15 then
      .ok { demoInvitation with status := match status with
        | 0 => .pending
        | 1 => .accepted
        | 2 => .revoked
        | _ => .expired }
    else .error "EOF while parsing an object"
  | _ => .error "expected value at line 1 column 1"

theorem length_of_demoFromSlice {bytes x} (h : demoFromSlice bytes = .ok x) : 16 < bytes.length := by
  unfold demoFromSlice at h
  grind

def demoCodec : InvitationCodec Unit where
  toVec invitation := 0x7b :: .replicate 16 (match invitation.status with
    | .pending => 0
    | .accepted => 1
    | .revoked => 2
    | .expired => 3)
  fromSlice := demoFromSlice
  length_of_fromSlice := length_of_demoFromSlice

def demoUnicode : Unicode := ⟨id, id, id, fun _ => false⟩

def demoDirectory : Directory Unit := ⟨fun _ => some true, fun _ _ => false⟩

/-- The invitation has been created. -/
theorem demo_created : ∃ rows, createInvitation demoCodec id demoUnicode demoDirectory empty ()
      "a@b.c" "t" demoInvitation.id 0 = .ok rows ∧
    Reachable (· = empty) (Step demoCodec id demoUnicode) rows := by
  obtain ⟨rows, hrows⟩ : ∃ rows, createInvitation demoCodec id demoUnicode demoDirectory empty ()
    "a@b.c" "t" demoInvitation.id 0 = .ok rows := ⟨_, rfl⟩
  exact ⟨rows, hrows, .next (.start rfl) (.create hrows)⟩

/-- The invitation has been accepted: its token invites nobody any more, and admits nobody. -/
theorem invite_only_admits_iff_accepted : ∃ rows : InvitationRows Unit,
    rows.tokens "t" = some demoInvitation.id ∧
    rows.records demoInvitation.id = some (demoCodec.toVec { demoInvitation with status := .accepted }) ∧
    ¬rows.Invited demoCodec id 0 "a@b.c" (some "t") ∧
    ((rows.checkInviteOnly demoCodec id "a@b.c" (some "t") = .ok () ↔
      rows.Invited demoCodec id 0 "a@b.c" (some "t")) ↔
        ¬rows.Invited demoCodec id 0 "a@b.c" (some "t")) := by
  obtain ⟨rows, hrows, hreach⟩ := demo_created
  have haccept := hreach.next (.accept demoDirectory rows "t" 1 true)
  cases hrows
  refine ⟨_, rfl, rfl, ?_, invite_only_admits_iff haccept ..⟩
  rintro ⟨t, other, bytes, invitation, -, hrecord, hdec, -, hpending, -⟩
  by_cases hid : other = demoInvitation.id
  · subst hid
    cases hrecord
    cases hdec
    cases hpending
  · exact nomatch ((update_of_ne hid ..).trans (update_of_ne hid ..)).symm.trans hrecord

/-- The invited user registers, and the id in the row of the token is no record. -/
theorem invited_refused : ∃ rows, Reachable (· = empty) (Step demoCodec id demoUnicode) rows ∧
    rows.Invited demoCodec id 0 "a@b.c" (some "t") ∧
    rows.checkInviteOnly demoCodec id "a@b.c" (some "t") =
      .error (.serialization "expected value at line 1 column 1") := by
  obtain ⟨rows, hrows, hreach⟩ := demo_created
  refine ⟨rows, hreach, ?_⟩
  cases hrows
  exact ⟨⟨"t", demoInvitation.id, _, demoInvitation, rfl, rfl, rfl, rfl, rfl, by decide,
    by decide⟩, rfl⟩

end InvitationRows

end Hearth.Identity
