import Mathlib
import Hearth.Base.Fallible
import Hearth.Identity.SessionRow
import Hearth.Types

/-!
# Updating a user

`update_user` checks a request field by field and writes the email index before it has
looked at the fields that follow the address.

Results:
1. `refused_update_unchanged_iff`: a refused update leaves every row in place exactly when
   the request does not move the user to a free address and fail in a later field.
2. `refused_update_moves_index`: the update that does.
-/

namespace Hearth.Identity

open Base Function

inductive UserStatus
  | active
  | disabled
  | pendingVerification
  deriving DecidableEq

inductive UserError
  | realmNotFound
  | realmSuspended
  | userNotFound
  | duplicateEmail
  | invalidInput (reason : String)
  | invalidAttribute (reason : String)
  | emailReserved
  | verificationTokenInvalid
  | emailChangeTokenInvalid
  deriving DecidableEq

/-! ## Checks of the fields -/

/-- What the checks take from the standard library and from a crate. -/
structure Unicode where
  trim : String → String
  nfc : String → String
  toLowercase : String → String
  isControl : Char → Bool

/-- The first check that fails gives the error. -/
def refuse (error : String → UserError) (checks : List (Bool × String)) : Except UserError Unit :=
  match checks.find? (·.1) with
  | some check => .error (error check.2)
  | none => .ok ()

variable (unicode : Unicode)

def validateEmail (email : String) : Except UserError String := do
  let normalized := unicode.toLowercase (unicode.nfc (unicode.trim email))
  let chars := normalized.toList
  let localPart := chars.takeWhile (· ≠ '@')
  let domain := chars.drop (localPart.length + 1)
  refuse .invalidInput [
    (normalized = "", "email must not be empty"),
    (chars.any fun c => c = '\x00' || unicode.isControl c && c ≠ '\t',
      "email must not contain null bytes or control characters"),
    (':' ∈ chars, "email must not contain ':'"),
    (normalized.utf8ByteSize > 254, "email exceeds maximum length of 254 characters"),
    ('@' ∉ chars, "email must contain '@'"),
    (localPart = [], "email local part must not be empty"),
    (domain = [], "email domain must not be empty"),
    ('.' ∉ domain, "email domain must contain '.'"),
    (chars.count '@' > 1, "email must contain exactly one '@'")]
  return normalized

/-- The two checks that display names and name parts share. -/
def nameChecks (field normalized : String) : List (Bool × String) := [
  ('\x00' ∈ normalized.toList, field ++ " must not contain null bytes"),
  (normalized.utf8ByteSize > 256, field ++ " exceeds maximum length of 256 characters")]

def validateDisplayName (name : String) : Except UserError String := do
  let normalized := unicode.nfc (unicode.trim name)
  refuse .invalidInput ((normalized = "", "display name must not be empty") ::
    nameChecks "display name" normalized)
  return normalized

def validateNamePart (name field : String) : Except UserError String := do
  let normalized := unicode.nfc (unicode.trim name)
  refuse .invalidInput (nameChecks field normalized)
  return normalized

structure AttributeDefinition where
  key : String
  isEnum : Bool
  required : Bool
  enumValues : List String
  deriving DecidableEq

def attributeChecks (definitions : Option (List AttributeDefinition)) (key value : String) :
    List (Bool × String) :=
  ([(key = "", "attribute key must not be empty"),
  (key.utf8ByteSize > 64, s!"attribute key '{key}' exceeds maximum length of 64 bytes"),
  (!key.toList.all fun c => c.isAlphanum || c = '.' || c = '_' || c = '-',
    s!"attribute key '{key}' contains invalid characters (only ASCII alphanumeric, '.', '_', '-' are allowed)"),
  (value.utf8ByteSize > 1024,
    s!"attribute value for key '{key}' exceeds maximum length of 1024 bytes")] :
    List (Bool × String)) ++
  match definitions.map (·.find? (·.key = key)) with
  | none => []
  | some none => [(true, s!"attribute key '{key}' is not defined for this realm")]
  | some (some d) => [(d.isEnum && d.enumValues ≠ [] && value ∉ d.enumValues,
      s!"attribute '{key}' value '{value}' is not in the allowed enum values")]

/-- The map is the list of its entries in the order of the keys. -/
def validateAttributes (attrs : List (String × String))
    (definitions : Option (List AttributeDefinition)) :
    Except UserError Unit :=
  let totalBytes := (attrs.map fun e => e.1.utf8ByteSize + e.2.utf8ByteSize).sum
  refuse .invalidAttribute <| ([
    (attrs.length > 50, "attribute map exceeds maximum of 50 entries"),
    (totalBytes > 16384,
      s!"attribute map total size {totalBytes} bytes exceeds maximum of 16384 bytes")] :
        List (Bool × String)) ++
    attrs.flatMap (fun e => attributeChecks definitions e.1 e.2) ++
    ((definitions.getD []).filter (·.required)).map fun d =>
      (attrs.all (·.1 ≠ d.key), s!"required attribute '{d.key}' is missing")

/-! ## `update_user` -/

structure User where
  email : String
  emailVerified : Bool
  displayName : String
  firstName : String
  lastName : String
  status : UserStatus
  attributes : List (String × String)
  requiredActions : List String
  emailOtpEnabled : Bool
  deriving DecidableEq

structure UpdateUserRequest where
  email : Option String := none
  displayName : Option String := none
  firstName : Option String := none
  lastName : Option String := none
  status : Option UserStatus := none
  attributes : Option (List (String × String)) := none
  requiredActions : Option (List String) := none
  emailOtpEnabled : Option Bool := none

/-- The rows of a realm that an update reads or writes. -/
structure UserRows (U : Type) where
  realm : Option RealmStatus
  attributeDefinitions : Option (List AttributeDefinition)
  users : U → Option User
  emails : String → Option U
  sessions : U → List Session
  raGeneration : U → UInt64
  audit : List String

def requireActiveRealm : Option RealmStatus → Except UserError Unit
  | none => .error .realmNotFound
  | some .active => .ok ()
  | some _ => .error .realmSuspended

theorem active_of_required {realm r} (h : requireActiveRealm realm = .ok r) :
    realm = some .active := by
  unfold requireActiveRealm at h
  split at h
  · cases h
  · rfl
  · cases h

variable {U : Type}

/-- Step 2: the address, with the rows of the index. -/
def changeEmail (rows : UserRows U) (id : U) (user : User) :
    Option String → Except UserError (User × UserRows U × Bool)
  | none => return (user, rows, false)
  | some newEmail => do
    let normalized ← validateEmail unicode newEmail
    if normalized = user.email then return (user, rows, false)
    failIf (rows.emails normalized).isSome .duplicateEmail
    return ({ user with email := normalized, emailVerified := false },
      { rows with emails := update (update rows.emails user.email none) normalized (some id) },
      true)

/-- The step leaves the rows in place, or it moves the user to a free address. -/
theorem changeEmail_eq_ok {rows} {id : U} {user newEmail r}
    (h : changeEmail unicode rows id user newEmail = .ok r) :
    r = (user, rows, false) ∨ ∃ email normalized, newEmail = some email ∧
      validateEmail unicode email = .ok normalized ∧ normalized ≠ user.email ∧
      rows.emails normalized = none ∧
      r = ({ user with email := normalized, emailVerified := false },
        { rows with emails := update (update rows.emails user.email none) normalized (some id) },
        true) := by
  cases newEmail with
  | none => exact .inl (Except.ok.inj h).symm
  | some email =>
    obtain ⟨normalized, hvalid, h⟩ := bind_eq_ok.1 h
    split at h
    · exact .inl (Except.ok.inj h).symm
    · next hne =>
      obtain ⟨_, hfree, h⟩ := bind_eq_ok.1 h
      exact .inr ⟨email, normalized, rfl, hvalid, hne, by simpa using hfree, (Except.ok.inj h).symm⟩

/-- Steps 3 and 4: the fields that follow the address. -/
def applyFields (definitions : Option (List AttributeDefinition)) (user : User)
    (request : UpdateUserRequest) :
    Except UserError User := do
  let displayName ← request.displayName.elim (return user.displayName) (validateDisplayName unicode)
  let firstName ← request.firstName.elim (return user.firstName)
    (validateNamePart unicode · "First name")
  let lastName ← request.lastName.elim (return user.lastName)
    (validateNamePart unicode · "Last name")
  request.attributes.elim (return ()) (validateAttributes · definitions)
  return { user with
    displayName, firstName, lastName
    status := request.status.getD user.status
    attributes := request.attributes.getD user.attributes
    requiredActions := request.requiredActions.getD user.requiredActions
    emailOtpEnabled := request.emailOtpEnabled.getD user.emailOtpEnabled }

variable [DecidableEq U] (rows : UserRows U)

/-- `revoke_all_user_sessions`, where no write fails. The required actions' generation goes up once
for the call and once for each `revoke_session` in it, which also has an audit event of its own. -/
def UserRows.revokeAllUserSessions (id : U) (now : Int) : UserRows U :=
  let sessions := rows.sessions id
  let revoked := sessions.countP (·.isValid now)
  { rows with
    raGeneration := update rows.raGeneration id (rows.raGeneration id + 1 + .ofNat revoked)
    sessions := update rows.sessions id
      (sessions.map fun s => if s.isValid now then s.revoke else s)
    audit := rows.audit ++ .replicate revoked "SessionRevoked" ++
      if revoked > 0 then ["SessionsRevoked"] else [] }

/-- `update_user_impl`, with the rows it leaves. -/
def updateUser (id : U) (request : UpdateUserRequest) (now : Int) :
    Except UserError User × UserRows U :=
  match requireActiveRealm rows.realm, rows.users id with
  | .error e, _ => (.error e, rows)
  | .ok _, none => (.error .userNotFound, rows)
  | .ok _, some user =>
    match changeEmail unicode rows id user request.email with
    | .error e => (.error e, rows)
    | .ok (user, rows, emailChanged) =>
      match applyFields unicode rows.attributeDefinitions user request with
      | .error e => (.error e, rows)
      | .ok user =>
        let rows := { rows with users := update rows.users id (some user), audit :=
          rows.audit ++ ["UserUpdated"] }
        let rows := if emailChanged then rows.revokeAllUserSessions id now else rows
        (.ok user, if request.status = some .disabled
          then rows.revokeAllUserSessions id now else rows)

/-! ## Refused updates -/

/-- The email index matches the records. -/
def UserRows.Indexed : Prop :=
  ∀ email id, rows.emails email = some id ↔ ∃ user, rows.users id = some user ∧ user.email = email

/-- The request moves the user to an address that is free, and a later field of it is refused. -/
def RefusedLate (id : U) (request : UpdateUserRequest) : Prop :=
  rows.realm = some .active ∧ ∃ user newEmail normalized e, rows.users id = some user ∧
    request.email = some newEmail ∧
    validateEmail unicode newEmail = .ok normalized ∧ normalized ≠ user.email ∧
      rows.emails normalized = none ∧
    applyFields unicode rows.attributeDefinitions
      { user with email := normalized, emailVerified := false }
      request = .error e

variable {unicode} {rows : UserRows U} {id : U} {request : UpdateUserRequest} {now : Int}

theorem refused_update_unchanged_iff (hrows : rows.Indexed) :
    (∀ e rows', updateUser unicode rows id request now = (.error e, rows') → rows' = rows) ↔
      ¬RefusedLate unicode rows id request := by
  constructor
  · rintro hkeep ⟨hact, user, newEmail, normalized, e, huser, hemail, hvalid, hne, hfree, hlate⟩
    have hrun : updateUser unicode rows id request now = (.error e, { rows with
        emails := update (update rows.emails user.email none) normalized (some id) }) := by
      simp [updateUser, requireActiveRealm, changeEmail, hact, huser, hemail, hvalid, hne, hfree,
        hlate, failIf, Except.bind,
        bind, pure, Except.pure]
    -- the row of the old address is gone
    have hold := congrArg (fun r : UserRows U => r.emails user.email) (hkeep _ _ hrun)
    simp only [update_of_ne (symm hne), update_self] at hold
    cases hold.trans ((hrows user.email id).2 ⟨user, huser, rfl⟩)
  · intro hlate e rows' h
    unfold updateUser at h
    split at h
    · exact (Prod.mk.inj h).2.symm
    · exact (Prod.mk.inj h).2.symm
    · next user hact huser =>
      split at h
      · exact (Prod.mk.inj h).2.symm
      · next hchg =>
        split at h
        · next hflds =>
          rcases changeEmail_eq_ok _ hchg with heq | ⟨email, normalized, hemail, hvalid, hne, hfree, heq⟩
          · cases heq
            exact (Prod.mk.inj h).2.symm
          · cases heq
            exact absurd ⟨active_of_required hact, user, email, normalized, _, huser, hemail, hvalid, hne, hfree,
              hflds⟩ hlate
        · cases h

/-- One user, at one address. -/
def oneUser : UserRows Nat where
  realm := some .active
  attributeDefinitions := none
  users id := if id = 7 then some ⟨"a@x.org", true, "A", "", "", .active, [], [], false⟩ else none
  emails email := if email = "a@x.org" then some 7 else none
  sessions _ := []
  raGeneration _ := 0
  audit := []

theorem oneUser_indexed : oneUser.Indexed := by
  intro email id
  by_cases hid : id = 7 <;> simp [oneUser, hid, eq_comm]

/-- Lower-case ASCII text that needs no trimming. -/
def plainText : Unicode := ⟨fun s => s, fun s => s, fun s => s, fun _ => false⟩

theorem refused_update_unchanged_iff_name :
    (∀ e rows', updateUser plainText oneUser 7 { displayName := some "" } 0 = (.error e, rows') →
      rows' = oneUser) ∧
      ¬RefusedLate plainText oneUser 7 { displayName := some "" } := by
  have hname : ¬RefusedLate plainText oneUser 7 { displayName := some "" } := by
    rintro ⟨-, _, _, _, _, -, hemail, -⟩
    cases hemail
  exact ⟨(refused_update_unchanged_iff oneUser_indexed).2 hname, hname⟩

/-- The address is free and the display name empty: the update is refused, and the old address
no longer leads to the user. -/
theorem refused_update_moves_index : oneUser.Indexed ∧
      (updateUser plainText oneUser 7 { email := some "b@x.org", displayName := some "" } 0).1 =
        .error (.invalidInput "display name must not be empty") ∧
      (updateUser plainText oneUser 7
        { email := some "b@x.org", displayName := some "" } 0).2.emails "a@x.org" = none ∧
      oneUser.emails "a@x.org" = some 7 :=
  ⟨oneUser_indexed, rfl, rfl, rfl⟩

end Hearth.Identity
