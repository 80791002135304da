import Hearth.Identity.UserUpdate

/-!
# Verified addresses

A verification link is stored under the user it was issued to, without the address it
was sent to. Whoever presents it verifies the address that the record carries then.

Results:
1. `verified_email_proved`: as long as links are presented only while the user still has
   the address they were sent to, a verified address was proved by a link sent there.
2. `moved_email_verified`: a link sent to the old address verifies the new one.
-/

namespace Hearth.Identity

open Base Function

structure CreateUserRequest where
  email : String
  displayName : String
  firstName : String
  lastName : String
  attributes : List (String × String)

structure StoredEmailVerification (U : Type) where
  userId : U
  createdAtMicros : Int
  used : Bool

structure StoredEmailChangeToken (U : Type) where
  userId : U
  newEmail : String
  oldEmail : String
  createdAtMicros : Int

/-- The rows of the users and of the links `K`, by the hash of the token. -/
structure EmailRows (U K : Type) extends UserRows U where
  defaultRequiredActions : List String
  reservedAtMicros : String → Option Int
  verifyTokens : K → Option (StoredEmailVerification U)
  changeTokens : K → Option (StoredEmailChangeToken U)
  consumedVerify : K → Bool
  consumedChange : K → Bool

def emailVerifyExpiryMicros : Int := 24 * 60 * 60 * 1000000

def emailChangeTokenExpiryMicros : Int := 24 * 60 * 60 * 1000000

def emailReservedMicros : Int := 90 * 24 * 60 * 60 * 1000000

namespace EmailRows

variable {U K : Type} [DecidableEq U] [DecidableEq K] (unicode : Unicode) (rows : EmailRows U K)

/-- The address is in no index row and under no reservation. -/
def checkFree (email : String) (now : Int) : Except UserError Unit := do
  failIf (rows.emails email).isSome .duplicateEmail
  failIf ((rows.reservedAtMicros email).any fun at' => now - at' < emailReservedMicros)
    .emailReserved

/-- The names of a request, which `create_user` and `register_user` check alike. -/
def validateNames (request : CreateUserRequest) : Except UserError CreateUserRequest := do
  let email ← validateEmail unicode request.email
  let firstName ← validateNamePart unicode request.firstName "First name"
  let lastName ← validateNamePart unicode request.lastName "Last name"
  let blank := unicode.trim request.displayName = ""
  let synthesized := unicode.trim (firstName ++ " " ++ lastName)
  failIf (blank && synthesized = "") (.invalidInput "Display name or first/last name is required")
  let displayName ← validateDisplayName unicode (if blank then synthesized else request.displayName)
  return { request with email, displayName, firstName, lastName }

variable (id : U) (request : CreateUserRequest)

/-- The record of an address that nobody has vouched for. -/
def createUserRecord (status : UserStatus) (now : Int) : Except UserError (EmailRows U K) := do
  let user ← validateNames unicode request
  rows.checkFree user.email now
  validateAttributes user.attributes rows.attributeDefinitions
  return { rows with
    emails := update rows.emails user.email (some id)
    users := update rows.users id (some ⟨user.email, false, user.displayName, user.firstName, user.lastName,
      status, user.attributes, rows.defaultRequiredActions, false⟩)
    audit := rows.audit ++ ["UserCreated"] }

def createUser (status : UserStatus) (now : Int) : Except UserError (EmailRows U K) := do
  requireActiveRealm rows.realm
  rows.createUserRecord unicode id request status now

variable (token : K)

variable (now : Int)

def issueEmailVerificationToken : Except UserError (EmailRows U K) := do
  failIf (rows.users id).isNone .userNotFound
  return { rows with verifyTokens := update rows.verifyTokens token (some ⟨id, now, false⟩) }

/-- The rows of a user, as the last write of `delete_user` leaves them. -/
def dropUser (email : String) (now : Int) : EmailRows U K :=
  { rows with
    users := update rows.users id none
    emails := update rows.emails email none
    reservedAtMicros := update rows.reservedAtMicros email (some now)
    raGeneration := update rows.raGeneration id 0
    audit := rows.audit ++ ["UserDeleted"] }

/-- `register_user`, past the policy and the checks of the password. A taken address is answered
like a free one, with a link that leads nowhere; `refused` is what `set_password` says. -/
def registerUser (refused : Option UserError) (now : Int) :
    Except UserError (Option K) × EmailRows U K :=
  match requireActiveRealm rows.realm >>= fun _ => validateNames unicode request with
  | .error e => (.error e, rows)
  | .ok user =>
    if (rows.emails user.email).isSome then (.ok none, rows) else
    match rows.createUserRecord unicode id { user with attributes := [] } .pendingVerification now,
      refused with
    | .error e, _ => (.error e, rows)
    | .ok created, some e => (.error e, created.dropUser id user.email now)
    | .ok created, none => (.ok (some token), { created with
        verifyTokens := update created.verifyTokens token (some ⟨id, now, false⟩)
        audit := created.audit ++ ["UserCreated"] })

def verifyEmailTokenFrom : Except UserError U × EmailRows U K :=
  let dropped := { rows with verifyTokens := update rows.verifyTokens token none }
  match rows.verifyTokens token with
  | none => (.error .verificationTokenInvalid, rows)
  | some stored =>
    if stored.used then (.error .verificationTokenInvalid, rows) else
    if now - stored.createdAtMicros > emailVerifyExpiryMicros then
      (.error .verificationTokenInvalid, dropped) else
    if rows.consumedVerify token then (.error .verificationTokenInvalid, rows) else
    let claimed := update rows.consumedVerify token true
    match rows.users stored.userId with
    | none => (.error .verificationTokenInvalid, { rows with consumedVerify := claimed })
    | some user =>
      let status := if user.status = .pendingVerification then .active else user.status
      (.ok stored.userId, { dropped with
        consumedVerify := claimed
        users := update rows.users stored.userId
          (some { user with status, emailVerified := true }) })

def initiateEmailChange (newEmail : String) (token : K) (now : Int) :
    Except UserError (EmailRows U K) := do
  let normalized ← validateEmail unicode newEmail
  let user ← okOr (rows.users id) .userNotFound
  failIf (normalized = user.email) (.invalidInput "new email is the same as the current email")
  rows.checkFree normalized now
  return { rows with
    changeTokens := update rows.changeTokens token (some ⟨id, normalized, user.email, now⟩)
    audit := rows.audit ++ ["EmailChangeInitiated"] }

def confirmEmailChange : Except UserError User × EmailRows U K :=
  let dropped := { rows with changeTokens := update rows.changeTokens token none }
  match rows.changeTokens token with
  | none => (.error .emailChangeTokenInvalid, rows)
  | some stored =>
    if now - stored.createdAtMicros > emailChangeTokenExpiryMicros then
      (.error .emailChangeTokenInvalid, dropped) else
    if (rows.emails stored.newEmail).isSome then (.error .duplicateEmail, rows) else
    match rows.users stored.userId with
    | none => (.error .emailChangeTokenInvalid, rows)
    | some user =>
      if user.email ≠ stored.oldEmail then (.error .emailChangeTokenInvalid, dropped) else
      if rows.consumedChange token then (.error .emailChangeTokenInvalid, rows) else
      let user := { user with email := stored.newEmail, emailVerified := true }
      let moved := { rows.toUserRows with
        emails := update (update rows.emails stored.oldEmail none) stored.newEmail
          (some stored.userId)
        users := update rows.users stored.userId (some user)
        audit := rows.audit ++ ["EmailChangeConfirmed"] }
      (.ok user, { dropped with
        toUserRows := moved.revokeAllUserSessions stored.userId now
        consumedChange := update rows.consumedChange token true })

end EmailRows

/-! ## Runs -/

inductive EmailEvent (U K : Type)
  | create (id : U) (request : CreateUserRequest) (status : UserStatus) (now : Int)
  | register (id : U) (request : CreateUserRequest) (token : K) (refused : Option UserError)
      (now : Int)
  | issue (id : U) (token : K) (now : Int)
  | verify (token : K) (now : Int)
  | update (id : U) (request : UpdateUserRequest) (now : Int)
  | initiate (id : U) (newEmail : String) (token : K) (now : Int)
  | confirm (token : K) (now : Int)

/-- The rows, where each verification link was sent, and the users and addresses for which a
link that was sent there has been presented. A link to confirm a change is sent to the new
address. -/
structure EmailSys (U K : Type) where
  rows : EmailRows U K
  sentTo : K → String
  presented : List (U × String)

def Verified {U : Type} (users : U → Option User) (id : U) (email : String) : Prop :=
  ∃ user, users id = some user ∧ user.email = email ∧ user.emailVerified = true

section

variable {U K : Type} [DecidableEq U] {users : U → Option User} {id x : U} {email : String}
    {o : Option User}
  {unicode : Unicode} {now : Int}

theorem Verified.of_update (h : Verified (update users id o) x email) :
    Verified users x email ∨
    x = id ∧ ∃ user ∈ o, user.email = email ∧ user.emailVerified = true := by
  obtain ⟨user, huser, hrest⟩ := h
  rcases update_cases huser with ⟨hx, rfl⟩ | huser
  · exact .inr ⟨hx, user, rfl, hrest⟩
  · exact .inl ⟨user, huser, hrest⟩

/-- An update leaves the address and its flag, or takes the flag away. -/
theorem Verified.of_updateUser {rows request}
    (h : Verified (updateUser unicode rows id request now).2.users x email) :
    Verified rows.users x email := by
  unfold updateUser at h
  split at h
  · exact h
  · exact h
  · next user _ huser =>
    split at h
    · exact h
    · next user1 rows1 changed hchg =>
      have hsame : rows1.users = rows.users ∧
          (user1.emailVerified = true → user1.email = user.email ∧ user.emailVerified = true) := by
        rcases changeEmail_eq_ok _ hchg with heq | ⟨_, _, -, -, -, -, heq⟩
        · cases heq
          exact ⟨rfl, fun hv => ⟨rfl, hv⟩⟩
        · cases heq
          exact ⟨rfl, nofun⟩
      rw [← hsame.1]
      split at h
      · exact h
      · next user2 hflds =>
        have hput : Verified (update rows1.users id (some user2)) x email := by
          split at h <;> split at h <;> exact h
        refine hput.of_update.elim (fun h => h) ?_
        rintro ⟨rfl, _, ⟨⟩, rfl, hv⟩
        simp only [applyFields, bind_eq_ok] at hflds
        obtain ⟨_, -, _, -, _, -, _, -, hflds⟩ := hflds
        cases hflds
        exact ⟨user, hsame.1 ▸ huser, (hsame.2 hv).1.symm, (hsame.2 hv).2⟩

theorem Verified.of_createUserRecord {rows created : EmailRows U K} {request} {status : UserStatus}
    (hok : rows.createUserRecord unicode id request status now = .ok created) (h : Verified created.users x email) :
    Verified rows.users x email := by
  simp only [EmailRows.createUserRecord, bind_eq_ok] at hok
  obtain ⟨user, -, _, -, _, -, hok⟩ := hok
  cases hok
  refine h.of_update.resolve_right ?_
  rintro ⟨-, _, ⟨⟩, -, hv⟩
  cases hv

variable [DecidableEq K] {rows : EmailRows U K} {token : K}

theorem Verified.of_registerUser {request refused}
    (h : Verified (rows.registerUser unicode id request token refused now).2.users x email) :
    Verified rows.users x email := by
  unfold EmailRows.registerUser at h
  repeat' split at h
  case h_2 hok =>
    refine .of_createUserRecord hok (h.of_update.resolve_right ?_)
    rintro ⟨-, _, ⟨⟩, -⟩
  case h_3 hok => exact .of_createUserRecord hok h
  all_goals exact h

/-- Only the presentation of a link sets the flag. -/
theorem Verified.of_verifyEmailTokenFrom
    (h : Verified (rows.verifyEmailTokenFrom token now).2.users x email) :
    Verified rows.users x email ∨ ∃ stored user, rows.verifyTokens token = some stored ∧
      (rows.verifyEmailTokenFrom token now).1 = .ok stored.userId ∧
      rows.users stored.userId = some user ∧
      x = stored.userId ∧ email = user.email := by
  unfold EmailRows.verifyEmailTokenFrom at h ⊢
  repeat' split at h
  all_goals first
    | exact .inl h
    | rename_i user huser _
      refine h.of_update.imp_right ?_
      rintro ⟨rfl, _, ⟨⟩, rfl, -⟩
      simp [*]

theorem Verified.of_confirmEmailChange
    (h : Verified (rows.confirmEmailChange token now).2.users x email) :
    Verified rows.users x email ∨
    ∃ stored, rows.changeTokens token = some stored ∧ x = stored.userId ∧
      email = stored.newEmail := by
  unfold EmailRows.confirmEmailChange at h
  repeat' split at h
  all_goals first
    | exact .inl h
    | refine h.of_update.imp_right ?_
      rintro ⟨rfl, _, ⟨⟩, rfl, -⟩
      exact ⟨_, ‹_›, rfl, rfl⟩

end

namespace EmailSys

variable {U K : Type} {unicode : Unicode} {s : EmailSys U K}

def Proved (s : EmailSys U K) : Prop :=
    ∀ id email, Verified s.rows.users id email → (id, email) ∈ s.presented

/-- A call that fails before its first write leaves the rows. -/
def keep (s : EmailSys U K) : Except UserError (EmailRows U K) → EmailSys U K
  | .ok rows => { s with rows }
  | .error _ => s

theorem Proved.keep (h : s.Proved) {r}
    (hr : ∀ rows, r = .ok rows → ∀ id email, Verified rows.users id email →
      Verified s.rows.users id email) :
    (s.keep r).Proved := by
  cases r with
  | error e => exact h
  | ok rows => exact fun id email hv => h id _ (hr rows rfl id _ hv)

variable [DecidableEq U] [DecidableEq K]

/-- A link goes to the address that the record of its user carries. -/
def deliver (s : EmailSys U K) (id : U) (token : K) : EmailSys U K :=
  { s with sentTo := (s.rows.users id).elim s.sentTo fun user => update s.sentTo token user.email }

def next (unicode : Unicode) (s : EmailSys U K) : EmailEvent U K → EmailSys U K
  | .create id request status now => s.keep (s.rows.createUser unicode id request status now)
  | .register id request token refused now =>
    let r := s.rows.registerUser unicode id request token refused now
    match r.1 with
    | .ok (some token) => deliver { s with rows := r.2 } id token
    | _ => { s with rows := r.2 }
  | .issue id token now =>
      (s.keep (s.rows.issueEmailVerificationToken id token now)).deliver id token
  | .verify token now =>
    { s with
      rows := (s.rows.verifyEmailTokenFrom token now).2
      presented := ((s.rows.verifyTokens token).map fun t => (t.userId, s.sentTo token)).toList ++
        s.presented }
  | .update id request now =>
    { s with rows := { s.rows with toUserRows :=
      (updateUser unicode s.rows.toUserRows id request now).2 } }
  | .initiate id newEmail token now =>
      s.keep (s.rows.initiateEmailChange unicode id newEmail token now)
  | .confirm token now =>
    { s with
      rows := (s.rows.confirmEmailChange token now).2
      presented := ((s.rows.changeTokens token).map fun t => (t.userId, t.newEmail)).toList ++
        s.presented }

def Step (unicode : Unicode) (ev : EmailEvent U K) (s s' : EmailSys U K) : Prop :=
    s' = s.next unicode ev

/-- No address has been verified yet. -/
def Start (s : EmailSys U K) : Prop :=
    ∀ id user, s.rows.users id = some user → user.emailVerified = false

/-- A link that is accepted was sent to the address that its user has. -/
def Current : EmailEvent U K → EmailSys U K → Prop
  | .verify token now, s => ∀ id user, (s.rows.verifyEmailTokenFrom token now).1 = .ok id →
      s.rows.users id = some user → user.email = s.sentTo token
  | _, _ => True

theorem Proved.step (h : s.Proved) {ev : EmailEvent U K} (hcur : Current ev s) :
    (s.next unicode ev).Proved := by
  cases ev with
  | create id request status now =>
    refine h.keep fun rows hr id email hv => ?_
    obtain ⟨_, -, hr⟩ := bind_eq_ok.1 hr
    exact .of_createUserRecord hr hv
  | register id request token refused now =>
    unfold next
    dsimp only
    split <;> exact fun x email hv => h x _ (.of_registerUser hv)
  | issue id token now =>
    have hkeep : (s.keep (s.rows.issueEmailVerificationToken id token now)).Proved :=
      h.keep fun rows hr _ _ hv => by
      obtain ⟨_, -, hr⟩ := bind_eq_ok.1 hr
      cases hr
      exact hv
    exact hkeep
  | verify token now =>
    intro x email hv
    rcases hv.of_verifyEmailTokenFrom with hv | ⟨stored, user, htoken, hok, huser, rfl, rfl⟩
    · exact List.mem_append_right _ (h x _ hv)
    · simp [next, htoken, hcur _ user hok huser]
  | update id request now => exact fun x email hv => h x _ (.of_updateUser hv)
  | initiate id newEmail token now =>
    refine h.keep fun rows hr _ _ hv => ?_
    simp only [EmailRows.initiateEmailChange, bind_eq_ok] at hr
    obtain ⟨_, -, user, -, _, -, _, -, hr⟩ := hr
    cases hr
    exact hv
  | confirm token now =>
    intro x email hv
    rcases hv.of_confirmEmailChange with hv | ⟨stored, htoken, rfl, rfl⟩
    · exact List.mem_append_right _ (h x _ hv)
    · simp [next, htoken]

end EmailSys

theorem verified_email_proved {U K : Type} [DecidableEq U] [DecidableEq K] {unicode : Unicode}
    {s : EmailSys U K}
    (h : Reachable EmailSys.Start (LabelledWith (EmailSys.Step unicode) EmailSys.Current) s)
    {id : U} {user : User}
    (huser : s.rows.users id = some user) (hverified : user.emailVerified = true) :
    (id, user.email) ∈ s.presented := by
  refine h.invariant (I := EmailSys.Proved) ?_ ?_ id _ ⟨user, huser, rfl, hverified⟩
  · rintro s hstart id _ ⟨user, huser, rfl, hverified⟩
    cases (hstart id user huser).symm.trans hverified
  · rintro s _ - hproved ⟨ev, hcur, rfl⟩
    exact hproved.step hcur

/-- The one user, whose address is not verified yet. -/
def EmailSys.unverified : EmailSys Nat Nat where
  rows :=
    { oneUser with
      users := fun id => (oneUser.users id).map fun user => { user with emailVerified := false }
      defaultRequiredActions := []
      reservedAtMicros := fun _ => none
      verifyTokens := fun _ => none
      changeTokens := fun _ => none
      consumedVerify := fun _ => false
      consumedChange := fun _ => false }
  sentTo _ := ""
  presented := []

theorem EmailSys.unverified_start : unverified.Start := by
  intro id user huser
  obtain ⟨user, -, rfl⟩ := Option.map_eq_some_iff.1 huser
  rfl

theorem verified_email_proved_link :
    ∃ s : EmailSys Nat Nat, (s.rows.users 7).map (·.emailVerified) = some true ∧
    (7, "a@x.org") ∈ s.presented := by
  have hstart : Reachable EmailSys.Start (LabelledWith (EmailSys.Step plainText) EmailSys.Current)
    .unverified := .start EmailSys.unverified_start
  have hrun := (hstart.next ⟨.issue 7 1 0, trivial, rfl⟩).next
    ⟨.verify 1 0, by rintro _ _ ⟨⟩ ⟨⟩; rfl, rfl⟩
  exact ⟨_, rfl, @verified_email_proved _ _ _ _ _ _ hrun 7 _ rfl rfl⟩

/-- The link goes to the old address; the user is moved, and the link verifies the new address, to
which nothing was ever sent. -/
theorem moved_email_verified : ∃ (s : EmailSys Nat Nat) (user : User),
      Reachable EmailSys.Start (LabelledWith (EmailSys.Step plainText) fun _ _ => True) s ∧
      s.rows.users 7 = some user ∧ user.emailVerified = true ∧ user.email = "b@x.org" ∧
      s.presented = [(7, "a@x.org")] := by
  have hstart : Reachable EmailSys.Start (LabelledWith (EmailSys.Step plainText) fun _ _ => True)
    .unverified := .start EmailSys.unverified_start
  have hrun := ((hstart.next ⟨.issue 7 1 0, trivial, rfl⟩).next
    ⟨.update 7 { email := some "b@x.org" } 0, trivial, rfl⟩).next ⟨.verify 1 0, trivial, rfl⟩
  exact ⟨_, ⟨"b@x.org", true, "A", "", "", .active, [], [], false⟩, hrun, rfl, rfl, rfl, rfl⟩

end Hearth.Identity
