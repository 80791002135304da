import Hearth.Base.Bytes
import Hearth.Base.Fallible
import Hearth.Base.OneShot
import Hearth.Base.Run

/-!
# DPoP proofs and their replay markers

`validate_dpop_proof` judges the age of a proof from the client's `iat`: up to
`DPOP_MAX_AGE_SECS` and the clock skew after it, and up to the skew before it.
`check_and_record_dpop_jti` then puts a marker for the proof's `jti`, dated
`DPOP_MAX_AGE_SECS` from the server's time, and a sweep deletes it after that.

`dpop_accepted_once` says which proofs are accepted once. `dpop_accepted_twice`: one with
the server's own time as `iat` is accepted again two minutes later.

Base64, JSON, SHA-256 and the signature checks are parameters.
-/

namespace Hearth.Identity

open Base Function

def dpopMaxClockSkewSecs : Int := 60

def dpopMaxAgeSecs : Int := 120

structure DPopJwk where
  kty : String
  crv : Option String
  x : Option String
  y : Option String

structure DPopHeader where
  typ : String
  alg : String
  jwk : DPopJwk
  privateKeyD : Option String

structure DPopClaims where
  jti : String
  htm : String
  htu : String
  iat : Int
  nonce : Option String
  ath : Option String

structure ValidatedDPopProof where
  jkt : String
  jti : String
  nonce : Option String

inductive DPopError
  | invalidDPopProof (reason : String)
  | dPopNonceInvalid
  | dPopProofReplay
  | realmNotFound

structure DPopPrimitives where
  decodeBase64Url : String → Option Bytes
  encodeBase64Url : Bytes → String
  parseHeader : Bytes → Except String DPopHeader
  parseClaims : Bytes → Except String DPopClaims
  sha256 : Bytes → Bytes
  /-- Key, message, signature. -/
  verifyEcdsaP256 : Bytes → Bytes → Bytes → Bool
  verifyEd25519 : Bytes → Bytes → Bytes → Bool

/-! ## Validation -/

/-- `str::splitn`: the last part keeps the remaining separators. -/
def splitn (sep : Char) : Nat → List Char → List (List Char)
  | 0, _ => []
  | 1, s => [s]
  | n + 2, s =>
    match s.span (· ≠ sep) with
    | (part, []) => [part]
    | (part, _ :: rest) => part :: splitn sep (n + 1) rest

def eqIgnoreAsciiCase (a b : String) : Bool := a.toList.map Char.toLower == b.toList.map Char.toLower

/-- Cuts the fragment, then the query. -/
def normalizeHtu (htu : String) : Except DPopError String :=
  .ok (.ofList ((htu.toList.takeWhile (· ≠ '#')).takeWhile (· ≠ '?')))

def stringBytes (s : String) : Bytes := s.toUTF8.toList

section

variable (p : DPopPrimitives)

def computeJwkThumbprint (jwk : DPopJwk) : Except DPopError String := do
  let canonical ←
    if jwk.kty = "EC" then do
      let crv ← okOr jwk.crv (.invalidDPopProof "EC JWK missing crv")
      let x ← okOr jwk.x (.invalidDPopProof "EC JWK missing x")
      let y ← okOr jwk.y (.invalidDPopProof "EC JWK missing y")
      pure ("\x7b\"crv\":\"" ++ crv ++ "\",\"kty\":\"EC\",\"x\":\"" ++ x ++ "\",\"y\":\"" ++ y ++ "\"\x7d")
    else if jwk.kty = "OKP" then do
      let crv ← okOr jwk.crv (.invalidDPopProof "OKP JWK missing crv")
      let x ← okOr jwk.x (.invalidDPopProof "OKP JWK missing x")
      pure ("\x7b\"crv\":\"" ++ crv ++ "\",\"kty\":\"OKP\",\"x\":\"" ++ x ++ "\"\x7d")
    else .error (.invalidDPopProof s!"unsupported key type: {jwk.kty}")
  pure (p.encodeBase64Url (p.sha256 (stringBytes canonical)))

/-- `alg` and the key's `kty` and `crv` name one key family. -/
def checkAlgMatchesJwk (alg : String) (jwk : DPopJwk) : Except DPopError Unit := do
  let (wantKty, wantCrv) ←
    if alg = "ES256" then pure ("EC", "P-256")
    else if alg = "EdDSA" then pure ("OKP", "Ed25519")
    else .error (.invalidDPopProof s!"unsupported DPoP algorithm: {alg}")
  failIf (jwk.kty != wantKty) (.invalidDPopProof s!"alg {alg} requires kty {wantKty}, got {jwk.kty}")
  match jwk.crv with
  | some crv => failIf (crv != wantCrv) (.invalidDPopProof s!"alg {alg} requires crv {wantCrv}, got {crv}")
  | none => .error (.invalidDPopProof s!"alg {alg} requires crv {wantCrv}, but the JWK has none")

def decodeB64urlField (value : Option String) (name : String) : Except DPopError Bytes := do
  let v ← okOr value (.invalidDPopProof s!"JWK missing field: {name}")
  okOr (p.decodeBase64Url v) (.invalidDPopProof s!"invalid base64url in JWK field: {name}")

def verifyDpopSignature (headerB64 payloadB64 sigB64 : String) (jwk : DPopJwk) (alg : String) :
    Except DPopError Unit := do
  let message := stringBytes (headerB64 ++ "." ++ payloadB64)
  let sig ← okOr (p.decodeBase64Url sigB64) (.invalidDPopProof "invalid base64url in signature")
  if alg = "ES256" then do
    let x ← decodeB64urlField p jwk.x "x"
    let y ← decodeB64urlField p jwk.y "y"
    failIf (x.length != 32 || y.length != 32) (.invalidDPopProof "P-256 x/y must be 32 bytes each")
    failIf (!p.verifyEcdsaP256 (0x04 :: (x ++ y)) message sig)
      (.invalidDPopProof "ES256 signature verification failed")
  else if alg = "EdDSA" then do
    let x ← decodeB64urlField p jwk.x "x"
    failIf (x.length != 32) (.invalidDPopProof "Ed25519 x must be 32 bytes")
    failIf (!p.verifyEd25519 x message sig) (.invalidDPopProof "EdDSA signature verification failed")
  else .error (.invalidDPopProof s!"unsupported DPoP algorithm: {alg}")

def computeAccessTokenHash (accessToken : String) : String :=
  p.encodeBase64Url (p.sha256 (stringBytes accessToken))

def splitProof (proofJwt : String) : Except DPopError (String × String × String) :=
  match splitn '.' 3 proofJwt.toList with
  | [header, payload, sig] => .ok (.ofList header, .ofList payload, .ofList sig)
  | _ => .error (.invalidDPopProof "proof JWT must have 3 parts")

def decodeHeader (headerB64 : String) : Except DPopError DPopHeader := do
  let bytes ← okOr (p.decodeBase64Url headerB64) (.invalidDPopProof "invalid base64url in header")
  (p.parseHeader bytes).mapError fun e => .invalidDPopProof s!"header parse error: {e}"

def decodeClaims (payloadB64 : String) : Except DPopError DPopClaims := do
  let bytes ← okOr (p.decodeBase64Url payloadB64) (.invalidDPopProof "invalid base64url in payload")
  (p.parseClaims bytes).mapError fun e => .invalidDPopProof s!"payload parse error: {e}"

variable (claims : DPopClaims)

/-- The age may exceed `dpopMaxAgeSecs` by the skew, and `iat` may be ahead by it. -/
def checkIat (nowSecs : Int) : Except DPopError Unit := do
  let age := saturateI64 (nowSecs - claims.iat)
  failIf (decide (dpopMaxAgeSecs + dpopMaxClockSkewSecs < age))
    (.invalidDPopProof s!"proof iat too old: age={age}s")
  failIf (decide (nowSecs + dpopMaxClockSkewSecs < claims.iat)) (.invalidDPopProof "proof iat is in the future")

def checkAth (accessToken : Option String) : Except DPopError Unit :=
  match accessToken with
  | none => .ok ()
  | some token => do
    let ath ← okOr claims.ath (.invalidDPopProof "ath claim required when access_token is present")
    failIf (ath != computeAccessTokenHash p token)
      (.invalidDPopProof "ath mismatch: access token hash does not match")

def checkNonce (expectedNonce : Option String) : Except DPopError Unit :=
  match expectedNonce with
  | none => .ok ()
  | some expected => failIf (claims.nonce != some expected) .dPopNonceInvalid

/-- What a presentation is checked against. -/
structure DPopExpected where
  htm : String
  htu : String
  nonce : Option String
  accessToken : Option String

def validateDpopProof (proofJwt : String) (expected : DPopExpected) (nowSecs : Int) :
    Except DPopError ValidatedDPopProof := do
  let (headerB64, payloadB64, sigB64) ← splitProof proofJwt
  let header ← decodeHeader p headerB64
  failIf (header.typ != "dpop+jwt") (.invalidDPopProof s!"typ must be dpop+jwt, got {header.typ}")
  failIf header.privateKeyD.isSome
    (.invalidDPopProof "JWK in header must not contain private key material")
  checkAlgMatchesJwk header.alg header.jwk
  verifyDpopSignature p headerB64 payloadB64 sigB64 header.jwk header.alg
  let claims ← decodeClaims p payloadB64
  failIf claims.jti.isEmpty (.invalidDPopProof "jti must be non-empty")
  failIf (!eqIgnoreAsciiCase claims.htm expected.htm)
    (.invalidDPopProof s!"htm mismatch: expected {expected.htm}, got {claims.htm}")
  let proofHtu ← normalizeHtu claims.htu
  let serverHtu ← normalizeHtu expected.htu
  failIf (proofHtu != serverHtu)
    (.invalidDPopProof s!"htu mismatch: expected {serverHtu}, got {proofHtu}")
  checkIat claims nowSecs
  checkAth p claims expected.accessToken
  checkNonce claims expected.nonce
  let jkt ← computeJwkThumbprint p header.jwk
  pure { jkt, jti := claims.jti, nonce := claims.nonce }

/-- The claims a proof carries, whatever else is wrong with it. -/
def proofClaims (proofJwt : String) : Except DPopError DPopClaims := do
  let (_, payloadB64, _) ← splitProof proofJwt
  decodeClaims p payloadB64

variable {p}

/-- The `jti` of an accepted proof is the one recorded. -/
theorem validateDpopProof_eq_ok {proofJwt expected nowSecs v} (h : validateDpopProof p proofJwt expected nowSecs = .ok v) :
    ∃ claims, proofClaims p proofJwt = .ok claims ∧ v.jti = claims.jti := by
  unfold validateDpopProof at h
  simp only [bind_eq_ok] at h
  -- the header and the signature
  obtain ⟨⟨headerB64, payloadB64, sigB64⟩, hsplit, header, -, _, -, _, -, _, -, _, -, h⟩ := h
  -- the claims up to `htu`
  obtain ⟨claims, hclaim, _, -, _, -, proofHtu, -, serverHtu, -, _, -, h⟩ := h
  obtain ⟨_, -, _, -, _, -, jkt, -, hv⟩ := h
  refine ⟨claims, bind_eq_ok.2 ⟨_, hsplit, hclaim⟩, ?_⟩
  cases hv
  rfl

end

/-! ## Presentations -/

/-- The `i64` microseconds of a timestamp, in seconds. -/
def maxNowSecs : Int := (2 ^ 63 - 1) / 1000000

/-- One `put_if_absent` of the marker; its expiry is `nowSecs.saturating_add(..)`. -/
def checkAndRecordDpopJti (realmExists : Bool) (jtis : String → Option Int) (jti : String) (nowSecs : Int) :
    Except DPopError Unit × (String → Option Int) :=
  if realmExists then
    match jtis jti with
    | none => (.ok (), update jtis jti (some (saturateI64 (nowSecs + dpopMaxAgeSecs))))
    | some _ => (.error .dPopProofReplay, jtis)
  else (.error .realmNotFound, jtis)

variable {jtis : String → Option Int} {realmExists : Bool}

/-- The marker of an accepted presentation. -/
theorem checkAndRecordDpopJti_eq_ok {jti now u} (h : (checkAndRecordDpopJti realmExists jtis jti now).1 = .ok u) :
    jtis jti = none ∧ (checkAndRecordDpopJti realmExists jtis jti now).2 =
      update jtis jti (some (saturateI64 (now + dpopMaxAgeSecs))) := by
  unfold checkAndRecordDpopJti at h ⊢
  split at h
  · split at h
    · exact ⟨‹_›, by simp [*]⟩
    · cases h
  · cases h

theorem checkAndRecordDpopJti_error {jti now e} (h : (checkAndRecordDpopJti realmExists jtis jti now).1 = .error e) :
    (checkAndRecordDpopJti realmExists jtis jti now).2 = jtis := by
  unfold checkAndRecordDpopJti at h ⊢
  split at h
  · split at h
    · cases h
    · simp [*]
  · simp [*]

/-- A presentation: the `jti` of the validated proof and the time it will be recorded with. -/
inductive DPopCall
  | idle
  | validated (jti : String) (nowSecs : Int)
  | accepted
  | refused

/-- A run of the sweep: its time, and a row it is about to delete. -/
inductive DPopSweep
  | idle
  | started (nowSecs : Int)
  | picked (jti : String) (nowSecs : Int)

inductive DPopEvent (T : Type)
  | record (t : T)
  | other

/-- Presentations `T` of one proof in one realm, and sweeps `W`. -/
structure DPopSys (T W : Type) where
  clock : Int
  jtis : String → Option Int
  call : T → DPopCall
  sweep : W → DPopSweep

namespace DPopSys

variable {T W : Type}

def goto [DecidableEq T] (s : DPopSys T W) (jtis : String → Option Int) (t : T) (c : DPopCall) : DPopSys T W :=
  { s with jtis, call := update s.call t c }

def gotoSweep [DecidableEq W] (s : DPopSys T W) (jtis : String → Option Int) (w : W) (c : DPopSweep) :
    DPopSys T W :=
  { s with jtis, sweep := update s.sweep w c }

inductive Step [DecidableEq T] [DecidableEq W] (p : DPopPrimitives) (proof : String)
    (expected : T → DPopExpected) : DPopEvent T → DPopSys T W → DPopSys T W → Prop
  | tick {s clock} : s.clock ≤ clock → clock ≤ maxNowSecs →
      Step p proof expected .other s { s with clock }
  | validate {s t v} : s.call t = .idle → validateDpopProof p proof (expected t) s.clock = .ok v →
      Step p proof expected .other s (s.goto s.jtis t (.validated v.jti s.clock))
  /-- The grants that spend the `jti` themselves read the clock again. -/
  | readClock {s t jti now} : s.call t = .validated jti now →
      Step p proof expected .other s (s.goto s.jtis t (.validated jti s.clock))
  | record {s t jti now realmExists u} :
      s.call t = .validated jti now → (checkAndRecordDpopJti realmExists s.jtis jti now).1 = .ok u →
      Step p proof expected (.record t) s
        (s.goto (checkAndRecordDpopJti realmExists s.jtis jti now).2 t .accepted)
  | replay {s t jti now realmExists e} :
      s.call t = .validated jti now → (checkAndRecordDpopJti realmExists s.jtis jti now).1 = .error e →
      Step p proof expected (.record t) s
        (s.goto (checkAndRecordDpopJti realmExists s.jtis jti now).2 t .refused)
  | refuse {s t} : s.call t ≠ .accepted → Step p proof expected .other s (s.goto s.jtis t .refused)
  | sweepStart {s w} : s.sweep w = .idle →
      Step p proof expected .other s (s.gotoSweep s.jtis w (.started s.clock))
  | sweepPick {s w now e jti} : s.sweep w = .started now →
      s.jtis jti = some e → e ≤ now → Step p proof expected .other s (s.gotoSweep s.jtis w (.picked jti now))
  | sweepDelete {s w now jti} : s.sweep w = .picked jti now →
      Step p proof expected .other s (s.gotoSweep (update s.jtis jti none) w (.started now))
  | sweepEnd {s w} : Step p proof expected .other s (s.gotoSweep s.jtis w .idle)

variable (claims : DPopClaims) (s : DPopSys T W)

/-- The proof with these claims has not been presented. -/
def Init : Prop :=
  s.clock ≤ maxNowSecs ∧ s.jtis claims.jti = none ∧ s.call = (fun _ => .idle) ∧ s.sweep = fun _ => .idle

def AcceptedOnce : Prop := ∀ t u, s.call t = .accepted → s.call u = .accepted → t = u

/-- The proof is too old for `validate_dpop_proof`, now and later. -/
def TooOld : Prop := claims.iat + dpopMaxAgeSecs + dpopMaxClockSkewSecs < s.clock

/-- A presentation is recorded with a time more than the skew after `iat`, and while the proof is
not too old. -/
def InTime : DPopEvent T → DPopSys T W → Prop
  | .record t, s => ∀ jti now, s.call t = .validated jti now →
      claims.iat + dpopMaxClockSkewSecs < now ∧ ¬s.TooOld claims
  | .other, _ => True

/-! ## Runs -/

structure Known (claims : DPopClaims) (s : DPopSys T W) : Prop where
  clock : s.clock ≤ maxNowSecs
  validated : ∀ t jti now, s.call t = .validated jti now → jti = claims.jti ∧ now ≤ s.clock
  /-- The marker outlives the proof. -/
  dated : ∀ e, s.jtis claims.jti = some e → claims.iat + dpopMaxAgeSecs + dpopMaxClockSkewSecs < e
  started : ∀ w now, s.sweep w = .started now → now ≤ s.clock
  picked : ∀ w jti now, s.sweep w = .picked jti now → now ≤ s.clock ∧ (jti = claims.jti → s.TooOld claims)

/-- The proof as a contest: it closes when the proof is too old. -/
structure Tracks (claims : DPopClaims) (s : DPopSys T W) (o : OneShot T) : Prop where
  held : o.held → s.jtis claims.jti ≠ none
  closed : o.closed ↔ s.TooOld claims
  won : ∀ t, s.call t = .accepted → o.won t

section

variable {claims : DPopClaims} {s : DPopSys T W} {jtis : String → Option Int} {t : T} {c : DPopCall} {w : W}
  {d : DPopSweep} {o o' : OneShot T}

theorem call_goto [DecidableEq T] : (s.goto jtis t c).call = update s.call t c := rfl

theorem sweep_gotoSweep [DecidableEq W] : (s.gotoSweep jtis w d).sweep = update s.sweep w d := rfl

section

variable (h : s.Known claims)
  (hdated : ∀ e, jtis claims.jti = some e → claims.iat + dpopMaxAgeSecs + dpopMaxClockSkewSecs < e)

include h hdated

theorem Known.goto [DecidableEq T]
    (hc : ∀ jti now, c = .validated jti now → jti = claims.jti ∧ now ≤ s.clock) :
    (s.goto jtis t c).Known claims where
  __ := h
  validated := forall_move call_goto hc fun u _ => h.validated u
  dated := hdated

theorem Known.gotoSweep [DecidableEq W] (hstart : ∀ now, d = .started now → now ≤ s.clock)
    (hpick : ∀ jti now, d = .picked jti now → now ≤ s.clock ∧ (jti = claims.jti → s.TooOld claims)) :
    (s.gotoSweep jtis w d).Known claims where
  __ := h
  dated := hdated
  started := forall_move sweep_gotoSweep hstart fun v _ => h.started v
  picked := forall_move sweep_gotoSweep hpick fun v _ => h.picked v

end

theorem Tracks.goto [DecidableEq T] (h : s.Tracks claims o) (hheld : o'.held → jtis claims.jti ≠ none)
    (hclos : o'.closed ↔ o.closed) (hwon : ∀ u, o.won u → o'.won u) (hc : c = .accepted → o'.won t) :
    (s.goto jtis t c).Tracks claims o' where
  held := hheld
  closed := hclos.trans h.closed
  won := forall_move call_goto hc fun u _ hu => hwon u (h.won u hu)

end

section

variable [DecidableEq T] [DecidableEq W] {p : DPopPrimitives} {proof : String} {expected : T → DPopExpected}
  {claims : DPopClaims} {s s' : DPopSys T W} {ev : DPopEvent T}

theorem known_step (hclaim : proofClaims p proof = .ok claims) (h : s.Known claims) (hin : InTime claims ev s)
    (hst : Step p proof expected ev s s') : s'.Known claims := by
  cases hst with
  | tick hle hmax =>
    refine ⟨hmax, fun t jti now ht => ?_, h.dated, fun w now hw => (h.started w now hw).trans hle,
      fun w jti now hw => ?_⟩
    · obtain ⟨hjti, hnow⟩ := h.validated t jti now ht
      exact ⟨hjti, hnow.trans hle⟩
    · obtain ⟨hnow, hold⟩ := h.picked w jti now hw
      exact ⟨hnow.trans hle, fun hjti => (hold hjti).trans_le hle⟩
  | @validate _ t v _ hv =>
    obtain ⟨claims', hclaims', hjti⟩ := validateDpopProof_eq_ok hv
    cases hclaim.symm.trans hclaims'
    refine h.goto h.dated fun jti now heq => ?_
    cases heq
    exact ⟨hjti, le_rfl⟩
  | @readClock _ t jti now ht =>
    refine h.goto h.dated fun jti' now' heq => ?_
    cases heq
    exact ⟨(h.validated t jti now ht).1, le_rfl⟩
  | @record _ t jti now realmExists _ ht hok =>
    obtain ⟨rfl, hnow⟩ := h.validated t jti now ht
    refine h.goto (fun e he => ?_) nofun
    rw [(checkAndRecordDpopJti_eq_ok hok).2, update_self] at he
    cases he
    -- the recorded expiry does not saturate, and is after the proof's last moment
    have hclock := hnow.trans h.clock
    have hlate := (hin _ now ht).1
    unfold maxNowSecs at hclock
    unfold saturateI64
    unfold dpopMaxAgeSecs dpopMaxClockSkewSecs at *
    omega
  | replay _ herr =>
    refine h.goto ?_ nofun
    rw [checkAndRecordDpopJti_error herr]
    exact h.dated
  | refuse => exact h.goto h.dated nofun
  | sweepStart =>
    refine h.gotoSweep h.dated (fun now hnow => ?_) nofun
    cases hnow
    exact le_rfl
  | @sweepPick _ w now e jti hw he hle =>
    refine h.gotoSweep h.dated nofun fun jti' now' heq => ?_
    cases heq
    refine ⟨h.started w now hw, fun hjti => ?_⟩
    rw [hjti] at he
    exact (h.dated e he).trans_le (hle.trans (h.started w now hw))
  | @sweepDelete _ w now jti hw =>
    refine h.gotoSweep (fun e he => ?_) (fun now' heq => ?_) nofun
    · rcases update_cases he with ⟨-, hnone⟩ | he
      · cases hnone
      · exact h.dated e he
    · cases heq
      exact (h.picked w jti now hw).1
  | sweepEnd => exact h.gotoSweep h.dated nofun nofun

theorem tracks_step {o} (hknown : s.Known claims) (h : s.Tracks claims o) (hin : InTime claims ev s)
    (hst : Step p proof expected ev s s') : ∃ o', s'.Tracks claims o' := by
  cases hst with
  | tick hle =>
    have hlate : o.closed → TooOld claims { s with clock := _ } := fun hc => (h.closed.1 hc).trans_le hle
    exact ⟨o.close _ hlate, h.held, .rfl, h.won⟩
  | validate | readClock | refuse => exact ⟨o, h.goto h.held .rfl (fun _ hu => hu) nofun⟩
  | @record _ t jti now realmExists _ ht hok =>
    obtain ⟨rfl, -⟩ := hknown.validated t jti now ht
    obtain ⟨hnone, hjtis⟩ := checkAndRecordDpopJti_eq_ok hok
    have hfree : ¬o.held := fun hheld => h.held hheld hnone
    have hopen : ¬o.closed := fun hc => (hin _ now ht).2 (h.closed.1 hc)
    refine ⟨o.win t hfree hopen, h.goto (fun _ => ?_) .rfl (fun _ => .inr) fun _ => .inl rfl⟩
    rw [hjtis, update_self]
    nofun
  | replay _ herr =>
    refine ⟨o, h.goto (fun hheld => ?_) .rfl (fun _ hu => hu) nofun⟩
    rw [checkAndRecordDpopJti_error herr]
    exact h.held hheld
  | sweepStart | sweepPick | sweepEnd => exact ⟨o, { h with }⟩
  | @sweepDelete _ w now jti hw =>
    by_cases hjti : jti = claims.jti
    · have hold := (hknown.picked w jti now hw).2 hjti
      exact ⟨o.clear (h.closed.2 hold), nofun, h.closed, h.won⟩
    · refine ⟨o, fun hheld => ?_, h.closed, h.won⟩
      exact fun hnone => h.held hheld ((update_of_ne (symm hjti) ..).symm.trans hnone)

/-- If every presentation of a proof is recorded with a time more than the skew after its `iat`, and
before it is too old, at most one is accepted. -/
theorem dpop_accepted_once (hclaims : proofClaims p proof = .ok claims)
    (h : Reachable (Init claims) (LabelledWith (Step p proof expected) (InTime claims)) s) : s.AcceptedOnce := by
  have hinv : s.Known claims ∧ ∃ o, s.Tracks claims o := by
    refine h.invariant (I := fun s => s.Known claims ∧ ∃ o, s.Tracks claims o) (fun s hs => ?_)
      fun s s' _ ⟨hknown, o, ho⟩ ⟨ev, hin, hst⟩ =>
        ⟨known_step hclaims hknown hin hst, tracks_step hknown ho hin hst⟩
    obtain ⟨hclock, hjti, hcall, hsweep⟩ := hs
    refine ⟨⟨hclock, ?_, fun e he => (nomatch hjti.symm.trans he), ?_, ?_⟩, .start _, nofun,
      .rfl, ?_⟩
    · rw [hcall]
      nofun
    · rw [hsweep]
      nofun
    · rw [hsweep]
      nofun
    · rw [hcall]
      nofun
  obtain ⟨-, o, ho⟩ := hinv
  exact fun t u ht hu => o.unique t u (ho.won t ht) (ho.won u hu)

end

section

def demoPrimitives : DPopPrimitives where
  decodeBase64Url _ := some (.replicate 32 0)
  encodeBase64Url _ := "thumbprint"
  parseHeader _ := .ok
    { typ := "dpop+jwt", alg := "EdDSA", privateKeyD := none
      jwk := { kty := "OKP", crv := some "Ed25519", x := some "key", y := none } }
  parseClaims _ := .ok
    { jti := "jti-1", htm := "POST", htu := "https://as.example/token", iat := 1000, nonce := none, ath := none }
  sha256 b := b
  verifyEcdsaP256 _ _ _ := false
  verifyEd25519 _ _ _ := true

def demoExpected : DPopExpected :=
  { htm := "POST", htu := "https://as.example/token", nonce := none, accessToken := none }

def demoClaims : DPopClaims :=
  { jti := "jti-1", htm := "POST", htu := "https://as.example/token", iat := 1000, nonce := none, ath := none }

/-- Two presentations of one proof, with `iat` 1000. -/
abbrev DemoSys := DPopSys (Fin 2) Unit

abbrev DemoStep : DPopEvent (Fin 2) → DemoSys → DemoSys → Prop :=
  Step demoPrimitives "header.payload.signature" fun _ => demoExpected

def demoSys (clock : Int) : DemoSys where
  clock := clock
  jtis _ := none
  call _ := .idle
  sweep _ := .idle

/-- Recorded at 1100, the marker lasts until 1220; a replay at 1180, the proof's last second, is
refused. -/
theorem dpop_accepted_once_late : ∃ s : DemoSys, s.call 0 = .accepted ∧ s.clock = 1180 ∧ s.call 1 = .refused ∧
    s.AcceptedOnce := by
  have h0 : Reachable (Init demoClaims) (LabelledWith DemoStep (InTime demoClaims)) (demoSys 1100) :=
    .start ⟨by decide, rfl, rfl, rfl⟩
  have h1 := h0.take (.validate (t := 0) rfl rfl)
  have h2 := h1.next ⟨.record 0, fun _ _ ht => by cases ht; exact ⟨by decide, by unfold TooOld; decide⟩,
    @Step.record _ _ _ _ _ _ _ _ 0 "jti-1" 1100 true () rfl rfl⟩
  have h3 := h2.take (@Step.tick _ _ _ _ _ _ _ _ 1180 (by decide) (by decide))
  have h4 := h3.take (.validate (t := 1) rfl rfl)
  have h5 := h4.next ⟨.record 1, fun _ _ ht => by cases ht; exact ⟨by decide, by unfold TooOld; decide⟩,
    @Step.replay _ _ _ _ _ _ _ _ 1 "jti-1" 1180 true .dPopProofReplay rfl rfl⟩
  exact ⟨_, rfl, rfl, rfl, dpop_accepted_once rfl h5⟩

/-- The proof is accepted at its own `iat`, 1000; the marker is swept at 1120, and the proof, which
is fresh until 1180, is accepted again. -/
theorem dpop_accepted_twice : ∃ s : DemoSys,
    Reachable (Init demoClaims) (LabelledWith DemoStep fun _ _ => True) s ∧ ¬s.AcceptedOnce := by
  have h0 : Reachable (Init demoClaims) (LabelledWith DemoStep fun _ _ => True) (demoSys 1000) :=
    .start ⟨by decide, rfl, rfl, rfl⟩
  have h1 := h0.take (.validate (t := 0) rfl rfl)
  have h2 := h1.take (@Step.record _ _ _ _ _ _ _ _ 0 "jti-1" 1000 true () rfl rfl)
  have h3 := h2.take (@Step.tick _ _ _ _ _ _ _ _ 1120 (by decide) (by decide))
  have h4 := h3.take (.sweepStart (w := ()) rfl)
  have h5 := h4.take (@Step.sweepPick _ _ _ _ _ _ _ _ () 1120 1120 "jti-1" rfl rfl (by decide))
  have h6 := h5.take (.sweepDelete (w := ()) rfl)
  have h7 := h6.take (.validate (t := 1) rfl rfl)
  have h8 := h7.take (@Step.record _ _ _ _ _ _ _ _ 1 "jti-1" 1120 true () rfl rfl)
  exact ⟨_, h8, fun honce => absurd (honce 0 1 rfl rfl) (by decide)⟩

end

end DPopSys

end Hearth.Identity
