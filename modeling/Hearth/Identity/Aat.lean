import Hearth.Base.Bytes
import Hearth.Base.Fallible
import Hearth.Base.Json

/-!
# Attenuating authorization tokens

Issuing, deriving and validating AATs over the rows they leave: a record of the claims
for each token minted, and a row for each revoked `jti`. What a presented token carries is
what `verify_jwt_typed` makes of it; nothing here relies on who signed it.

Results:
1. `ToolsWithin.of_subset`: where doubles decide as the numbers do, an accepted tool list
   attenuates.
2. `parseAndValidateAat_eq_ok`: what a token has passed.
-/

namespace Hearth.Identity

open Base

structure AgentId where
  uuid : Nat
  deriving DecidableEq, Repr

inductive AgentStatus
  | active
  | suspended
  | revoked
  deriving DecidableEq, Repr

inductive AatError
  | invalidToken
  | agentNotFound
  | agentRevoked
  | aatExpired
  | aatAudienceMismatch
  | aatRevoked
  | aatScopeEscalation
  | aatChainBroken (reason : String)
  deriving DecidableEq, Repr

/-- A call that does not return `Ok`: it returns an error, or it panics. -/
inductive Stopped
  | error (e : AatError)
  | panicked
  deriving DecidableEq, Repr

def maxAatTtlSecs : Int := 3600

def maxAatChainDepth : Nat := 5

structure AatToolPermission where
  tool : String
  actions : List String
  /-- `null` means unconstrained. -/
  constraints : JsonValue
  deriving DecidableEq

structure AatClaims where
  jti : String
  iss : String
  sub : String
  aud : Option String
  exp : Int
  iat : Int
  tools : List AatToolPermission
  scope : List String
  aatParent : Option String
  aatChain : List String
  deriving DecidableEq

structure IssueAatRequest where
  agentId : AgentId
  tools : List AatToolPermission
  scope : List String
  aud : Option String
  expiresInSecs : Option Int

structure DeriveAatRequest where
  /-- The parent token, as `verify_jwt_typed` reads it. -/
  parentAat : Option AatClaims
  tools : List AatToolPermission
  scope : List String
  aud : Option String
  expiresInSecs : Option Int

/-! ## The comparison of tools -/

variable [SerdeJson]

section

def validateConstraintType : JsonValue → Except AatError Unit
  | .null | .object _ => .ok ()
  | _ => .error .aatScopeEscalation

/-- One value of the child against the parent's: numbers as doubles, the rest by equality. -/
def validateValue (child parent : JsonValue) : Except AatError Unit :=
  match child, parent with
  | .number c, .number p => failIf (p.asF64 < c.asF64) .aatScopeEscalation
  | c, p => failIf (c ≠ p) .aatScopeEscalation

/-- The fields of an object; `null` has none. -/
def constraintFields : JsonValue → JsonFields
  | .object fields => fields
  | _ => .nil

def validateFields (child parent : JsonFields) : Except AatError Unit := do
  failIf (child.toList.any fun field => (parent.get field.1).isNone) .aatScopeEscalation
  parent.toList.forM fun field => do
    let value ← okOr (child.get field.1) .aatScopeEscalation
    validateValue value field.2

def validateToolPermission (parents : List AatToolPermission) (child : AatToolPermission) :
    Except AatError Unit := do
  let parent ← okOr (parents.find? fun p => p.tool = child.tool) .aatScopeEscalation
  failIf (child.actions.any fun action => action ∉ parent.actions) .aatScopeEscalation
  validateConstraintType child.constraints
  validateConstraintType parent.constraints
  match parent.constraints with
  | .object fields => validateFields (constraintFields child.constraints) fields
  | _ => failIf (child.constraints ≠ .null) .aatScopeEscalation

def validateToolsSubset (childTools parentTools : List AatToolPermission) : Except AatError Unit :=
  childTools.forM (validateToolPermission parentTools)

/-- What one value may be under another: a number is at most the other, exactly. -/
inductive ValueWithin : JsonValue → JsonValue → Prop
  | same (v : JsonValue) : ValueWithin v v
  | number {c p} : c.value ≤ p.value → ValueWithin (.number c) (.number p)

/-- Every constraint of the parent is one of the child, at most as wide. -/
def ConstraintsWithin (child parent : JsonValue) : Prop :=
  ∀ key v, (constraintFields parent).get key = some v →
    ∃ w, (constraintFields child).get key = some w ∧ ValueWithin w v

structure PermissionWithin (child parent : AatToolPermission) : Prop where
  tool : child.tool = parent.tool
  actions : ∀ action ∈ child.actions, action ∈ parent.actions
  constraints : ConstraintsWithin child.constraints parent.constraints

variable (child parent : List AatToolPermission)

def ToolsWithin : Prop := ∀ c ∈ child, ∃ p ∈ parent, PermissionWithin c p

/-- No number of the child exceeds the parent's without its double showing it. -/
def NumbersShow (child parent : JsonValue) : Prop :=
  ∀ key c p, (constraintFields child).get key = some (.number c) →
    (constraintFields parent).get key = some (.number p) → p.value < c.value →
    p.asF64 < c.asF64

def ToolsShow : Prop :=
  ∀ c ∈ child, ∀ p ∈ parent, c.tool = p.tool → NumbersShow c.constraints p.constraints

variable {child parent grand : JsonValue} {cs ps gs : List AatToolPermission}

omit [SerdeJson] in
theorem ValueWithin.trans (h : ValueWithin child parent) (h' : ValueWithin parent grand) :
    ValueWithin child grand := by
  cases h with
  | same => exact h'
  | number hle =>
    cases h' with
    | same => exact .number hle
    | number hle' => exact .number (le_trans hle hle')

theorem ConstraintsWithin.trans (h : ConstraintsWithin child parent) (h' : ConstraintsWithin parent grand) :
    ConstraintsWithin child grand := by
  intro key g hg
  obtain ⟨p, hp, hpg⟩ := h' key g hg
  obtain ⟨c, hc, hcp⟩ := h key p hp
  exact ⟨c, hc, hcp.trans hpg⟩

theorem PermissionWithin.refl (c : AatToolPermission) : PermissionWithin c c :=
  ⟨rfl, fun _ ha => ha, fun _ v hv => ⟨v, hv, .same v⟩⟩

theorem PermissionWithin.trans {c p g} (h : PermissionWithin c p)
    (h' : PermissionWithin p g) : PermissionWithin c g :=
  ⟨h.tool.trans h'.tool, fun a ha => h'.actions a (h.actions a ha), h.constraints.trans h'.constraints⟩

theorem ToolsWithin.trans (h : ToolsWithin cs ps) (h' : ToolsWithin ps gs) : ToolsWithin cs gs := by
  intro c hc
  obtain ⟨p, hp, hcp⟩ := h c hc
  obtain ⟨g, hg, hpg⟩ := h' p hp
  exact ⟨g, hg, hcp.trans hpg⟩

theorem validateValue_within (h : validateValue child parent = .ok ())
    (hshow : ∀ c p, child = .number c → parent = .number p → p.value < c.value →
      p.asF64 < c.asF64) : ValueWithin child parent := by
  unfold validateValue at h
  split at h
  · next c p =>
    have hle : ¬ p.asF64 < c.asF64 := of_decide_eq_false (failIf_eq_ok.1 h)
    exact .number (not_lt.1 fun hlt => hle (hshow c p rfl rfl hlt))
  · have heq : child = parent := by simpa using failIf_eq_ok.1 h
    exact heq ▸ .same _

structure Accepted (child parent : AatToolPermission) : Prop where
  tool : parent.tool = child.tool
  actions : ∀ action ∈ child.actions, action ∈ parent.actions
  fields : ∀ field ∈ (constraintFields parent.constraints).toList, ∃ v,
    (constraintFields child.constraints).get field.1 = some v ∧ validateValue v field.2 = .ok ()

theorem validateToolPermission_accepted {c} (h : validateToolPermission ps c = .ok ()) :
    ∃ p ∈ ps, Accepted c p := by
  obtain ⟨p, hp, h⟩ := bind_eq_ok.1 h
  obtain ⟨_, hactions, h⟩ := bind_eq_ok.1 h
  obtain ⟨_, -, h⟩ := bind_eq_ok.1 h
  obtain ⟨_, -, h⟩ := bind_eq_ok.1 h
  have hfind := okOr_eq_ok.1 hp
  refine ⟨p, List.mem_of_find?_eq_some hfind, ?_, ?_, ?_⟩
  · simpa using List.find?_some hfind
  · simpa using failIf_eq_ok.1 hactions
  · intro field hfield
    split at h
    · next fields heq =>
      rw [heq] at hfield
      obtain ⟨_, -, h⟩ := bind_eq_ok.1 h
      obtain ⟨v, hv, hval⟩ := bind_eq_ok.1 (forM_eq_ok.1 h _ hfield)
      exact ⟨v, okOr_eq_ok.1 hv, hval⟩
    · next hobject =>
      -- a parent that is no object has no field
      cases hp : p.constraints with
      | object fields => exact absurd hp (hobject _)
      | null | bool | number | string | array =>
        rw [hp] at hfield
        cases hfield

/-- Where the doubles show what the numbers are, an accepted list is within the parent's. -/
theorem ToolsWithin.of_subset (h : validateToolsSubset cs ps = .ok ()) (hshow : ToolsShow cs ps) :
    ToolsWithin cs ps := by
  intro c hc
  obtain ⟨p, hp, hacc⟩ := validateToolPermission_accepted (forM_eq_ok.1 h c hc)
  refine ⟨p, hp, hacc.tool.symm, hacc.actions, fun key v hv => ?_⟩
  obtain ⟨w, hw, hval⟩ := hacc.fields _ (SerdeJson.mem_of_get hv)
  refine ⟨w, hw, validateValue_within hval fun cn pn hcn hpn => ?_⟩
  exact hshow c hc p hp hacc.tool.symm key cn pn (hcn ▸ hw) (hpn ▸ hv)

end

/-! ## Chains -/

/-- The links are distinct. -/
def repeatsLink (chain : List String) : Bool :=
  chain.zipIdx.any fun link => link.1 ∈ chain.take link.2

variable (claims : AatClaims)

def checkChainStructure : Except AatError Unit := do
  let chain := claims.aatChain
  failIf (chain.isEmpty || decide (maxAatChainDepth < chain.length))
    (.aatChainBroken "chain length out of range")
  failIf (chain.getLast? ≠ some claims.jti) (.aatChainBroken "chain does not end with the token")
  failIf (repeatsLink chain) (.aatChainBroken "chain repeats a link")
  -- `chain.len().checked_sub(2)`: a root has no link before its own
  failIf (claims.aatParent ≠ if chain.length < 2 then none else chain[chain.length - 2]?)
    (.aatChainBroken "parent is not the previous link")

def validateScope (child parent : List String) : Except AatError Unit :=
  failIf (child.any fun s => s ∉ parent) .aatScopeEscalation

/-- The record of one link, and of the link before it. -/
def checkLink (records : List AatClaims) (link : AatClaims × Nat) : Except AatError Unit := do
  failIf (link.1.aatChain ≠ claims.aatChain.take (link.2 + 1))
    (.aatChainBroken "a link's record names another chain")
  match link.2 with
  | 0 => .ok ()
  | i + 1 =>
    match records[i]? with
    | none => .ok ()
    | some parent => do
      validateToolsSubset link.1.tools parent.tools
      validateScope link.1.scope parent.scope

def checkChainRecords (records : List AatClaims) : Except AatError Unit := do
  failIf (records.getLast? ≠ some claims) (.aatChainBroken "token does not match its record")
  records.zipIdx.forM (checkLink claims records)

/-! ## The engine -/

/-- The rows of a realm that the functions read. -/
structure AatRows where
  /-- `aat:rec:{jti}`. -/
  record : String → Option AatClaims
  /-- `aat:rev:{jti}`. -/
  revoked : String → Bool
  agent : AgentId → Option AgentStatus

section

-- `agt_{uuid}` read back, and written
variable (agentOf : String → Option AgentId) (subjectOf : AgentId → String) (rows : AatRows)

def requireActiveSubjectAgent (sub : String) : Except AatError Unit := do
  let agentId ← okOr (agentOf sub) .agentNotFound
  let status ← okOr (rows.agent agentId) .agentNotFound
  failIf (status ≠ .active) .agentRevoked

/-- One link: it is not revoked, and its record is read. -/
def readLink (jti : String) : Except AatError AatClaims := do
  failIf (rows.revoked jti) .aatRevoked
  okOr (rows.record jti) (.aatChainBroken "a chain link has no record")

def parseAndValidateAat (aat : Option AatClaims) (expectedAud : Option String) (nowSecs : Int) :
    Except AatError AatClaims := do
  let claims ← okOr aat .invalidToken
  failIf (claims.exp ≤ nowSecs) .aatExpired
  failIf (expectedAud.any fun aud => claims.aud ≠ some aud) .aatAudienceMismatch
  requireActiveSubjectAgent agentOf rows claims.sub
  checkChainStructure claims
  let records ← claims.aatChain.mapM (readLink rows)
  checkChainRecords claims records
  .ok claims

/-- The claims of a new root token. -/
def issueAatInner (request : IssueAatRequest) (iss jti : String) (nowSecs : Int) :
    Except AatError AatClaims := do
  let status ← okOr (rows.agent request.agentId) .agentNotFound
  failIf (status ≠ .active) .agentRevoked
  request.tools.forM fun perm => validateConstraintType perm.constraints
  let ttl := max 1 (min ((request.expiresInSecs.getD maxAatTtlSecs)) maxAatTtlSecs)
  .ok { jti, iss
        sub := subjectOf request.agentId
        aud := request.aud
        exp := nowSecs + ttl
        iat := nowSecs
        tools := request.tools
        scope := request.scope
        aatParent := none
        aatChain := [jti] }

/-- `i64::clamp`, which panics on an empty range. -/
def clampI64 (x low high : Int) : Except Stopped Int :=
  if high < low then .error .panicked else .ok (max low (min x high))

/-- The claims of a child token. The clock is read twice: for the parent's expiry, and for the
child's lifetime. -/
def deriveAatInner (request : DeriveAatRequest) (jti : String) (nowSecs nowSecs' : Int) :
    Except Stopped AatClaims := do
  let parent ← (parseAndValidateAat agentOf rows request.parentAat none nowSecs).mapError .error
  failIf (decide (maxAatChainDepth ≤ parent.aatChain.length)) (.error (.aatChainBroken
    s!"chain depth {parent.aatChain.length} would exceed maximum {maxAatChainDepth}"))
  (validateScope request.scope parent.scope).mapError .error
  (validateToolsSubset request.tools parent.tools).mapError .error
  let parentRemaining := max (saturateI64 (parent.exp - nowSecs')) 0
  let ttl ← clampI64 (request.expiresInSecs.getD parentRemaining) 1 parentRemaining
  .ok { jti
        iss := parent.iss
        sub := parent.sub
        aud := request.aud.or parent.aud
        exp := nowSecs' + ttl
        iat := nowSecs'
        tools := request.tools
        scope := request.scope
        aatParent := some parent.jti
        aatChain := parent.aatChain ++ [jti] }

end

section

variable {agentOf : String → Option AgentId} {subjectOf : AgentId → String} {rows : AatRows}
  {aat : Option AatClaims} {aud : Option String} {now now' : Int} {c : AatClaims}

/-- What a token has passed. -/
structure Passes (agentOf : String → Option AgentId) (rows : AatRows) (aud : Option String) (now : Int)
    (c : AatClaims) : Prop where
  unexpired : now < c.exp
  audience : ∀ a, aud = some a → c.aud = some a
  agent : requireActiveSubjectAgent agentOf rows c.sub = .ok ()
  structured : checkChainStructure c = .ok ()
  recorded : ∃ records, c.aatChain.mapM (readLink rows) = .ok records ∧ checkChainRecords c records = .ok ()

theorem parseAndValidateAat_eq_ok :
    parseAndValidateAat agentOf rows aat aud now = .ok c ↔ aat = some c ∧ Passes agentOf rows aud now c := by
  have haud : ∀ c : AatClaims, aud.any (fun a => decide (c.aud ≠ some a)) = false ↔
      ∀ a, aud = some a → c.aud = some a := by
    intro c
    cases aud with
    | none => exact ⟨fun _ _ h => absurd h nofun, fun _ => rfl⟩
    | some a => simp
  constructor
  · intro h
    obtain ⟨c', haat, h⟩ := bind_eq_ok.1 h
    obtain ⟨_, hexp, h⟩ := bind_eq_ok.1 h
    obtain ⟨_, haud', h⟩ := bind_eq_ok.1 h
    obtain ⟨_, hagent, h⟩ := bind_eq_ok.1 h
    obtain ⟨_, hchain, h⟩ := bind_eq_ok.1 h
    obtain ⟨records, hrecs, h⟩ := bind_eq_ok.1 h
    obtain ⟨_, hcheck, h⟩ := bind_eq_ok.1 h
    cases h
    refine ⟨okOr_eq_ok.1 haat, ?_, (haud c).1 (failIf_eq_ok.1 haud'), hagent, hchain, records,
      hrecs, hcheck⟩
    exact not_le.1 (of_decide_eq_false (failIf_eq_ok.1 hexp))
  · rintro ⟨rfl, h⟩
    obtain ⟨records, hrecs, hcheck⟩ := h.recorded
    refine bind_eq_ok.2 ⟨c, rfl, bind_eq_ok.2 ⟨(), ?_, bind_eq_ok.2 ⟨(), ?_, bind_eq_ok.2 ⟨(), h.agent, ?_⟩⟩⟩⟩
    · exact failIf_eq_ok.2 (decide_eq_false (not_le.2 h.unexpired))
    · exact failIf_eq_ok.2 ((haud c).2 h.audience)
    · exact bind_eq_ok.2 ⟨(), h.structured, bind_eq_ok.2 ⟨records, hrecs,
        bind_eq_ok.2 ⟨(), hcheck, rfl⟩⟩⟩

omit [SerdeJson] in
theorem checkChainStructure_eq_ok : checkChainStructure c = .ok () ↔
    c.aatChain ≠ [] ∧ c.aatChain.length ≤ maxAatChainDepth ∧ c.aatChain.getLast? = some c.jti ∧
      repeatsLink c.aatChain = false ∧
      c.aatParent = if c.aatChain.length < 2 then none else c.aatChain[c.aatChain.length - 2]? := by
  simp [checkChainStructure, and_assoc]

omit [SerdeJson] in
theorem readLink_eq_ok {jti r} :
    readLink rows jti = .ok r ↔ rows.revoked jti = false ∧ rows.record jti = some r := by
  simp [readLink]

omit [SerdeJson] in
/-- A lifetime that fits ends at or before the parent's expiry. -/
theorem clampI64_remaining {x ttl exp}
    (h : clampI64 x 1 (max (saturateI64 (exp - now)) 0) = .ok ttl) : now + ttl ≤ exp := by
  unfold clampI64 at h
  split at h
  · cases h
  · next hlow =>
    cases h
    have hsat : saturateI64 (exp - now) ≤ max (-2 ^ 63) (exp - now) := by
      exact max_le_max le_rfl (min_le_left _ _)
    omega

/-- What a derived token is. -/
structure Derives (agentOf : String → Option AgentId) (rows : AatRows) (request : DeriveAatRequest)
    (jti : String) (now : Int) (parent c : AatClaims) : Prop where
  token : request.parentAat = some parent
  passes : Passes agentOf rows none now parent
  depth : parent.aatChain.length < maxAatChainDepth
  scope : validateScope request.scope parent.scope = .ok ()
  tools : validateToolsSubset request.tools parent.tools = .ok ()
  exp : c.exp ≤ parent.exp
  own : c.jti = jti ∧ c.tools = request.tools ∧ c.scope = request.scope
  chain : c.aatParent = some parent.jti ∧ c.aatChain = parent.aatChain ++ [jti]

theorem deriveAatInner_eq_ok {request jti}
    (h : deriveAatInner agentOf rows request jti now now' = .ok c) :
    ∃ parent, Derives agentOf rows request jti now parent c := by
  obtain ⟨parent, hpar, h⟩ := bind_eq_ok.1 h
  obtain ⟨_, hdepth, h⟩ := bind_eq_ok.1 h
  obtain ⟨_, hscope, h⟩ := bind_eq_ok.1 h
  obtain ⟨_, htools, h⟩ := bind_eq_ok.1 h
  obtain ⟨ttl, httl, h⟩ := bind_eq_ok.1 h
  obtain ⟨htoken, hpass⟩ := parseAndValidateAat_eq_ok.1 (mapError_eq_ok.1 hpar)
  cases h
  exact ⟨parent, htoken, hpass, not_le.1 (of_decide_eq_false (failIf_eq_ok.1 hdepth)),
    mapError_eq_ok.1 hscope, mapError_eq_ok.1 htools, clampI64_remaining httl, ⟨rfl, rfl, rfl⟩, rfl, rfl⟩

end

end Hearth.Identity
