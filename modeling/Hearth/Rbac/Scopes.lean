import Hearth.Rbac.Resolve

/-!
# Scope resolution

`resolveWithScopes` grants the requested scopes whose permissions the user holds
and narrows the user's permissions to those of the granted scopes. A grant is
issued again from what it recorded: the scopes it was granted, and whether it named
a scope with permissions at all. The second is needed when every such scope has
dropped out since: without it the grant would read as one that never narrowed.

* `resolveWithScopes_eq_ok`: what an answer is;
* `scopes_never_widen`: a grant is within the user's permissions, and issuing it
  again stays within the grant.
-/

namespace Hearth.Rbac

open Base List

inductive ClientTrustLevel
  | firstParty
  | thirdParty
  deriving DecidableEq, Repr

inductive ScopeMode
  | request
  | reissue
  deriving DecidableEq, Repr

inductive ScopeKind
  | oidcStandard
  | permission
  | bundle
  deriving DecidableEq, Repr

/-- What a scope name maps to in a registry. -/
inductive ScopeLookup
  | missing
  | noNarrowing
  | bundle (permissions : List Permission)
  deriving DecidableEq, Repr

/-- One requested scope, classified. -/
inductive ScopeEntry
  | oidc
  | bearing (permissions : List Permission)
  deriving DecidableEq, Repr

abbrev Uri := String

/-- What scope resolution reads of a realm. -/
structure Resolver where
  resolveFullCached : UserId → Option OrganizationId → Except RbacError ResolvedPermissions
  scopePermissions : String → Except RbacError ScopeLookup
  resourceScopePermissions : Uri → String → Except RbacError ScopeLookup

structure ScopeRequest where
  userId : Option UserId
  orgId : Option OrganizationId
  requested : List String
  trustLevel : ClientTrustLevel
  declared : List String
  resource : Option Uri
  mode : ScopeMode
  narrowed : Bool

/-- An answer, with what the grant records of it. -/
structure ScopedPermissions extends ResolvedPermissions where
  grantedScopes : List String
  scopeNarrowed : Bool
  deriving DecidableEq

/-! ## Classification -/

def oidcScopes : List String := ["openid", "profile", "email", "address", "phone", "offline_access"]

def classifyScopeString (scope : String) : Option ScopeKind :=
  let dotted : Bool := '.' ∈ scope.toList
  let colon : Bool := ':' ∈ scope.toList
  if scope ∈ oidcScopes then some .oidcStandard
  else if dotted && !colon then some .permission
  else if colon && !dotted then some .bundle
  else none

def isSegmentChar (c : Char) : Bool := c.isAlphanum || c = '_' || c = '-'

/-- Whether `Permission::validate` accepts; its reasons are not passed on here. -/
def validPermission (s : String) : Bool :=
  let segments := s.toList.splitOn '.'
  s ≠ "" && s.utf8ByteSize ≤ 128 && !(s.toList.contains ':') && 2 ≤ segments.length &&
    segments.all fun segment => !segment.isEmpty && segment.all isSegmentChar

section

variable (R : Resolver) (req : ScopeRequest) (scope : String)

def unknownScope : RbacError := .invalidScope s!"unknown scope '{scope}'"

def bundleEntry : ScopeLookup → Except RbacError ScopeEntry
  | .bundle list => .ok (.bearing list)
  | .missing | .noNarrowing => .error (unknownScope scope)

def classifyRequestedScope : Except RbacError ScopeEntry :=
  match classifyScopeString scope with
  | some .oidcStandard => .ok .oidc
  | some .permission => do
    failIf req.resource.isSome
      (.invalidScope s!"raw permission scope '{scope}' is not legal under a resource")
    failIf (req.trustLevel = .thirdParty)
      (.invalidScope s!"third-party clients cannot request raw permission scope '{scope}'")
    failIf (!validPermission scope) (unknownScope scope)
    .ok (.bearing [scope])
  | kind =>
    -- a bundle, or a bare word that only the realm registry may define
    match req.resource with
    | some uri =>
      if kind = some .bundle then R.resourceScopePermissions uri scope >>= bundleEntry scope
      else .error (unknownScope scope)
    | none => R.scopePermissions scope >>= bundleEntry scope

/-! ## Resolution -/

structure ScopeWalk where
  grantedScopes : List String
  admitted : Finset Permission
  namedBearing : Bool

variable (full : Option ResolvedPermissions)

/-- With no user, every legal scope is granted and carries no permission. -/
def grantable (perms : List Permission) : Bool :=
  match full with
  | none => true
  | some f => perms.all fun p => p ∈ f.permissions

variable (walk : ScopeWalk)

def ScopeWalk.grant (scope : String) : ScopeWalk :=
  { walk with grantedScopes := walk.grantedScopes ++ [scope] }

def grantScope (scope : String) : Except RbacError ScopeWalk := do
  match ← classifyRequestedScope R req scope with
  | .oidc => .ok (walk.grant scope)
  | .bearing perms => do
    failIf (req.mode = .request && !req.declared.isEmpty && !req.declared.contains scope)
      (.invalidScope s!"scope '{scope}' is not in the client's declared_scopes")
    let named := { walk with namedBearing := true }
    if grantable full perms then
      .ok { named.grant scope with
        admitted := if full.isSome then walk.admitted ∪ perms.toFinset else walk.admitted }
    else if req.trustLevel ≠ .firstParty ∧ req.mode = .request then
      .error (.invalidScope s!"the user does not hold every permission of scope '{scope}'")
    else .ok named

/-- The full set of the request's user, uncapped. -/
def fullOf : Except RbacError (Option ResolvedPermissions) :=
  match req.userId with
  | some user => do
    let full ← R.resolveFullCached user req.orgId
    .ok (some full)
  | none => .ok none

def scopedAnswer : ScopedPermissions :=
  match full with
  | none => ⟨⟨∅, ∅, ∅, ∅⟩, walk.grantedScopes, walk.namedBearing⟩
  | some full =>
    { full with
      permissions :=
        if walk.namedBearing then full.permissions.filter fun p => p ∈ walk.admitted
        else if req.trustLevel = .firstParty then full.permissions
        else ∅
      grantedScopes := walk.grantedScopes
      scopeNarrowed := walk.namedBearing }

def resolveWithScopes : Except RbacError ScopedPermissions := do
  failIf (req.requested.isEmpty && req.trustLevel ≠ .firstParty && req.mode = .request)
    (.invalidScope "third-party clients must request at least one scope")
  let full ← fullOf R req
  let walk ← req.requested.foldlM (grantScope R req full) ⟨[], ∅, req.narrowed⟩
  failIf (!req.requested.isEmpty && walk.grantedScopes.isEmpty)
    (.invalidScope "no requested scope could be granted")
  .ok (scopedAnswer req full walk)

end

/-! ## What an answer is -/

open ScopeWalk (grant)

section

variable (R : Resolver) (req : ScopeRequest)

/-- The scope is permission-bearing, with these permissions. -/
def Bears (scope : String) (perms : List Permission) : Prop :=
  classifyRequestedScope R req scope = .ok (.bearing perms)

/-- Whether the scope is granted. -/
def grants (full : Option ResolvedPermissions) (scope : String) : Bool :=
  match classifyRequestedScope R req scope with
  | .ok .oidc => true
  | .ok (.bearing perms) => grantable full perms
  | .error _ => false

def bearing (scope : String) : Bool :=
  match classifyRequestedScope R req scope with
  | .ok (.bearing _) => true
  | _ => false

/-- The request narrows: it was narrowed before, or names a scope with permissions. -/
def Narrows : Prop := req.narrowed = true ∨ ∃ scope ∈ req.requested, ∃ perms, Bears R req scope perms

def GrantedBy (granted : List String) (p : Permission) : Prop :=
  ∃ scope ∈ granted, ∃ perms, Bears R req scope perms ∧ p ∈ perms

/-- What walking over the scopes `l` does. -/
structure Walked (full : Option ResolvedPermissions) (l : List String) (walk walk' : ScopeWalk) : Prop where
  legal : ∀ scope ∈ l, ∃ entry, classifyRequestedScope R req scope = .ok entry
  granted : walk'.grantedScopes = walk.grantedScopes ++ l.filter (grants R req full)
  named : walk'.namedBearing = (walk.namedBearing || l.any (bearing R req))
  admitted : ∀ p, p ∈ walk'.admitted ↔
    p ∈ walk.admitted ∨ full.isSome ∧ GrantedBy R req (l.filter (grants R req full)) p

variable {R req} {full : Option ResolvedPermissions} {walk walk' : ScopeWalk} {scope : String}
  {l : List String} {p : Permission}

theorem bearing_eq_true : bearing R req scope = true ↔ ∃ perms, Bears R req scope perms := by
  unfold bearing Bears
  split
  · next perms h => simp [h]
  · next hne =>
    refine ⟨nofun, fun ⟨perms, h⟩ => absurd h (hne _)⟩

theorem Walked.nil : Walked R req full [] walk walk :=
  ⟨by simp, by simp, by simp, by simp [GrantedBy]⟩

theorem grantScope_spec (h : grantScope R req full walk scope = .ok walk') :
    Walked R req full [scope] walk walk' := by
  obtain ⟨entry, hentry, h⟩ := bind_eq_ok.1 h
  have hlegal : ∀ s ∈ [scope], ∃ entry, classifyRequestedScope R req s = .ok entry :=
    forall_mem_singleton.2 ⟨entry, hentry⟩
  cases entry with
  | oidc =>
    cases h
    have hgrant : grants R req full scope = true := by rw [grants, hentry]
    have hbear : bearing R req scope = false := by rw [bearing, hentry]
    refine ⟨hlegal, by simp [grant, hgrant], by simp [grant, hbear], fun p => ?_⟩
    simp [grant, GrantedBy, Bears, hentry]
  | bearing perms =>
    have hbear : bearing R req scope = true := by rw [bearing, hentry]
    have hgrant : grants R req full scope = grantable full perms := by rw [grants, hentry]
    obtain ⟨-, -, h⟩ := bind_eq_ok.1 h
    split at h
    · next hg =>
      cases h
      rw [hg] at hgrant
      refine ⟨hlegal, by simp [grant, hgrant], by simp [grant, hbear], fun p => ?_⟩
      simp only [filter_cons, hgrant, if_true, filter_nil, GrantedBy, Bears,
        mem_singleton, exists_eq_left, hentry]
      cases full with
      | none | some f => simp
    · next hg =>
      split at h
      · cases h
      · cases h
        rw [Bool.not_eq_true] at hg
        rw [hg] at hgrant
        exact ⟨hlegal, by simp [hgrant], by simp [hbear], by simp [hgrant, GrantedBy]⟩

theorem grantedBy_append {granted granted'} :
    GrantedBy R req (granted ++ granted') p ↔ GrantedBy R req granted p ∨ GrantedBy R req granted' p := by
  unfold GrantedBy
  simp [or_and_right, exists_or]

theorem Walked.append {walk1 l'} (h1 : Walked R req full l walk walk1)
    (h2 : Walked R req full l' walk1 walk') : Walked R req full (l ++ l') walk walk' where
  legal := forall_mem_append.2 ⟨h1.legal, h2.legal⟩
  granted := by rw [h2.granted, h1.granted, filter_append, append_assoc]
  named := by rw [h2.named, h1.named, any_append, Bool.or_assoc]
  admitted := by
    intro p
    rw [h2.admitted, h1.admitted, filter_append, grantedBy_append, and_or_left, or_assoc]

theorem grantScope_fold (h : l.foldlM (grantScope R req full) walk = .ok walk') :
    Walked R req full l walk walk' := by
  induction l generalizing walk with
  | nil => cases h; exact .nil
  | cons scope l ih =>
    obtain ⟨walk1, h1, h⟩ := bind_eq_ok.1 h
    exact (grantScope_spec h1).append (ih h)

/-- An answer for a user whose full set is `full`. -/
structure Answers (R : Resolver) (req : ScopeRequest) (full : ResolvedPermissions)
    (r : ScopedPermissions) : Prop where
  legal : ∀ scope ∈ req.requested, ∃ entry, classifyRequestedScope R req scope = .ok entry
  granted : r.grantedScopes = req.requested.filter (grants R req (some full))
  narrowed : r.scopeNarrowed = true ↔ Narrows R req
  permissions : ∀ p, p ∈ r.permissions ↔
    if r.scopeNarrowed = true then GrantedBy R req r.grantedScopes p
    else req.trustLevel = .firstParty ∧ p ∈ full.permissions

variable {f : ResolvedPermissions}

theorem mem_full_of_grantedBy
    (h : GrantedBy R req (l.filter (grants R req (some f))) p) : p ∈ f.permissions := by
  obtain ⟨scope, hscope, perms, hbears, hp⟩ := h
  have hgrant := (mem_filter.1 hscope).2
  rw [grants, hbears] at hgrant
  exact of_decide_eq_true (all_eq_true.1 hgrant p hp)

theorem narrows_iff : (req.narrowed || req.requested.any (bearing R req)) = true ↔ Narrows R req := by
  unfold Narrows
  simp [bearing_eq_true]

theorem fullOf_eq {user} (huser : req.userId = some user)
    (hfull : R.resolveFullCached user req.orgId = .ok f) : fullOf R req = .ok (some f) := by
  unfold fullOf
  rw [huser]
  change (R.resolveFullCached user req.orgId >>= _) = _
  rw [hfull]
  rfl

theorem scopedAnswer_answers
    (h : req.requested.foldlM (grantScope R req (some f)) ⟨[], ∅, req.narrowed⟩ = .ok walk) :
    Answers R req f (scopedAnswer req (some f) walk) := by
  have hw := grantScope_fold h
  have hgrant : walk.grantedScopes = req.requested.filter (grants R req (some f)) := hw.granted
  have hnamed : (scopedAnswer req (some f) walk).scopeNarrowed = walk.namedBearing := rfl
  have hadm : ∀ p, p ∈ walk.admitted ↔ GrantedBy R req walk.grantedScopes p := by
    intro p
    rw [hw.admitted, hgrant]
    simp
  constructor
  case legal => exact hw.legal
  case granted => exact hgrant
  case narrowed => rw [hnamed, hw.named, narrows_iff]
  case permissions =>
    intro p
    change p ∈ (if walk.namedBearing = true then f.permissions.filter fun p => p ∈ walk.admitted
      else if req.trustLevel = .firstParty then f.permissions else ∅) ↔ if walk.namedBearing = true then
        GrantedBy R req walk.grantedScopes p else _
    split
    · rw [Finset.mem_filter, hadm]
      refine and_iff_right_of_imp fun hp => ?_
      rw [hgrant] at hp
      exact mem_full_of_grantedBy hp
    · split
      · next hfirst => simp [hfirst]
      · next hfirst => simp [hfirst]

theorem resolveWithScopes_eq_ok {user r}
    (huser : req.userId = some user) (hfull : R.resolveFullCached user req.orgId = .ok f)
    (h : resolveWithScopes R req = .ok r) : Answers R req f r := by
  obtain ⟨-, -, h⟩ := bind_eq_ok.1 h
  obtain ⟨o, ho, h⟩ := bind_eq_ok.1 h
  rw [fullOf_eq huser hfull] at ho
  cases ho
  obtain ⟨walk, hwalk, h⟩ := bind_eq_ok.1 h
  obtain ⟨-, -, h⟩ := bind_eq_ok.1 h
  cases h
  exact scopedAnswer_answers hwalk

end

/-! ## Issuing a grant again -/

section

variable {R R' : Resolver} {req req' : ScopeRequest} {r r' : ScopedPermissions}
  {full full' : ResolvedPermissions} {user user' : UserId} {scope : String}

/-- The request that issues the grant `r` again, for the same client and resource
and against the same registries. -/
structure Reissues (R R' : Resolver) (req req' : ScopeRequest) (r : ScopedPermissions) : Prop where
  scopes : R'.scopePermissions = R.scopePermissions
  resources : R'.resourceScopePermissions = R.resourceScopePermissions
  trustLevel : req'.trustLevel = req.trustLevel
  resource : req'.resource = req.resource
  requested : req'.requested = r.grantedScopes
  narrowed : req'.narrowed = r.scopeNarrowed
  mode : req'.mode = .reissue

section

variable (h : Reissues R R' req req' r)

include h

theorem Reissues.classify (scope : String) :
    classifyRequestedScope R' req' scope = classifyRequestedScope R req scope := by
  unfold classifyRequestedScope
  rw [h.scopes, h.resources, h.trustLevel, h.resource]

theorem Reissues.bears {perms} : Bears R' req' scope perms ↔ Bears R req scope perms := by
  unfold Bears
  rw [h.classify]

theorem Reissues.grantedBy {granted p} : GrantedBy R' req' granted p ↔ GrantedBy R req granted p := by
  unfold GrantedBy
  simp [h.bears]

theorem Reissues.grants (hsame : full'.permissions = full.permissions) :
    grants R' req' (some full') scope = grants R req (some full) scope := by
  unfold Rbac.grants grantable
  simp [h.classify, hsame]

/-- The grant is narrowed again exactly if it was: the recorded flag says so even
where no scope with permissions is left. -/
theorem Reissues.narrows (ha : Answers R req full r) : Narrows R' req' ↔ Narrows R req := by
  rw [← ha.narrowed, ← h.narrowed]
  refine ⟨?_, .inl⟩
  rintro (hn | ⟨scope, hscope, perms, hb⟩)
  · exact hn
  · rw [h.narrowed, ha.narrowed]
    rw [h.requested, ha.granted] at hscope
    exact .inr ⟨scope, (mem_filter.1 hscope).1, perms, h.bears.1 hb⟩

theorem Reissues.subset (ha : Answers R req full r)
    (ha' : Answers R' req' full' r') (hsub : full'.permissions ⊆ full.permissions) :
    r'.permissions ⊆ r.permissions := by
  intro p hp
  rw [ha'.permissions] at hp
  rw [ha.permissions]
  have hflag : r'.scopeNarrowed = true ↔ r.scopeNarrowed = true := by
    rw [ha'.narrowed, ha.narrowed, h.narrows ha]
  by_cases hn : r.scopeNarrowed = true
  · rw [if_pos (hflag.2 hn)] at hp
    rw [if_pos hn]
    obtain ⟨scope, hscope, perms, hb, hp⟩ := h.grantedBy.1 hp
    rw [ha'.granted, h.requested] at hscope
    exact ⟨scope, (mem_filter.1 hscope).1, perms, hb, hp⟩
  · rw [if_neg (fun hc => hn (hflag.1 hc))] at hp
    rw [if_neg hn]
    exact ⟨h.trustLevel ▸ hp.1, hsub hp.2⟩

end

theorem grantScope_fold_reissue (hmode : req.mode = .reissue) (full : Option ResolvedPermissions)
    {l : List String} (hl : ∀ scope ∈ l, ∃ entry, classifyRequestedScope R req scope = .ok entry)
    (walk : ScopeWalk) : ∃ walk', l.foldlM (grantScope R req full) walk = .ok walk' := by
  induction l generalizing walk with
  | nil => exact ⟨walk, rfl⟩
  | cons scope l ih =>
    obtain ⟨⟨entry, hentry⟩, hrest⟩ := forall_mem_cons.1 hl
    -- issued again, no legal scope is refused
    obtain ⟨walk1, h1⟩ : ∃ walk', grantScope R req full walk scope = .ok walk' := by
      unfold grantScope
      rw [hentry]
      cases entry with
      | oidc => exact ⟨_, rfl⟩
      | bearing perms =>
        cases hg : grantable full perms with
        | true | false => exact ⟨_, by simp [hmode, hg]; rfl⟩
    obtain ⟨walk2, h2⟩ := ih hrest _
    exact ⟨walk2, bind_eq_ok.2 ⟨walk1, h1, h2⟩⟩

theorem Reissues.filter_grants (h : Reissues R R' req req' r) (ha : Answers R req full r)
    (hsame : full'.permissions = full.permissions) :
    req'.requested.filter (Rbac.grants R' req' (some full')) = r.grantedScopes := by
  rw [h.requested, ha.granted]
  refine filter_eq_self.2 fun scope hscope => ?_
  rw [h.grants hsame]
  exact (mem_filter.1 hscope).2

theorem Reissues.exact (h : Reissues R R' req req' r) (ha : Answers R req full r)
    (huser : req'.userId = some user') (hfull : R'.resolveFullCached user' req'.orgId = .ok full')
    (hsame : full'.permissions = full.permissions) :
    ∃ r', resolveWithScopes R' req' = .ok r' ∧ r'.permissions = r.permissions ∧
      r'.grantedScopes = r.grantedScopes := by
  have hlegal : ∀ scope ∈ req'.requested, ∃ entry, classifyRequestedScope R' req' scope = .ok entry := by
    intro scope hscope
    rw [h.requested, ha.granted] at hscope
    rw [h.classify]
    exact ha.legal _ (mem_filter.1 hscope).1
  obtain ⟨walk, hwalk⟩ := grantScope_fold_reissue h.mode (some _) hlegal _
  have ha' := scopedAnswer_answers hwalk
  have hgrant : walk.grantedScopes = r.grantedScopes := ha'.granted.trans (h.filter_grants ha hsame)
  refine ⟨scopedAnswer req' (some full') walk, ?_, ?_, hgrant⟩
  · unfold resolveWithScopes
    rw [fullOf_eq huser hfull]
    refine bind_eq_ok.2 ⟨(), failIf_eq_ok.2 (by simp [h.mode]), ?_⟩
    refine bind_eq_ok.2 ⟨some _, rfl, bind_eq_ok.2 ⟨walk, hwalk, ?_⟩⟩
    rw [h.requested, hgrant]
    simp
  · refine antisymm (h.subset ha ha' (hsame ▸ subset_rfl)) fun p hp => ?_
    rw [ha.permissions] at hp
    rw [ha'.permissions]
    have hflag : (scopedAnswer req' (some full') walk).scopeNarrowed = true ↔ r.scopeNarrowed = true := by
      rw [ha'.narrowed, ha.narrowed, h.narrows ha]
    by_cases hn : r.scopeNarrowed = true
    · rw [if_pos hn] at hp
      rw [if_pos (hflag.2 hn), h.grantedBy, ha'.granted, h.filter_grants ha hsame]
      exact hp
    · rw [if_neg hn] at hp
      rw [if_neg (fun hc => hn (hflag.1 hc)), h.trustLevel, hsame]
      exact hp

/-- A grant is within the user's permissions: exactly those of the granted scopes if
it narrows, and otherwise none for a third party. Issued again, for whatever is left
of the user's permissions, it has nothing it did not have, and with the same
permissions it is the same grant. -/
theorem scopes_never_widen (huser : req.userId = some user)
    (hfull : R.resolveFullCached user req.orgId = .ok full) (h : resolveWithScopes R req = .ok r) :
    r.permissions ⊆ full.permissions ∧
      (Narrows R req → ∀ p, p ∈ r.permissions ↔ GrantedBy R req r.grantedScopes p) ∧
      (¬ Narrows R req → req.trustLevel = .thirdParty → r.permissions = ∅) ∧
      ∀ R' req' user' full', Reissues R R' req req' r → req'.userId = some user' →
        R'.resolveFullCached user' req'.orgId = .ok full' →
        (full'.permissions ⊆ full.permissions →
          ∀ r', resolveWithScopes R' req' = .ok r' → r'.permissions ⊆ r.permissions) ∧
        (full'.permissions = full.permissions →
          ∃ r', resolveWithScopes R' req' = .ok r' ∧ r'.permissions = r.permissions ∧
            r'.grantedScopes = r.grantedScopes) := by
  have ha := resolveWithScopes_eq_ok huser hfull h
  refine ⟨fun p hp => ?_, fun hn p => ?_, fun hn hthird => ?_, ?_⟩
  · rw [ha.permissions] at hp
    split at hp
    · rw [ha.granted] at hp
      exact mem_full_of_grantedBy hp
    · exact hp.2
  · rw [ha.permissions, if_pos (ha.narrowed.2 hn)]
  · refine Finset.eq_empty_of_forall_notMem fun p hp => ?_
    rw [ha.permissions, if_neg (fun hc => hn (ha.narrowed.1 hc)), hthird] at hp
    exact nomatch hp.1
  · intro R' req' user' full' hre huser' hfull'
    refine ⟨fun hsub r' hr' => ?_, hre.exact ha huser' hfull'⟩
    exact hre.subset ha (resolveWithScopes_eq_ok huser' hfull' hr') hsub

/-- A user with the given permissions, and one bundle. -/
def bundleResolver (held : Finset Permission) : Resolver where
  resolveFullCached _ _ := .ok ⟨∅, ∅, held, ∅⟩
  scopePermissions name := .ok (if name = "read:docs" then .bundle ["docs.read"] else .missing)
  resourceScopePermissions _ _ := .ok .missing

def bundleRequest (mode : ScopeMode) (narrowed : Bool) : ScopeRequest where
  userId := some ⟨1⟩
  orgId := none
  requested := ["openid", "read:docs"]
  trustLevel := .firstParty
  declared := []
  resource := none
  mode := mode
  narrowed := narrowed

/-- The bundle is granted; issued again when the user has lost it, only what is left
of it can be there. -/
theorem scopes_never_widen_bundle :
    ∃ r, resolveWithScopes (bundleResolver {"docs.read", "docs.write"}) (bundleRequest .request false) =
        .ok r ∧ r.permissions = {"docs.read"} ∧ r.permissions ⊆ {"docs.read", "docs.write"} ∧
      ∀ r', resolveWithScopes (bundleResolver {"docs.write"}) (bundleRequest .reissue true) = .ok r' →
        r'.permissions ⊆ r.permissions := by
  have hok : resolveWithScopes (bundleResolver {"docs.read", "docs.write"}) (bundleRequest .request false) =
      .ok ⟨⟨∅, ∅, {"docs.read"}, ∅⟩, ["openid", "read:docs"], true⟩ := by decide +kernel
  have hall := scopes_never_widen rfl rfl hok
  have hre : Reissues (bundleResolver {"docs.read", "docs.write"}) (bundleResolver {"docs.write"})
      (bundleRequest .request false) (bundleRequest .reissue true)
      ⟨⟨∅, ∅, {"docs.read"}, ∅⟩, ["openid", "read:docs"], true⟩ := ⟨rfl, rfl, rfl, rfl, rfl, rfl, rfl⟩
  exact ⟨_, hok, rfl, hall.1, (hall.2.2.2 _ _ _ _ hre rfl rfl).1 (by decide +kernel)⟩

end

end Hearth.Rbac
