import Mathlib
import Hearth.Base.Run
import Hearth.Base.Worklist
import Hearth.Rbac.Listing
import Hearth.Rbac.Mutate

/-!
# The privilege ceiling on a group's members

A sub-admin may change a group only if every member's admin permissions are among
their own. `checkGroupAdminCeiling` walks the members, resolves the first eight one
by one and after that only those in the set of the realm's admin holders, which it
computes from the roles, their assignments, extra roles and grants.

`userCeiling_covers` and `mem_adminHolders` say what the two halves of the check
establish. Neither sees past the first page of a listing, and no organization is
resolved that only an extra role names; `Seen` says what is left. That it holds of every
member is not necessary: who is not seen may hold no admin permission.
-/

namespace Hearth.Protocol

open Prod (fst snd)

open Base Rbac List Rbac.Graph

def maxCeilingOrgs : Nat := 1000
def maxCeilingUsers : Nat := 10000
def maxCeilingAffectedUsers : Nat := 100000
def ceilingDirectChecks : Nat := 8
def maxCeilingResolutions : Nat := 50000
def maxCeilingRoles : Nat := 10000

def superuserPermission : Permission := "hearth.admin"

def adminPermissions : List Permission :=
  [superuserPermission, "hearth.users.admin", "hearth.clients.admin", "hearth.realm.admin",
    "hearth.agents.admin"]

def isAdminPermission (permission : Permission) : Bool := permission ∈ adminPermissions

def isSuperuser (actor : List Permission) : Bool := superuserPermission ∈ actor

inductive UserCeilingError
  | exceeded
  | unresolved
  deriving DecidableEq, Repr

/-- The admin permissions of `target` that `actor` does not hold. The code returns
the first of them, and its callers ask whether there is one. -/
def adminCeilingGap (actor : List Permission) (target : Finset Permission) : Finset Permission :=
  if isSuperuser actor then ∅ else target.filter fun p => isAdminPermission p ∧ p ∉ actor

/-- A resolver error is a refusal. -/
def orUnresolved {α : Type} : Except RbacError α → Except UserCeilingError α
  | .ok a => .ok a
  | .error _ => .error .unresolved

@[simp] theorem orUnresolved_eq_ok {α : Type} {x} {a : α} : orUnresolved x = .ok a ↔ x = .ok a := by
  cases x with
  | ok b => simp [orUnresolved]
  | error e => exact ⟨nofun, nofun⟩

/-! ## One user -/

section

variable (G : Graph) (orgsOf : UserId → Option (List OrganizationId)) (actor : List Permission)

variable (target : UserId)

/-- One resolution: the budget left, and the admin permissions found so far. -/
def collect (found : Nat × Finset Permission) (org : Option OrganizationId) :
    Except UserCeilingError (Nat × Finset Permission) :=
  match found.1 with
  | 0 => .error .unresolved
  | budget + 1 => do
    let resolved ← orUnresolved (resolvePermissions G target org)
    .ok (budget, found.2 ∪ resolved.permissions.filter fun p => isAdminPermission p)

def addOrg (orgs : List OrganizationId) (org : OrganizationId) :
    Except UserCeilingError (List OrganizationId) := do
  let orgs := orgs.insert org
  failIf (orgs.length > maxCeilingOrgs) .unresolved
  .ok orgs

/-- `orgsOf` is the identity engine's listing of a user's memberships; `none` is a
failed read. -/
def targetAdminPermissions (budget : Nat) : Except UserCeilingError (Nat × Finset Permission) := do
  let found ← collect G target (budget, ∅) none
  let memberships ← okOr (orgsOf target) .unresolved
  let orgs ← memberships.foldlM addOrg []
  let contexts ← orUnresolved (orgContexts G target)
  let orgs ← contexts.foldlM addOrg orgs
  orgs.foldlM (fun found org => collect G target found (some org)) found

/-- Returns the budget left. -/
def userCeiling (budget : Nat) : Except UserCeilingError Nat := do
  let held ← targetAdminPermissions G orgsOf target budget
  failIf (adminCeilingGap actor held.2 ≠ ∅) .exceeded
  .ok held.1

end

/-! ## The realm's admin holders -/

section

variable (G : Graph)

/-- The bound is tested after each page; the list only grows. -/
def allRoles : Except UserCeilingError (List Role) := do
  failIf (G.listedRoles.length > maxCeilingRoles) .unresolved
  .ok G.listedRoles

/-- One role of a pass: taken when a parent is affected and it is not yet. -/
def inheritStep (out : List (RoleId × String)) (r : Role) : List (RoleId × String) :=
  if r.id ∉ out.map fst ∧ ∃ q ∈ r.parentRoles, q ∈ out.map fst then
    out ++ [(r.id, r.name)]
  else out

def inheritPass (all : List Role) (out : List (RoleId × String)) : List (RoleId × String) :=
  all.foldl inheritStep out

/-- The seeds and every role that inherits from one. -/
def inheriting (all seeds : List Role) : List (RoleId × String) :=
  saturate (inheritPass all) all.length (seeds.map fun r => (r.id, r.name))

def addHolder (holders : Finset UserId) (user : UserId) : Except UserCeilingError (Finset UserId) := do
  let holders := insert user holders
  failIf (holders.card > maxCeilingUsers) .unresolved
  .ok holders

/-- One holder of an admin role: a user, or a group to expand later. -/
def addSubject (found : Finset UserId × List GroupId) :
    Subject → Except UserCeilingError (Finset UserId × List GroupId)
  | .user user => do
    let holders ← addHolder found.1 user
    .ok (holders, found.2)
  | .group group => .ok (found.1, group :: found.2)

def groupNodes : Finset GroupId := (G.members.map Membership.group).toFinset

/-- A walk over groups and the members listed for them. -/
def drainGroups {σ : Type} (visit : GroupId → σ → Except UserCeilingError σ) (todo : List GroupId)
    (seen : Finset GroupId) (s : σ) : Except UserCeilingError (Finset GroupId × σ) :=
  drain G.listedGroups visit (pending G.listedGroups (groupNodes G) todo seen) todo seen s

def adminHolders : Except UserCeilingError (Finset UserId) := do
  let all ← allRoles G
  let adminRoles := inheriting all (all.filter fun r => r.permissions.any isAdminPermission)
  let subjects := adminRoles.flatMap fun r => G.listedRoleMembers r.1
  let found ← subjects.foldlM addSubject (∅, [])
  let expanded ← drainGroups G
    (fun group holders => (G.listedUsers group).foldlM addHolder holders) found.2 ∅ found.1
  let names := adminRoles.map snd
  let holders ← (G.listAdditionalRoleHolders names (maxCeilingUsers + 1)).foldlM addHolder expanded.2
  (G.listPermissionGrantees adminPermissions (maxCeilingUsers + 1)).foldlM addHolder holders

end

/-! ## Many users -/

section

/-- `CeilingWalk`, without the engines it reads. -/
structure CeilingWalk where
  users : Finset UserId
  groups : Finset GroupId
  budget : Nat
  holders : Option (Finset UserId)

def CeilingWalk.new : CeilingWalk := ⟨∅, ∅, maxCeilingResolutions, none⟩

variable (G : Graph) (orgsOf : UserId → Option (List OrganizationId)) (actor : List Permission)

variable (walk : CeilingWalk)

def CeilingWalk.resolve (user : UserId) : Except UserCeilingError CeilingWalk := do
  let budget ← userCeiling G orgsOf actor user walk.budget
  .ok { walk with budget := budget }

/-- The admin holders, computed when they are first asked for. -/
def CeilingWalk.currentHolders : Except UserCeilingError (Finset UserId) :=
  match walk.holders with
  | some holders => .ok holders
  | none => adminHolders G

def CeilingWalk.user (user : UserId) : Except UserCeilingError CeilingWalk :=
  if user ∈ walk.users then .ok walk
  else
    let walk := { walk with users := insert user walk.users }
    if walk.users.card > maxCeilingAffectedUsers then .error .unresolved
    else if walk.users.card > ceilingDirectChecks then do
      let holders ← walk.currentHolders G
      let walk := { walk with holders := some holders }
      if user ∈ holders then walk.resolve G orgsOf actor user else .ok walk
    else walk.resolve G orgsOf actor user

/-- Every user listed for `group`, or for a group listed in it. -/
def CeilingWalk.group (group : GroupId) : Except UserCeilingError CeilingWalk := do
  let done ← drainGroups G
    (fun gid walk => (G.listedUsers gid).foldlM (user G orgsOf actor) walk)
    [group] walk.groups walk
  .ok { done.2 with groups := done.1 }

def checkGroupAdminCeiling (group : GroupId) : Except UserCeilingError Unit :=
  if isSuperuser actor then .ok ()
  else do
    let _ ← CeilingWalk.new.group G orgsOf actor group
    .ok ()

end

/-! ## What one user's check establishes -/

section

variable {G : Graph} {orgsOf : UserId → Option (List OrganizationId)} {actor : List Permission}
  {target : UserId} {budget : Nat} {held : Nat × Finset Permission}

/-- The organizations the check resolves a user in: none, a membership, or one that
an org-scoped assignment or grant names. -/
def ListedContext (G : Graph) (orgsOf : UserId → Option (List OrganizationId)) (target : UserId)
    (org : Option OrganizationId) : Prop :=
  ∀ o, org = some o → (∃ orgs, orgsOf target = some orgs ∧ o ∈ orgs) ∨
    (∃ a ∈ G.assignments, a.subject.Covers G target ∧ a.scope = .org o) ∨
    ∃ e ∈ G.grants, e.userId = target ∧ e.scope = .org o

/-- `p` is an admin permission that resolution grants the user in this organization. -/
def GrantsAdmin (G : Graph) (target : UserId) (org : Option OrganizationId) (p : Permission) : Prop :=
  isAdminPermission p ∧ ∃ r, resolveFull G target org = .ok r ∧ p ∈ r.permissions

variable {org : Option OrganizationId} {o : OrganizationId}

theorem resolvePermissions_eq_ok {r}
    (h : resolvePermissions G target org = .ok r) : resolveFull G target org = .ok r := by
  obtain ⟨r', hr, h⟩ := bind_eq_ok.1 h
  obtain ⟨_, -, h⟩ := bind_eq_ok.1 h
  cases h
  exact hr

/-- What one resolution adds to the permissions found. -/
structure Collected (G : Graph) (target : UserId) (org : Option OrganizationId)
    (found found' : Nat × Finset Permission) : Prop where
  keeps : found.2 ⊆ found'.2
  resolves : ∃ r, resolveFull G target org = .ok r
  mem_iff : ∀ p, p ∈ found'.2 ↔ p ∈ found.2 ∨ GrantsAdmin G target org p

theorem collect_spec {found found'}
    (h : collect G target found org = .ok found') : Collected G target org found found' := by
  unfold collect at h
  split at h
  · cases h
  · obtain ⟨r, hr, h⟩ := bind_eq_ok.1 h
    have hfull := resolvePermissions_eq_ok (orUnresolved_eq_ok.1 hr)
    cases h
    refine ⟨Finset.subset_union_left, ⟨r, hfull⟩, fun p => ?_⟩
    rw [Finset.mem_union, Finset.mem_filter]
    refine or_congr .rfl ⟨fun hp => ⟨hp.2, r, hfull, hp.1⟩, ?_⟩
    rintro ⟨hadmin, r', hr', hp⟩
    rw [hfull] at hr'
    exact ⟨Except.ok.inj hr' ▸ hp, hadmin⟩

theorem addOrg_eq_ok {orgs orgs'} (h : addOrg orgs o = .ok orgs') : orgs' = orgs.insert o := by
  obtain ⟨_, -, h⟩ := bind_eq_ok.1 h
  exact (Except.ok.inj h).symm

theorem mem_addOrg_fold {l orgs orgs' : List OrganizationId} (h : l.foldlM addOrg orgs = .ok orgs')
    : o ∈ orgs' ↔ o ∈ orgs ∨ o ∈ l := by
  induction l generalizing orgs with
  | nil => cases h; simp
  | cons a l ih =>
    obtain ⟨orgs1, h1, h⟩ := bind_eq_ok.1 h
    rw [ih h, addOrg_eq_ok h1, mem_insert_iff, mem_cons]
    tauto

theorem collect_fold {l : List OrganizationId} {found found' : Nat × Finset Permission}
    (h : l.foldlM (fun found org => collect G target found (some org)) found = .ok found') :
    (∀ o ∈ l, ∃ r, resolveFull G target (some o) = .ok r) ∧
      ∀ p, p ∈ found'.2 ↔ p ∈ found.2 ∨ ∃ o ∈ l, GrantsAdmin G target (some o) p := by
  induction l generalizing found with
  | nil => cases h; simp
  | cons o l ih =>
    obtain ⟨found1, h1, h⟩ := bind_eq_ok.1 h
    have C := collect_spec h1
    obtain ⟨hres, hmem⟩ := ih h
    refine ⟨forall_mem_cons.2 ⟨C.resolves, hres⟩, fun p => ?_⟩
    rw [hmem, C.mem_iff, exists_mem_cons_iff, or_assoc]

/-- What the check finds: the admin permissions of the listed contexts, each of
which resolves. -/
theorem mem_targetAdminPermissions (h : targetAdminPermissions G orgsOf target budget = .ok held) :
    (∀ org, ListedContext G orgsOf target org → ∃ r, resolveFull G target org = .ok r) ∧
      ∀ p, p ∈ held.2 ↔ ∃ org, ListedContext G orgsOf target org ∧ GrantsAdmin G target org p := by
  obtain ⟨found, hnone, h⟩ := bind_eq_ok.1 h
  obtain ⟨memberships, hmem, h⟩ := bind_eq_ok.1 h
  obtain ⟨orgs1, horgs1, h⟩ := bind_eq_ok.1 h
  obtain ⟨contexts, hctx, h⟩ := bind_eq_ok.1 h
  obtain ⟨orgs, horgs, h⟩ := bind_eq_ok.1 h
  rw [okOr_eq_ok] at hmem
  have C := collect_spec hnone
  obtain ⟨hres, hfound⟩ := collect_fold h
  have hlist : ∀ o, o ∈ orgs ↔ ListedContext G orgsOf target (some o) := by
    intro o
    rw [mem_addOrg_fold horgs, mem_addOrg_fold horgs1, mem_orgContexts (orUnresolved_eq_ok.1 hctx)]
    constructor
    · rintro hin o' ho'
      cases ho'
      rcases hin with (hnil | hin) | hin
      · exact absurd hnil not_mem_nil
      · exact .inl ⟨memberships, hmem, hin⟩
      · exact .inr hin
    · intro hin
      rcases hin o rfl with ⟨orgs', horgs', hin⟩ | hin
      · rw [hmem] at horgs'
        exact .inl (.inr (Option.some.inj horgs' ▸ hin))
      · exact .inr hin
  constructor
  · rintro (_ | o) hctx
    · exact C.resolves
    · exact hres o ((hlist o).2 hctx)
  · intro p
    rw [hfound, C.mem_iff]
    constructor
    · rintro ((hp | hp) | ⟨o, ho, hp⟩)
      · exact absurd hp (Finset.notMem_empty p)
      · exact ⟨none, nofun, hp⟩
      · exact ⟨some o, (hlist o).1 ho, hp⟩
    · rintro ⟨_ | o, hctx, hp⟩
      · exact .inl (.inr hp)
      · exact .inr ⟨o, (hlist o).2 hctx, hp⟩

theorem userCeiling_covers (hactor : isSuperuser actor = false) {left}
    (h : userCeiling G orgsOf actor target budget = .ok left)
    (hctx : ListedContext G orgsOf target org) :
    (∃ r, resolveFull G target org = .ok r) ∧ ∀ p, GrantsAdmin G target org p → p ∈ actor := by
  obtain ⟨held, hheld, h⟩ := bind_eq_ok.1 h
  obtain ⟨_, hgap, -⟩ := bind_eq_ok.1 h
  obtain ⟨hres, hmem⟩ := mem_targetAdminPermissions hheld
  refine ⟨hres org hctx, fun p hp => ?_⟩
  rw [failIf_eq_ok, decide_eq_false_iff_not, not_not] at hgap
  unfold adminCeilingGap at hgap
  rw [hactor, if_neg Bool.false_ne_true, Finset.filter_eq_empty_iff] at hgap
  by_contra hnot
  exact hgap ((hmem p).2 ⟨org, hctx, hp⟩) ⟨hp.1, hnot⟩

/-- A permission of an unlisted organization is one of the realm's, or comes from an
extra role there. -/
theorem source_of_unlisted {p}
    (hctx : ¬ ListedContext G orgsOf target (some o)) (h : Source G target (some o) p) :
    Source G target none p ∨ ∃ row ∈ G.orgRoles, row.org = o ∧ row.user = target ∧
      ∃ i, G.getRoleIdByName row.role = some i ∧ RoleGrants G i p := by
  have hnamed : ∀ s : Scope, s.applies (some o) = true → s ≠ .org o → s.applies none = true := by
    intro s happ hne
    cases s with
    | realm => rfl
    | org oid =>
      have : o = oid := by simpa [Scope.applies] using happ
      exact absurd (this ▸ rfl) hne
  cases h with
  | @assigned a _ ha hcov happ hg =>
    refine .inl (.assigned ha hcov (hnamed _ happ fun hs => hctx ?_) hg)
    rintro _ ⟨⟩
    exact .inr (.inl ⟨a, ha, hcov, hs⟩)
  | @granted e he hu happ =>
    refine .inl (.granted he hu (hnamed _ happ fun hs => hctx ?_))
    rintro _ ⟨⟩
    exact .inr (.inr ⟨e, he, hu, hs⟩)
  | extra hrow horg hu hi hg => exact .inr ⟨_, hrow, (Option.some.inj horg).symm, hu, _, hi, hg⟩

/-- Given that the check answered, it found the admin permissions of every
organization if and only if an extra role in an unlisted one grants no admin
permission that no listed context grants. -/
theorem target_permissions_complete_iff
    (h : targetAdminPermissions G orgsOf target budget = .ok held) :
    (∀ org p, GrantsAdmin G target org p → p ∈ held.2) ↔
      ∀ row ∈ G.orgRoles, row.user = target → ¬ ListedContext G orgsOf target (some row.org) →
        (∃ r, resolveFull G target (some row.org) = .ok r) →
        ∀ i p, G.getRoleIdByName row.role = some i → RoleGrants G i p → isAdminPermission p →
          G.permissionArchived p = false →
          ∃ org, ListedContext G orgsOf target org ∧ Source G target org p := by
  obtain ⟨hres, hmem⟩ := mem_targetAdminPermissions h
  constructor
  · rintro hall row hrow hu - ⟨r, hr⟩ i p hi hg hadmin harch
    have hp : GrantsAdmin G target (some row.org) p :=
      ⟨hadmin, r, hr, (resolveFull_permissions hr).2 ⟨.extra hrow rfl hu hi hg, harch⟩⟩
    obtain ⟨org, hctx, -, r', hr', hp'⟩ := (hmem p).1 (hall _ p hp)
    exact ⟨org, hctx, ((resolveFull_permissions hr').1 hp').1⟩
  · intro hextra org p hp
    obtain ⟨hadmin, r, hr, hpr⟩ := hp
    obtain ⟨hs, harch⟩ := (resolveFull_permissions hr).1 hpr
    -- a source in a listed context is found there
    have hfound : ∀ org', ListedContext G orgsOf target org' → Source G target org' p → p ∈ held.2 := by
      intro org' hctx hs'
      obtain ⟨r', hr'⟩ := hres org' hctx
      exact (hmem p).2 ⟨org', hctx, hadmin, r', hr', (resolveFull_permissions hr').2 ⟨hs', harch⟩⟩
    by_cases hlist : ListedContext G orgsOf target org
    · exact hfound org hlist hs
    · cases org with
      | none => exact absurd nofun hlist
      | some o =>
        rcases source_of_unlisted hlist hs with hs0 | ⟨row, hrow, rfl, hu, i, hi, hg⟩
        · exact hfound none nofun hs0
        · obtain ⟨org', hctx, hs'⟩ := hextra row hrow hu hlist ⟨r, hr⟩ i p hi hg hadmin harch
          exact hfound org' hctx hs'

def ownerRole : Role := ⟨⟨0⟩, "owner", [superuserPermission], [], .realm, .active, false⟩

/-- One admin role that user 1 has as an extra role of the organization 7. -/
def extraOwner : Graph where
  __ := Graph.empty
  roles := [ownerRole]
  orgRoles := [⟨⟨7⟩, ⟨1⟩, "owner"⟩]
  nodup_ids := by simp
  nodup_names := by simp

theorem owner_reachable :
    Reachable (· = .empty) (fun G G' => ∃ op, Call op G G') (empty.insertRole ownerRole nofun nofun) :=
  .next (.start rfl) ⟨.createRole ⟨0⟩ ⟨"owner", [superuserPermission], [], .realm, true⟩,
    .accepted ⟨freshRole_empty _, by decide +kernel⟩⟩

theorem target_permissions_complete_iff_owner :
    ∃ held, targetAdminPermissions extraOwner (fun _ => some [⟨7⟩]) ⟨1⟩ 2 = .ok held ∧
      ((∀ org p, GrantsAdmin extraOwner ⟨1⟩ org p → p ∈ held.2) ↔
        ∀ row ∈ extraOwner.orgRoles, row.user = ⟨1⟩ →
          ¬ ListedContext extraOwner (fun _ => some [⟨7⟩]) ⟨1⟩ (some row.org) →
          (∃ r, resolveFull extraOwner ⟨1⟩ (some row.org) = .ok r) →
          ∀ i p, extraOwner.getRoleIdByName row.role = some i → RoleGrants extraOwner i p →
            isAdminPermission p → extraOwner.permissionArchived p = false →
            ∃ org, ListedContext extraOwner (fun _ => some [⟨7⟩]) ⟨1⟩ org ∧
              Source extraOwner ⟨1⟩ org p) := by
  have hok : targetAdminPermissions extraOwner (fun _ => some [⟨7⟩]) ⟨1⟩ 2 =
      .ok (0, {superuserPermission}) := by decide +kernel
  exact ⟨_, hok, target_permissions_complete_iff hok⟩

/-- `add_additional_role` looks up no membership, so the user may be in no
organization at all: nothing then lists the organization whose extra role makes
them a superuser. -/
theorem target_permissions_miss_extra_role :
    Reachable (· = .empty) (fun G G' => ∃ op, Call op G G') extraOwner ∧
      targetAdminPermissions extraOwner (fun _ => some []) ⟨1⟩ maxCeilingResolutions =
        .ok (maxCeilingResolutions - 1, ∅) ∧
      GrantsAdmin extraOwner ⟨1⟩ (some ⟨7⟩) superuserPermission := by
  refine ⟨?_, by decide +kernel, by decide +kernel, ?_⟩
  · exact owner_reachable.next ⟨.addAdditionalRole ⟨⟨7⟩, ⟨1⟩, "owner"⟩,
      .accepted (show _ = addAdditionalRole _ _ by decide +kernel)⟩
  · exact ⟨⟨{"owner"}, ∅, {superuserPermission}, ∅⟩, by decide +kernel, by decide +kernel⟩

end

/-! ## What the set of admin holders contains -/

section

variable {G : Graph} {all seeds : List Role} {out : List (RoleId × String)} {holders holders' : Finset UserId}

theorem inheritStep_cases (out) (r : Role) :
    (inheritStep out r = out ∧ ((∃ q ∈ r.parentRoles, q ∈ out.map fst) → r.id ∈ out.map fst)) ∨
      (r.id ∉ out.map fst ∧ inheritStep out r = out ++ [(r.id, r.name)]) := by
  unfold inheritStep
  split
  · next h => exact .inr ⟨h.1, rfl⟩
  · next h => exact .inl ⟨rfl, fun hq => by_contra fun hn => h ⟨hn, hq⟩⟩

/-- What a pass appends: roles of `all` that were not in the list. -/
theorem inheritPass_eq (all : List Role) (out) : ∃ extra, inheritPass all out = out ++ extra ∧
    ∀ x ∈ extra, x.1 ∉ out.map fst ∧ ∃ r ∈ all, x = (r.id, r.name) := by
  unfold inheritPass
  induction all generalizing out with
  | nil => exact ⟨[], (append_nil out).symm, by simp⟩
  | cons r all ih =>
    rw [foldl_cons]
    obtain ⟨extra, heq, hextra⟩ := ih (inheritStep out r)
    rcases inheritStep_cases out r with ⟨hs, -⟩ | ⟨hnew, hs⟩ <;> rw [hs] at heq hextra ⊢
    · refine ⟨extra, heq, fun x hx => ?_⟩
      obtain ⟨hx, r', hr', he⟩ := hextra x hx
      exact ⟨hx, r', mem_cons_of_mem _ hr', he⟩
    · refine ⟨(r.id, r.name) :: extra, by rw [heq, append_assoc]; rfl, fun x hx => ?_⟩
      rcases mem_cons.1 hx with rfl | hx
      · exact ⟨hnew, r, mem_cons_self, rfl⟩
      · obtain ⟨hx, r', hr', he⟩ := hextra x hx
        rw [map_append, mem_append, not_or] at hx
        exact ⟨hx.1, r', mem_cons_of_mem _ hr', he⟩

theorem prefix_inheritPass (all : List Role) (out) : out <+: inheritPass all out := by
  obtain ⟨extra, heq, -⟩ := inheritPass_eq all out
  exact heq ▸ prefix_append ..

/-- A pass that adds nothing finds no role with a parent in the list outside it. -/
theorem closed_of_inheritPass_eq (h : inheritPass all out = out) {r} (hr : r ∈ all) {q}
    (hq : q ∈ r.parentRoles) (hin : q ∈ out.map fst) : r.id ∈ out.map fst := by
  induction all with
  | nil => exact absurd hr not_mem_nil
  | cons r' all ih =>
    have hrest : inheritStep out r' <+: out := by
      have := prefix_inheritPass all (inheritStep out r')
      rwa [show inheritPass all (inheritStep out r') = out from h] at this
    -- the rest only appends, so the first step adds nothing either
    rcases inheritStep_cases out r' with ⟨hs, hclos⟩ | ⟨-, hs⟩
    · rcases mem_cons.1 hr with rfl | hr
      · exact hclos ⟨q, hq, hin⟩
      · refine ih ?_ hr
        rw [inheritPass, foldl_cons, hs] at h
        exact h
    · rw [hs] at hrest
      exact absurd hrest.length_le (by simp)

/-- The roles of `all` that are not in the list: what every growing pass lowers. -/
def missingRoles (all : List Role) (out : List (RoleId × String)) : Nat :=
  ((all.map Role.id).toFinset \ (out.map fst).toFinset).card

theorem missingRoles_lt (h : inheritPass all out ≠ out) :
    missingRoles all (inheritPass all out) < missingRoles all out := by
  obtain ⟨extra, heq, hextra⟩ := inheritPass_eq all out
  cases extra with
  | nil => exact absurd (heq.trans (append_nil out)) h
  | cons x extra =>
    obtain ⟨hnew, r, hr, he⟩ := hextra x mem_cons_self
    have hx : x.1 = r.id := by rw [he]
    refine Finset.card_lt_card (Finset.ssubset_iff_of_subset ?_ |>.2 ⟨r.id, ?_, ?_⟩)
    · refine Finset.sdiff_subset_sdiff subset_rfl ?_
      intro i hi
      rw [mem_toFinset, heq, map_append] at *
      exact mem_append_left _ hi
    · rw [Finset.mem_sdiff, mem_toFinset, mem_toFinset]
      exact ⟨mem_map_of_mem hr, hx ▸ hnew⟩
    · rw [Finset.mem_sdiff, not_and, not_not]
      intro _
      rw [mem_toFinset, heq, map_append, map_cons, hx]
      exact mem_append_right _ mem_cons_self

/-- `inheriting` holds the seeds, only roles of the realm, and the children of all it
holds. -/
theorem inheriting_spec (all seeds : List Role) (hseeds : ∀ r ∈ seeds, r ∈ all) :
    (∀ r ∈ seeds, r.id ∈ (inheriting all seeds).map fst) ∧
      (∀ x ∈ inheriting all seeds, ∃ r ∈ all, x = (r.id, r.name)) ∧
      ∀ r ∈ all, ∀ q ∈ r.parentRoles, q ∈ (inheriting all seeds).map fst →
        r.id ∈ (inheriting all seeds).map fst := by
  have hfix : inheritPass all (inheriting all seeds) = inheriting all seeds := by
    refine saturate_fixed (prefix_inheritPass all) _ (fun _ => missingRoles_lt) ?_
    calc missingRoles all _ ≤ (all.map Role.id).toFinset.card := Finset.card_le_card Finset.sdiff_subset
      _ ≤ all.length := (toFinset_card_le _).trans_eq (length_map _)
  refine ⟨fun r hr => ?_, ?_, fun r hr q => closed_of_inheritPass_eq hfix hr⟩
  · refine saturate_invariant (I := fun out => r.id ∈ out.map _) (fun out hout => ?_) ?_
    · obtain ⟨extra, heq, -⟩ := inheritPass_eq all out
      rw [heq, map_append]
      exact mem_append_left _ hout
    · rw [List.map_map]
      exact mem_map_of_mem hr
  · refine saturate_invariant (I := fun out => ∀ x ∈ out, ∃ r ∈ all, x = (r.id, r.name))
      (fun out hout => ?_) ?_
    · obtain ⟨extra, heq, hextra⟩ := inheritPass_eq all out
      rw [heq]
      exact forall_mem_append.2 ⟨hout, fun x hx => (hextra x hx).2⟩
    · intro x hx
      obtain ⟨r, hr, rfl⟩ := mem_map.1 hx
      exact ⟨r, hseeds r hr, rfl⟩

theorem addHolder_eq_ok {user} (h : addHolder holders user = .ok holders') :
    holders' = insert user holders ∧ holders'.card ≤ maxCeilingUsers := by
  obtain ⟨_, hcard, h⟩ := bind_eq_ok.1 h
  cases h
  rw [failIf_eq_ok, decide_eq_false_iff_not, not_lt] at hcard
  exact ⟨rfl, hcard⟩

theorem addHolder_fold {users} (h : users.foldlM addHolder holders = .ok holders') :
    holders ⊆ holders' ∧ (∀ u ∈ users, u ∈ holders') ∧
      (users ≠ [] → holders'.card ≤ maxCeilingUsers) := by
  induction users generalizing holders with
  | nil => cases h; exact ⟨subset_rfl, by simp, absurd rfl⟩
  | cons u users ih =>
    obtain ⟨h1, hu, h⟩ := bind_eq_ok.1 h
    obtain ⟨rfl, hcard⟩ := addHolder_eq_ok hu
    obtain ⟨hsub, hall, hc⟩ := ih h
    refine ⟨(Finset.subset_insert u _).trans hsub,
      forall_mem_cons.2 ⟨hsub (Finset.mem_insert_self ..), hall⟩, fun _ => ?_⟩
    cases users with
    | nil => cases h; exact hcard
    | cons v users => exact hc (by simp)

/-- A list cut at one more than the bound is whole, or the holders overflow. -/
theorem mem_of_addHolder_distinct {users u}
    (h : (distinctUpTo (maxCeilingUsers + 1) users).foldlM addHolder holders = .ok holders')
    (hu : u ∈ users) : u ∈ holders' := by
  obtain ⟨-, hall, hcard⟩ := addHolder_fold h
  refine hall u (mem_distinctUpTo (Nat.lt_succ_of_le ?_) hu)
  by_cases hne : distinctUpTo (maxCeilingUsers + 1) users = []
  · rw [hne]
    exact Nat.zero_le _
  · rw [← toFinset_card_of_nodup nodup_distinctUpTo]
    refine (Finset.card_le_card fun v hv => ?_).trans (hcard hne)
    exact hall v (mem_toFinset.1 hv)

/-- A subject has been taken in: a user as a holder, a group to expand. -/
def TakenIn (found : Finset UserId × List GroupId) : Subject → Prop
  | .user u => u ∈ found.1
  | .group g => g ∈ found.2

theorem addSubject_spec {found found' s} (h : addSubject found s = .ok found') :
    found.1 ⊆ found'.1 ∧ found.2 ⊆ found'.2 ∧ TakenIn found' s := by
  cases s with
  | user u =>
    obtain ⟨holders, hu, h⟩ := bind_eq_ok.1 h
    obtain ⟨rfl, -⟩ := addHolder_eq_ok hu
    cases h
    exact ⟨Finset.subset_insert .., .refl _, Finset.mem_insert_self ..⟩
  | group g =>
    cases h
    exact ⟨subset_rfl, subset_cons_self .., mem_cons_self⟩

theorem addSubject_fold {subjects : List Subject} {found found'}
    (h : subjects.foldlM addSubject found = .ok found') : ∀ s ∈ subjects, TakenIn found' s := by
  refine (foldlM_spec (Q := fun s found => TakenIn _ s)
    (fun _ _ _ _ hs => ⟨trivial, (addSubject_spec hs).2.2⟩) (fun found s t found' _ hin ht => ?_)
    trivial h).2
  obtain ⟨hu, hg, -⟩ := addSubject_spec ht
  cases s with
  | user u => exact hu hin
  | group g => exact hg hin

/-- Everything that makes a user an admin is where the listings show it: the roles,
their assignments, and the user in each group it is in. -/
structure HolderListed (G : Graph) (u : UserId) : Prop where
  roles : ∀ r ∈ G.roles, r ∈ G.listedRoles
  assignments : ∀ a ∈ G.assignments, a.subject ∈ G.listedRoleMembers a.roleId
  groups : ∀ g, MemberOf G (.user u) g → ListedMember G (.user u) g

/-- The worklist over groups reaches every group listed below one it starts from. -/
theorem drainGroups_closed {σ : Type} {visit todo seen seen'} {s s' : σ}
    (hclos : ∀ g ∈ seen, ∀ h ∈ G.listedGroups g, h ∈ seen)
    (h : drainGroups G visit todo seen s = .ok (seen', s')) :
    seen ⊆ seen' ∧ (∀ g ∈ todo, g ∈ seen') ∧ ∀ g ∈ seen', ∀ h ∈ G.listedGroups g, h ∈ seen' := by
  refine drain_closed (fun g hg => ?_) le_rfl (fun g hg h hh => .inl (hclos g hg h hh)) h
  -- a group with no member lists none
  refine eq_nil_iff_forall_not_mem.2 fun k hk => hg ?_
  rw [mem_listedGroups, listedGroupMembers_eq] at hk
  rw [groupNodes, mem_toFinset, mem_map]
  exact ⟨_, mem_membersOf.1 (mem_of_mem_take hk), rfl⟩

/-- A set of groups that its listed subgroups do not leave holds the users listed
below its groups. -/
theorem mem_users_of_listedMember {u : UserId} {g : GroupId} {groups : Finset GroupId} {users : Finset UserId}
    (hclos : ∀ g ∈ groups, ∀ h ∈ G.listedGroups g, h ∈ groups)
    (husers : ∀ g ∈ groups, ∀ u ∈ G.listedUsers g, u ∈ users) (h : ListedMember G (.user u) g)
    (hg : g ∈ groups) : u ∈ users := by
  induction h with
  | direct hd => exact husers _ hg u (mem_listedUsers.2 hd)
  | nested _ hd ih => exact ih (hclos _ hg _ (mem_listedGroups.2 hd))

variable {u : UserId} {org : Option OrganizationId} {p : Permission}

/-- The admin roles: a role that grants an admin permission, itself or through its
parents, is found. -/
theorem mem_adminRoles (hl : ∀ r ∈ G.roles, r ∈ G.listedRoles) {i} (hadmin : isAdminPermission p)
    (hg : RoleGrants G i p) :
    i ∈ (inheriting G.listedRoles
      (G.listedRoles.filter fun r => r.permissions.any isAdminPermission)).map fst := by
  obtain ⟨hseeds, -, hclos⟩ := inheriting_spec _
    (G.listedRoles.filter fun r => r.permissions.any isAdminPermission)
    (fun r hr => (mem_filter.1 hr).1)
  induction hg with
  | own ha hp =>
    have hrole := (getRole_eq_some.1 ha.1).1
    rw [← ha.id_eq]
    exact hseeds _ (mem_filter.2 ⟨hl _ hrole, any_eq_true.2 ⟨_, hp, hadmin⟩⟩)
  | inherited ha hq _ ih =>
    rw [← ha.id_eq]
    exact hclos _ (hl _ (getRole_eq_some.1 ha.1).1) _ hq (ih hadmin)

/-- A user whose authority the listings show is among the admin holders. -/
theorem mem_adminHolders (h : adminHolders G = .ok holders) (hl : HolderListed G u)
    (hadmin : isAdminPermission p) (hs : Source G u org p) : u ∈ holders := by
  obtain ⟨all, hall, h⟩ := bind_eq_ok.1 h
  obtain ⟨_, -, hall⟩ := bind_eq_ok.1 hall
  cases hall
  obtain ⟨found, hfound, h⟩ := bind_eq_ok.1 h
  obtain ⟨⟨seen, expanded⟩, hdrain, h⟩ := bind_eq_ok.1 h
  obtain ⟨holders1, hextra, h⟩ := bind_eq_ok.1 h
  have hsub1 : expanded ⊆ holders1 := (addHolder_fold hextra).1
  have hsub : holders1 ⊆ holders := (addHolder_fold h).1
  -- the groups that were expanded, and the users found in them
  obtain ⟨-, htodo, hclos⟩ := drainGroups_closed (by simp) hdrain
  have hexp : found.1 ⊆ expanded ∧ ∀ g ∈ seen, ∀ u ∈ G.listedUsers g, u ∈ expanded := by
    refine drain_invariant (I := fun seen s => found.1 ⊆ s ∧ ∀ g ∈ seen, ∀ u ∈ G.listedUsers g, u ∈ s)
      (fun g seen s s' _ hI hv => ?_) ⟨subset_rfl, by simp⟩ hdrain
    obtain ⟨hss, husers, -⟩ := addHolder_fold hv
    exact ⟨hI.1.trans hss, (Finset.forall_mem_insert ..).2 ⟨husers, fun k hk v hin => hss (hI.2 k hk v hin)⟩⟩
  cases hs with
  | @assigned a _ ha hcov _ hg =>
    obtain ⟨x, hx, hxa⟩ := mem_map.1 (mem_adminRoles hl.roles hadmin hg)
    have hsubject := addSubject_fold hfound _ (mem_flatMap.2 ⟨x, hx, hxa ▸ hl.assignments a ha⟩)
    refine hsub (hsub1 ?_)
    cases hsubj : a.subject with
    | user v =>
      rw [hsubj] at hsubject hcov
      exact hexp.1 (hcov ▸ hsubject)
    | group g =>
      rw [hsubj] at hsubject hcov
      exact mem_users_of_listedMember hclos hexp.2 (hl.groups g hcov) (htodo g hsubject)
  | @granted e he hu _ =>
    refine mem_of_addHolder_distinct h ?_
    rw [← hu]
    refine mem_map_of_mem (mem_filter.2 ⟨he, ?_⟩)
    exact hadmin
  | @extra row i _ hrow _ hu hi hg =>
    refine hsub (mem_of_addHolder_distinct hextra ?_)
    rw [← hu]
    refine mem_map_of_mem (mem_filter.2 ⟨hrow, ?_⟩)
    -- the row's name is the name of the admin role it leads to
    obtain ⟨x, hx, hxi⟩ := mem_map.1 (mem_adminRoles hl.roles hadmin hg)
    obtain ⟨r, hr, hname, hid⟩ := getRoleIdByName_eq_some.1 hi
    obtain ⟨-, hroles, -⟩ := inheriting_spec _ _ (fun r hr => (mem_filter.1 hr).1)
    obtain ⟨r', hr', rfl⟩ := hroles x hx
    have heq : r' = r := inj_on_of_nodup_map G.nodup_ids (mem_of_mem_listedRoles hr') hr
      (hxi.trans hid.symm)
    rw [decide_eq_true_eq, ← hname, ← heq]
    exact mem_map_of_mem hx

end

/-! ## What the walk establishes -/

section

/-- A user the walk let pass: resolved within the ceiling, or no admin holder. -/
def Cleared (G : Graph) (orgsOf : UserId → Option (List OrganizationId)) (actor : List Permission)
    (u : UserId) : Prop :=
  (∃ budget left, userCeiling G orgsOf actor u budget = .ok left) ∨
    ∃ holders, adminHolders G = .ok holders ∧ u ∉ holders

structure CeilingWalk.Inv (G : Graph) (orgsOf : UserId → Option (List OrganizationId))
    (actor : List Permission) (walk : CeilingWalk) : Prop where
  cleared : ∀ u ∈ walk.users, Cleared G orgsOf actor u
  holders : ∀ holders, walk.holders = some holders → adminHolders G = .ok holders

variable {G : Graph} {orgsOf : UserId → Option (List OrganizationId)} {actor : List Permission}
  {walk walk' : CeilingWalk} {u : UserId}

theorem CeilingWalk.Inv.new : new.Inv G orgsOf actor :=
  ⟨by simp [CeilingWalk.new], nofun⟩

theorem CeilingWalk.Inv.user (hI : walk.Inv G orgsOf actor)
    (h : walk.user G orgsOf actor u = .ok walk') :
    walk'.Inv G orgsOf actor ∧ walk'.users = insert u walk.users ∧ walk'.groups = walk.groups := by
  -- a user that is cleared joins the others
  have hjoin : ∀ budget holders, Cleared G orgsOf actor u →
      (∀ h, holders = some h → adminHolders G = .ok h) →
      Inv G orgsOf actor ⟨insert u walk.users, walk.groups, budget, holders⟩ := by
    intro budget holders hclear hholders
    exact ⟨(Finset.forall_mem_insert ..).2 ⟨hclear, hI.cleared⟩, hholders⟩
  unfold CeilingWalk.user at h
  split at h
  · next hu =>
    cases h
    exact ⟨hI, (Finset.insert_eq_of_mem hu).symm, rfl⟩
  · dsimp only at h
    split at h
    · cases h
    · split at h
      · obtain ⟨holders, hh, h⟩ := bind_eq_ok.1 h
        have hok : adminHolders G = .ok holders := by
          unfold currentHolders at hh
          split at hh
          · next hs => cases hh; exact hI.holders _ hs
          · exact hh
        have hsome : ∀ h, some holders = some h → adminHolders G = .ok h := by
          rintro _ ⟨⟩
          exact hok
        split at h
        · obtain ⟨left, hl, h⟩ := bind_eq_ok.1 h
          cases h
          exact ⟨hjoin _ _ (.inl ⟨_, _, hl⟩) hsome, rfl, rfl⟩
        · next hnot =>
          cases h
          exact ⟨hjoin _ _ (.inr ⟨_, hok, hnot⟩) hsome, rfl, rfl⟩
      · obtain ⟨left, hl, h⟩ := bind_eq_ok.1 h
        cases h
        exact ⟨hjoin _ _ (.inl ⟨_, _, hl⟩) hI.holders, rfl, rfl⟩

theorem CeilingWalk.Inv.users {l : List UserId} (hI : walk.Inv G orgsOf actor)
    (h : l.foldlM (CeilingWalk.user G orgsOf actor) walk = .ok walk') :
    walk'.Inv G orgsOf actor ∧ walk.users ⊆ walk'.users ∧ ∀ u ∈ l, u ∈ walk'.users := by
  obtain ⟨⟨hI', hsub⟩, hall⟩ := foldlM_spec
    (P := fun w => w.Inv G orgsOf actor ∧ walk.users ⊆ w.users) (Q := fun u w => u ∈ w.users)
    (fun w u w' hw hu => by
      obtain ⟨hw', husers, -⟩ := hw.1.user hu
      rw [husers]
      exact ⟨⟨hw', hw.2.trans (Finset.subset_insert ..)⟩, Finset.mem_insert_self ..⟩)
    (fun w u v w' hw hu hv => by
      rw [(hw.1.user hv).2.1]
      exact Finset.mem_insert_of_mem hu) ⟨hI, subset_rfl⟩ h
  exact ⟨hI', hsub, hall⟩

/-- The groups taken in are closed under the listing, and so are their users. -/
structure CeilingWalk.Walked (G : Graph) (walk : CeilingWalk) : Prop where
  closed : ∀ g ∈ walk.groups, ∀ h ∈ G.listedGroups g, h ∈ walk.groups
  users : ∀ g ∈ walk.groups, ∀ u ∈ G.listedUsers g, u ∈ walk.users

theorem CeilingWalk.Inv.group {g : GroupId} (hI : walk.Inv G orgsOf actor) (hW : walk.Walked G)
    (h : walk.group G orgsOf actor g = .ok walk') :
    walk'.Inv G orgsOf actor ∧ walk'.Walked G ∧ walk.users ⊆ walk'.users ∧ walk.groups ⊆ walk'.groups ∧
      g ∈ walk'.groups := by
  obtain ⟨⟨seen, done⟩, hdrain, h⟩ := bind_eq_ok.1 h
  cases h
  obtain ⟨hseen, htodo, hclos⟩ := drainGroups_closed hW.closed hdrain
  obtain ⟨hI', hsub, husers⟩ := drain_invariant
    (I := fun seen w => Inv G _ _ w ∧ walk.users ⊆ w.users ∧
      ∀ g ∈ seen, ∀ u ∈ G.listedUsers g, u ∈ w.users)
    (fun g seen w w' _ hw hv => by
      obtain ⟨hw', hss, hall⟩ := hw.1.users hv
      exact ⟨hw', hw.2.1.trans hss, (Finset.forall_mem_insert ..).2
        ⟨hall, fun k hk v hin => hss (hw.2.2 k hk v hin)⟩⟩) ⟨hI, subset_rfl, hW.users⟩ hdrain
  exact ⟨⟨hI'.cleared, hI'.holders⟩, ⟨hclos, husers⟩, hsub, hseen, htodo g (mem_singleton_self g)⟩

/-- A cleared user whose authority the listings show holds no admin permission the
actor lacks. -/
theorem Cleared.covers (hactor : isSuperuser actor = false) (hc : Cleared G orgsOf actor u)
    (hl : HolderListed G u) {org p}
    (hctx : ∀ o, org = some o → ListedContext G orgsOf u org ∨
      ∀ row ∈ G.orgRoles, row.user = u → row.org ≠ o) (hp : GrantsAdmin G u org p) : p ∈ actor := by
  obtain ⟨hadmin, r, hr, hpr⟩ := hp
  obtain ⟨hs, harch⟩ := (resolveFull_permissions hr).1 hpr
  rcases hc with ⟨budget, left, hu⟩ | ⟨holders, hh, hnot⟩
  · by_cases hlist : ListedContext G orgsOf u org
    · exact (userCeiling_covers hactor hu hlist).2 p ⟨hadmin, r, hr, hpr⟩
    · cases org with
      | none => exact absurd nofun hlist
      | some o =>
        -- an unlisted organization without extra roles grants what the realm grants
        have hnone : ListedContext G orgsOf u none := nofun
        obtain ⟨⟨r0, hr0⟩, hcov⟩ := userCeiling_covers hactor hu hnone
        rcases source_of_unlisted hlist hs with hs0 | ⟨row, hrow, horg, huser, -⟩
        · exact hcov p ⟨hadmin, r0, hr0, (resolveFull_permissions hr0).2 ⟨hs0, harch⟩⟩
        · exact absurd horg ((hctx o rfl).resolve_left hlist row hrow huser)
  · exact absurd (mem_adminHolders hh hl hadmin hs) hnot

end

/-! ## The group ceiling -/

section

variable {G : Graph} {orgsOf : UserId → Option (List OrganizationId)} {actor : List Permission}
  {group : GroupId} {u : UserId} {org : Option OrganizationId}

/-- The check sees the user's authority in this organization: the user is listed in
the group, its roles and groups are listed, and an extra role of the user in the
organization is in a context that is resolved. -/
structure Seen (G : Graph) (orgsOf : UserId → Option (List OrganizationId)) (group : GroupId)
    (u : UserId) (org : Option OrganizationId) : Prop where
  member : ListedMember G (.user u) group
  holder : HolderListed G u
  context : ∀ o, org = some o → ListedContext G orgsOf u org ∨
    ∀ row ∈ G.orgRoles, row.user = u → row.org ≠ o

/-- A passed check bounds the authority of every member it sees. -/
theorem checkGroupAdminCeiling_covers (hactor : isSuperuser actor = false)
    (h : checkGroupAdminCeiling G orgsOf actor group = .ok ()) (hseen : Seen G orgsOf group u org)
    {p : Permission} (hp : GrantsAdmin G u org p) : p ∈ actor := by
  unfold checkGroupAdminCeiling at h
  rw [hactor] at h
  obtain ⟨walk, hwalk, -⟩ := bind_eq_ok.1 h
  obtain ⟨hI, hW, -, -, hg⟩ := CeilingWalk.Inv.new.group
    ⟨by simp [CeilingWalk.new], by simp [CeilingWalk.new]⟩ hwalk
  have hu : u ∈ walk.users := mem_users_of_listedMember hW.closed hW.users hseen.member hg
  exact (hI.cleared u hu).covers hactor hseen.holder hseen.context hp

/-- A realm with one admin role, held by user 200, and a group of the users 0 to
`size - 1`. -/
def crowd (size : Nat) : Graph where
  roles := [⟨⟨0⟩, "realm.admin", [superuserPermission], [], .realm, .active, false⟩]
  members := (range size).map fun n => ⟨⟨0⟩, .user ⟨n⟩⟩
  assignments := [⟨⟨0⟩, .user ⟨200⟩, ⟨0⟩, .realm⟩]
  orgRoles := []
  grants := []
  archived := []
  groups := [⟨⟨0⟩, "Staff", "staff", false⟩]
  nodup_ids := by simp
  nodup_names := by simp
  nodup_groups := by simp
  nodup_slugs := by simp
  nodup_members := nodup_range.map fun _ _ h => by simpa using h
  nodup_assignments := by simp

/-- Three members, the last of whom administers users. -/
def staffed : Graph where
  __ := crowd 3
  roles := [⟨⟨0⟩, "users.admin", ["hearth.users.admin"], [], .realm, .active, false⟩]
  assignments := [⟨⟨0⟩, .user ⟨2⟩, ⟨0⟩, .realm⟩]
  nodup_ids := by simp
  nodup_names := by simp
  nodup_assignments := by simp

end

end Hearth.Protocol
