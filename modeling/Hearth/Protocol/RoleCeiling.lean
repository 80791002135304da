import Hearth.Protocol.AdminCeiling
import Hearth.Rbac.RoleChange

/-!
# The privilege ceiling on a changed role

A sub-admin may update or delete a role only if the change takes no admin permission out
of it, or if every holder of the role and of the roles that inherit from it is within the
ceiling. `checkRoleChangeAdminCeiling` predicts what the change takes out from the fields of
the request; it does not look at the status, so an update that archives the role passes.
-/

namespace Hearth.Protocol

open Base Rbac Relation List Rbac.Graph

inductive RoleChange
  | delete
  | update (req : UpdateRoleRequest)

section

variable (G : Graph) (orgsOf : UserId → Option (List OrganizationId)) (actor : List Permission)

/-- A parent that does not resolve grants nothing. -/
def parentPermissions (parent : RoleId) : Finset Permission :=
  match expandRolePermissions G parent with
  | .ok perms => perms
  | .error _ => ∅

variable (role : Role)

/-- The role's permissions after an update, as the check predicts them. -/
def predictedPermissions (req : UpdateRoleRequest) : Finset Permission :=
  (req.permissions.getD role.permissions).toFinset ∪
    (req.parentRoles.getD role.parentRoles).toFinset.biUnion (parentPermissions G)

/-- Whether a change takes one of the role's admin permissions out of its effective set. -/
def takesOut (admin : Finset Permission) : RoleChange → Bool
  | .delete => true
  | .update req =>
    req.name.any (· ≠ role.name) || decide (¬ admin ⊆ predictedPermissions G role req)

def roleChangeRemovesAdminPermission (change : RoleChange) : Except UserCeilingError Bool := do
  let current ← orUnresolved (expandRolePermissions G role.id)
  let admin := current.filter fun p => isAdminPermission p
  .ok (decide (admin ≠ ∅) && takesOut G role admin change)

def rolesInheritingFrom : Except UserCeilingError (List (RoleId × String)) := do
  let all ← allRoles G
  .ok (inheriting all [role])

def CeilingWalk.subject (walk : CeilingWalk) : Subject → Except UserCeilingError CeilingWalk
  | .user user => walk.user G orgsOf actor user
  | .group group => walk.group G orgsOf actor group

/-- The holders of one role: its assignments, and the extra roles of its name. -/
def CeilingWalk.roleHolders (walk : CeilingWalk) (role : RoleId × String) :
    Except UserCeilingError CeilingWalk := do
  let walk ← (G.listedRoleMembers role.1).foldlM (subject G orgsOf actor) walk
  (G.listAdditionalRoleHolders [role.2] (maxCeilingAffectedUsers + 1)).foldlM
    (user G orgsOf actor) walk

/-- An update of neither the name, the permissions nor the parents. -/
def RoleChange.isMinor : RoleChange → Bool
  | .delete => false
  | .update req => req.name.isNone && req.permissions.isNone && req.parentRoles.isNone

def checkRoleHolders : Except UserCeilingError Unit := do
  let roles ← rolesInheritingFrom G role
  let _ ← roles.foldlM (CeilingWalk.roleHolders G orgsOf actor) .new
  .ok ()

/-- An unknown role passes. -/
def checkRoleChangeAdminCeiling (roleId : RoleId) (change : RoleChange) : Except UserCeilingError Unit :=
  if isSuperuser actor || change.isMinor then .ok ()
  else
    match G.getRole roleId with
    | none => .ok ()
    | some role => do
      let removes ← roleChangeRemovesAdminPermission G role change
      if removes then checkRoleHolders G orgsOf actor role else .ok ()

end

/-! ## What the walk over the holders establishes -/

section

variable {G : Graph} {orgsOf : UserId → Option (List OrganizationId)} {actor : List Permission}
  {walk walk' : CeilingWalk} {u : UserId}

/-- A walk under way: what it holds is cleared, closed under the listings and within bounds. -/
structure CeilingWalk.Sound (G : Graph) (orgsOf : UserId → Option (List OrganizationId))
    (actor : List Permission) (walk : CeilingWalk) : Prop where
  inv : walk.Inv G orgsOf actor
  walked : walk.Walked G
  bounded : walk.users.card ≤ maxCeilingAffectedUsers

/-- The later walk holds what the earlier one does. -/
structure CeilingWalk.Within (walk walk' : CeilingWalk) : Prop where
  users : walk.users ⊆ walk'.users
  groups : walk.groups ⊆ walk'.groups

theorem CeilingWalk.Within.refl (walk : CeilingWalk) : walk.Within walk := ⟨subset_rfl, subset_rfl⟩

theorem CeilingWalk.Within.trans {walk''} (h : walk.Within walk') (h' : walk'.Within walk'') :
    walk.Within walk'' :=
  ⟨h.users.trans h'.users, h.groups.trans h'.groups⟩

theorem CeilingWalk.Sound.new : new.Sound G orgsOf actor :=
  ⟨.new, ⟨by simp [CeilingWalk.new], by simp [CeilingWalk.new]⟩, Nat.zero_le _⟩

theorem CeilingWalk.user_bounded (h : walk.user G orgsOf actor u = .ok walk')
    (husers : walk'.users = insert u walk.users) (hb : walk.users.card ≤ maxCeilingAffectedUsers) :
    walk'.users.card ≤ maxCeilingAffectedUsers := by
  by_cases hu : u ∈ walk.users
  · rw [husers, Finset.insert_eq_of_mem hu]
    exact hb
  · rw [husers]
    by_contra hmany
    rw [user, if_neg hu] at h
    rw [if_pos (Nat.lt_of_not_le hmany)] at h
    cases h

theorem CeilingWalk.Sound.user (hS : walk.Sound G orgsOf actor)
    (h : walk.user G orgsOf actor u = .ok walk') :
    walk'.Sound G orgsOf actor ∧ walk.Within walk' ∧ u ∈ walk'.users := by
  obtain ⟨hI, husers, hgrps⟩ := hS.inv.user h
  have hsub : walk.users ⊆ walk'.users := husers ▸ Finset.subset_insert ..
  refine ⟨⟨hI, ⟨?_, ?_⟩, user_bounded h husers hS.bounded⟩, ⟨hsub, hgrps ▸ subset_rfl⟩,
    husers ▸ Finset.mem_insert_self ..⟩
  · rw [hgrps]
    exact hS.walked.closed
  · rw [hgrps]
    exact fun g hg v hv => hsub (hS.walked.users g hg v hv)

theorem CeilingWalk.Sound.users {l : List UserId} (hS : walk.Sound G orgsOf actor)
    (h : l.foldlM (CeilingWalk.user G orgsOf actor) walk = .ok walk') :
    walk'.Sound G orgsOf actor ∧ walk.Within walk' ∧ ∀ u ∈ l, u ∈ walk'.users := by
  obtain ⟨⟨hS', hwith⟩, hall⟩ := foldlM_spec
    (P := fun w => w.Sound G orgsOf actor ∧ walk.Within w) (Q := fun u w => u ∈ w.users)
    (fun w u w' hw hu => by
      obtain ⟨hS', hwith, hin⟩ := hw.1.user hu
      exact ⟨⟨hS', hw.2.trans hwith⟩, hin⟩)
    (fun w u v w' hw hu hv => (hw.1.user hv).2.1.users hu) ⟨hS, .refl walk⟩ h
  exact ⟨hS', hwith, hall⟩

theorem CeilingWalk.Sound.group {g} (hS : walk.Sound G orgsOf actor)
    (h : walk.group G orgsOf actor g = .ok walk') :
    walk'.Sound G orgsOf actor ∧ walk.Within walk' ∧ g ∈ walk'.groups := by
  obtain ⟨hI, hW, husers, hgrps, hg⟩ := hS.inv.group hS.walked h
  refine ⟨⟨hI, hW, ?_⟩, ⟨husers, hgrps⟩, hg⟩
  obtain ⟨⟨seen, done⟩, hdrain, h⟩ := bind_eq_ok.1 h
  cases h
  have hkeep : done.Inv G orgsOf actor ∧ done.users.card ≤ maxCeilingAffectedUsers := by
    refine drain_invariant
      (I := fun _ w => w.Inv G orgsOf actor ∧ w.users.card ≤ maxCeilingAffectedUsers)
      (fun g seen w w' _ hw hv => ?_) ⟨hS.inv, hS.bounded⟩ hdrain
    refine foldlM_invariant (P := fun w => w.Inv G orgsOf actor ∧ w.users.card ≤ maxCeilingAffectedUsers)
      (fun w u w' hw hu => ?_) hw hv
    obtain ⟨hI', husers', -⟩ := hw.1.user hu
    exact ⟨hI', user_bounded hu husers' hw.2⟩
  exact hkeep.2

def CeilingWalk.Takes (walk : CeilingWalk) : Subject → Prop
  | .user u => u ∈ walk.users
  | .group g => g ∈ walk.groups

theorem CeilingWalk.Within.takes {s} (h : walk.Within walk') (hs : walk.Takes s) : walk'.Takes s := by
  cases s with
  | user u => exact h.users hs
  | group g => exact h.groups hs

theorem CeilingWalk.Sound.subject {s} (hS : walk.Sound G orgsOf actor)
    (h : walk.subject G orgsOf actor s = .ok walk') :
    walk'.Sound G orgsOf actor ∧ walk.Within walk' ∧ walk'.Takes s := by
  cases s with
  | user u => exact hS.user h
  | group g => exact hS.group h

structure CeilingWalk.TakesHolders (G : Graph) (walk : CeilingWalk) (role : RoleId × String) : Prop where
  subjects : ∀ s ∈ G.listedRoleMembers role.1, walk.Takes s
  extras : ∀ row ∈ G.orgRoles, row.role = role.2 → row.user ∈ walk.users

theorem CeilingWalk.Sound.roleHolders {role} (hS : walk.Sound G orgsOf actor)
    (h : walk.roleHolders G orgsOf actor role = .ok walk') :
    walk'.Sound G orgsOf actor ∧ walk.Within walk' ∧ walk'.TakesHolders G role := by
  obtain ⟨walk1, h1, h⟩ := bind_eq_ok.1 h
  obtain ⟨⟨hS1, hwithin1⟩, hsubjects⟩ := foldlM_spec
    (P := fun w => w.Sound G orgsOf actor ∧ walk.Within w) (Q := fun s w => w.Takes s)
    (fun w s w' hw hs => by
      obtain ⟨hS', hwith, hin⟩ := hw.1.subject hs
      exact ⟨⟨hS', hw.2.trans hwith⟩, hin⟩)
    (fun w s t w' hw hin ht => (hw.1.subject ht).2.1.takes hin) ⟨hS, .refl walk⟩ h1
  obtain ⟨hS', hwith, hextras⟩ := hS1.users h
  refine ⟨hS', hwithin1.trans hwith, fun s hs => hwith.takes (hsubjects s hs), fun row hrow hname => ?_⟩
  -- a list cut at the bound would be more users than the walk may hold
  refine hextras _ (mem_distinctUpTo (Nat.lt_succ_of_le ?_) ?_)
  · rw [← toFinset_card_of_nodup nodup_distinctUpTo]
    refine (Finset.card_le_card fun v hv => ?_).trans hS'.bounded
    exact hextras v (mem_toFinset.1 hv)
  · exact mem_map_of_mem (mem_filter.2 ⟨hrow, decide_eq_true (hname ▸ mem_singleton_self _)⟩)

/-- A check of the holders that passes has cleared every listed holder of a role that inherits
from the changed one. -/
theorem checkRoleHolders_spec {role} (h : checkRoleHolders G orgsOf actor role = .ok ()) :
    ∃ walk : CeilingWalk, walk.Sound G orgsOf actor ∧
      ∀ x ∈ inheriting G.listedRoles [role], walk.TakesHolders G x := by
  obtain ⟨roles, hroles, h⟩ := bind_eq_ok.1 h
  obtain ⟨walk, hwalk, -⟩ := bind_eq_ok.1 h
  obtain ⟨all, hall, hroles⟩ := bind_eq_ok.1 hroles
  obtain ⟨_, -, hall⟩ := bind_eq_ok.1 hall
  cases hall
  cases hroles
  obtain ⟨hS, htakes⟩ := foldlM_spec (P := fun w => w.Sound G orgsOf actor)
    (fun w x w' hw hx => ⟨(hw.roleHolders hx).1, (hw.roleHolders hx).2.2⟩)
    (fun w x y w' hw hx hy => by
      have hwith := (hw.roleHolders hy).2.1
      exact ⟨fun s hs => hwith.takes (hx.subjects s hs), fun row hrow hn => hwith.users (hx.extras row hrow hn)⟩)
    .new hwalk
  exact ⟨walk, hS, htakes⟩

end

/-! ## Carrying the change out -/

section

variable {G G' : Graph} {roleId : RoleId} {role : Role} {change : RoleChange} {req : UpdateRoleRequest}
  {p : Permission}

/-- The change is carried out: a deletion with its cascade, or an update. -/
def RoleChange.Carries (G : Graph) (roleId : RoleId) (G' : Graph) : RoleChange → Prop
  | .delete => deleteRole G roleId true = .ok G'
  | .update req => updateRole G roleId req = .ok G'

def RoleChange.Keeps : RoleChange → Prop
  | .delete => False
  | .update _ => True

def RoleChange.KeepsName (role : Role) : RoleChange → Prop
  | .delete => False
  | .update req => req.name.getD role.name = role.name

/-- The operation that carries the change out. -/
def RoleChange.op (roleId : RoleId) : RoleChange → Op
  | .delete => .deleteRole roleId true
  | .update req => .updateRole roleId req

section

variable (h : change.Carries G roleId G')

include h

theorem RoleChange.Carries.runs : Runs G (change.op roleId) (.ok G') := by
  cases change with
  | delete | update req => exact symm h

theorem RoleChange.Carries.changes : ∃ role, G.getRole roleId = some role ∧
    ChangesRole G G' roleId change.Keeps (change.KeepsName role) := by
  cases change with
  | delete =>
    obtain ⟨role, hrole, rfl⟩ := deleteRole_eq_ok h
    obtain rfl := (getRole_eq_some.1 hrole).2
    exact ⟨role, hrole, changesRole_delete hrole⟩
  | update req =>
    obtain ⟨role, hrole, -, hname, rfl⟩ := updateRole_eq_ok h
    obtain rfl := (getRole_eq_some.1 hrole).2
    exact ⟨role, hrole, changesRole_update hrole⟩

theorem RoleChange.Carries.short (hac : Acyclic (Edge G))
    (hfits : ∀ req, change = .update req → Fits G (.updateRole roleId req)) (hG : ShortRoles G) :
    ShortRoles G' := by
  cases change with
  | delete =>
    obtain ⟨role, -, rfl⟩ := deleteRole_eq_ok h
    exact fun n i j hchain => hG n i j (hchain.mono fun _ _ => composes_withoutRole)
  | update req =>
    obtain ⟨role, hrole, hcheck, hname, rfl⟩ := updateRole_eq_ok h
    obtain rfl := (getRole_eq_some.1 hrole).2
    have hwrite : WritesRole G (G.replaceRole (role.update req) hname) (role.update req) :=
      writesRole_replaceRole hrole
    exact hwrite.shortRoles (fun q hq => update_parents hrole hcheck q hq hac)
      (hfits req rfl role hrole) hG

end

/-- An updated role that is not archived grants its new permissions, and what its new parents
granted. -/
theorem roleGrants_updated (h : updateRole G roleId req = .ok G') (hac : Acyclic (Edge G))
    (hrole : G.getRole roleId = some role) (hstat : (role.update req).status ≠ .archived)
    (hp : p ∈ (role.update req).permissions ∨ ∃ q ∈ (role.update req).parentRoles, RoleGrants G q p) :
    RoleGrants G' roleId p := by
  obtain ⟨role', hrole', hcheck, hname, rfl⟩ := updateRole_eq_ok h
  obtain rfl : role = role' := Option.some.inj (hrole.symm.trans hrole')
  obtain rfl := (getRole_eq_some.1 hrole).2
  have hwrite : WritesRole G (G.replaceRole (role.update req) hname) (role.update req) :=
    writesRole_replaceRole hrole
  have hact : Active (G.replaceRole (role.update req) hname) role.id (role.update req) :=
    ⟨hwrite.written, hstat⟩
  obtain hp | ⟨q, hq, hg⟩ := hp
  · exact .own hact hp
  · have hapart := update_parents hrole hcheck q hq hac
    exact .inherited hact hq ((changesRole_update hrole).roleGrants (absurd · hapart) hg)

theorem mem_predictedPermissions (hp : p ∈ predictedPermissions G role req) :
    p ∈ (role.update req).permissions ∨ ∃ q ∈ (role.update req).parentRoles, RoleGrants G q p := by
  rw [predictedPermissions, Finset.mem_union, mem_toFinset, Finset.mem_biUnion] at hp
  refine hp.imp_right fun ⟨q, hq, hp⟩ => ⟨q, mem_toFinset.1 hq, ?_⟩
  unfold parentPermissions at hp
  split at hp
  case h_1 perms hperms => exact ((mem_expandRolePermissions hperms).1 hp).1
  case h_2 => exact absurd hp (Finset.notMem_empty p)

end

/-! ## The role-change ceiling -/

section

variable {G G' : Graph} {orgsOf : UserId → Option (List OrganizationId)} {actor : List Permission}
  {roleId : RoleId} {role : Role} {change : RoleChange} {u : UserId} {p : Permission}

/-- The user holds, in some context, an admin permission that the actor lacks. -/
def Outranks (G : Graph) (actor : List Permission) (u : UserId) : Prop :=
  ∃ org p, GrantsAdmin G u org p ∧ p ∉ actor

/-- In every context the user keeps the admin permissions they had. -/
def KeepsAdmin (G G' : Graph) (u : UserId) : Prop :=
  ∀ org p, GrantsAdmin G u org p → GrantsAdmin G' u org p

/-- The check foresees what the change does to the user: the change does not archive a role
that grants an admin permission, and its chains fit; the listings show the user's roles and
groups, and each extra role of the user is in an organization that is resolved. -/
structure Foreseen (G : Graph) (orgsOf : UserId → Option (List OrganizationId)) (roleId : RoleId)
    (change : RoleChange) (u : UserId) : Prop where
  status : ∀ req, change = .update req → req.status = some .archived →
    ∀ p, isAdminPermission p → G.permissionArchived p = false → ¬ RoleGrants G roleId p
  fits : ∀ req, change = .update req → Fits G (.updateRole roleId req)
  holder : HolderListed G u
  extras : ∀ row ∈ G.orgRoles, row.user = u → ListedContext G orgsOf u (some row.org)

/-- A role with a path to the changed one is among those whose holders are checked. -/
theorem mem_inheriting_of_path (hl : ∀ r ∈ G.roles, r ∈ G.listedRoles) (hrole : role ∈ G.roles)
    {i} (hpath : ReflTransGen (Edge G) i role.id) :
    i ∈ (inheriting G.listedRoles [role]).map Prod.fst := by
  obtain ⟨hseeds, -, hclos⟩ := inheriting_spec _ [role] (fun r hr =>
    mem_singleton.1 hr ▸ hl role hrole)
  induction hpath using ReflTransGen.head_induction_on with
  | refl => exact hseeds role (mem_singleton_self role)
  | head hedge _ ih =>
    obtain ⟨r, hr, hq⟩ := hedge
    obtain ⟨hmem, rfl⟩ := getRole_eq_some.1 hr
    exact hclos r (hl r hmem) _ hq ih

theorem mem_inheriting_of_name (hl : ∀ r ∈ G.roles, r ∈ G.listedRoles) (hrole : role ∈ G.roles)
    {i name} (hi : G.getRoleIdByName name = some i)
    (hpath : ReflTransGen (Edge G) i role.id) : (i, name) ∈ inheriting G.listedRoles [role] := by
  obtain ⟨-, hroles, -⟩ := inheriting_spec _ [role] (fun r hr =>
    mem_singleton.1 hr ▸ hl role hrole)
  obtain ⟨x, hx, rfl⟩ := mem_map.1 (mem_inheriting_of_path hl hrole hpath)
  obtain ⟨r, hr, rfl⟩ := hroles x hx
  obtain ⟨r', hr', hname, hid⟩ := getRoleIdByName_eq_some.1 hi
  have heq : r' = r := inj_on_of_nodup_map G.nodup_ids hr' (mem_of_mem_listedRoles hr) hid
  rw [← hname, heq]
  exact hx

/-- A holder that the listings show, and that outranks the actor, does not hold the role or one
that inherits from it: the walk would have refused them. -/
theorem apart_of_checkRoleHolders (hactor : isSuperuser actor = false) (hrole : role ∈ G.roles)
    (hcheck : checkRoleHolders G orgsOf actor role = .ok ()) (hl : HolderListed G u)
    (hextras : ∀ row ∈ G.orgRoles, row.user = u → ListedContext G orgsOf u (some row.org))
    (hu : Outranks G actor u) : Apart G u role.id := by
  obtain ⟨walk, hS, htakes⟩ := checkRoleHolders_spec hcheck
  have hout : u ∉ walk.users := by
    intro hin
    obtain ⟨org, p, hp, hlacks⟩ := hu
    refine hlacks ((hS.inv.cleared u hin).covers hactor hl (fun o ho => ?_) hp)
    by_cases hrow : ∃ row ∈ G.orgRoles, row.user = u ∧ row.org = o
    · obtain ⟨row, hrow, huser, rfl⟩ := hrow
      exact .inl (ho ▸ hextras row hrow huser)
    · exact .inr fun row hin huser horg => hrow ⟨row, hin, huser, horg⟩
  constructor
  case assigned =>
    intro a ha hcov hpath
    obtain ⟨x, hx, hxa⟩ := mem_map.1 (mem_inheriting_of_path hl.roles hrole hpath)
    have htaken : walk.Takes a.subject := (htakes x hx).subjects _ (hxa ▸ hl.assignments a ha)
    cases hsubj : a.subject with
    | user v =>
      rw [hsubj] at htaken hcov
      exact hout (hcov ▸ htaken)
    | group g =>
      rw [hsubj] at htaken hcov
      exact hout (mem_users_of_listedMember hS.walked.closed hS.walked.users (hl.groups g hcov) htaken)
  case extra =>
    intro row hrow huser i hi hpath
    exact hout (huser ▸ (htakes _ (mem_inheriting_of_name hl.roles hrole hi hpath)).extras row hrow rfl)

theorem roleGrants_cases (ha : G.getRole roleId = some role) (hg : RoleGrants G roleId p) :
    role.status ≠ .archived ∧ (p ∈ role.permissions ∨ ∃ q ∈ role.parentRoles, RoleGrants G q p) := by
  cases hg with
  | own hact hp =>
    cases ha.symm.trans hact.1
    exact ⟨hact.2, .inl hp⟩
  | inherited hact hq hg =>
    cases ha.symm.trans hact.1
    exact ⟨hact.2, .inr ⟨_, hq, hg⟩⟩

/-- A change that is found to take nothing out is an update that leaves the name, and predicts
each admin permission the role grants. -/
theorem predicted_of_not_removes (h : roleChangeRemovesAdminPermission G role change = .ok false)
    (hadmin : isAdminPermission p) (harch : G.permissionArchived p = false) (hg : RoleGrants G role.id p) :
    ∃ req, change = .update req ∧ req.name.getD role.name = role.name ∧
      p ∈ predictedPermissions G role req := by
  obtain ⟨current, hcur, h⟩ := bind_eq_ok.1 h
  have hp : p ∈ current.filter fun p => isAdminPermission p := by
    refine Finset.mem_filter.2 ⟨(mem_expandRolePermissions ?_).2 ⟨hg, harch⟩, hadmin⟩
    cases hres : expandRolePermissions G role.id with
    | ok perms => rw [hres] at hcur; cases hcur; rfl
    | error e => rw [hres] at hcur; cases hcur
  have htakes : takesOut G role (current.filter fun p => isAdminPermission p) change = false := by
    have hne : current.filter (fun p => isAdminPermission p) ≠ ∅ := Finset.ne_empty_of_mem hp
    simpa [hne] using h
  cases change with
  | delete => cases htakes
  | update req =>
    obtain ⟨hname, hpred⟩ := Bool.or_eq_false_iff.1 htakes
    refine ⟨req, rfl, ?_, not_not.1 (of_decide_eq_false hpred) hp⟩
    cases hreq : req.name with
    | none => rfl
    | some name =>
      rw [hreq] at hname
      exact not_not.1 (of_decide_eq_false hname)

/-- The changed role itself: where the check did not go on to the holders, what it granted it
still grants, under its name. -/
theorem still_grants {req} (h : updateRole G roleId req = .ok G')
    (hac : Acyclic (Edge G)) (hrole : G.getRole roleId = some role)
    (hstat : req.status = some .archived → ¬ RoleGrants G roleId p) (hg : RoleGrants G roleId p)
    (hp : p ∈ (role.update req).permissions ∨ ∃ q ∈ (role.update req).parentRoles, RoleGrants G q p) :
    RoleGrants G' roleId p := by
  refine roleGrants_updated h hac hrole (fun harch => ?_) hp
  change req.status.getD role.status = .archived at harch
  cases hreq : req.status with
  | none =>
    rw [hreq] at harch
    exact (roleGrants_cases hrole hg).1 harch
  | some status =>
    rw [hreq] at harch
    exact hstat (hreq.trans (congrArg some harch)) hg

section

variable (hac : Acyclic (Edge G)) (hactor : isSuperuser actor = false)
  (hcheck : checkRoleChangeAdminCeiling G orgsOf actor roleId change = .ok ())
  (hdone : change.Carries G roleId G') (hu : Outranks G actor u) (hf : Foreseen G orgsOf roleId change u)

include hac hactor hcheck hdone hu hf

/-- A source of an admin permission survives a change that the check foresees. -/
theorem source_of_foreseen (hadmin : isAdminPermission p) (harch : G.permissionArchived p = false) {org}
    (hs : Source G u org p) : Source G' u org p := by
  obtain ⟨role, hrole, hchg⟩ := hdone.changes
  obtain ⟨hmem, hid⟩ := getRole_eq_some.1 hrole
  unfold checkRoleChangeAdminCeiling at hcheck
  rw [hactor, hrole] at hcheck
  cases hminor : change.isMinor with
  | true =>
    cases change with
    | delete => cases hminor
    | update req =>
      simp only [RoleChange.isMinor, Bool.and_eq_true, Option.isNone_iff_eq_none] at hminor
      obtain ⟨⟨hname, hperms⟩, hpars⟩ := hminor
      refine hchg.source (fun _ hg => ⟨trivial, ?_, ?_⟩) hs
      · change req.name.getD role.name = role.name
        rw [hname]
        rfl
      · refine still_grants hdone hac hrole (fun hst => hf.status req rfl hst p hadmin harch) hg ?_
        change p ∈ req.permissions.getD _ ∨ ∃ q ∈ req.parentRoles.getD _, _
        rw [hperms, hpars]
        exact (roleGrants_cases hrole hg).2
  | false =>
    rw [hminor] at hcheck
    obtain ⟨removes, hremoves, hcheck⟩ := bind_eq_ok.1 hcheck
    cases removes with
    | true =>
      have hapart := apart_of_checkRoleHolders hactor hmem hcheck hf.holder hf.extras hu
      exact hchg.source (absurd (hid ▸ hapart)) hs
    | false =>
      refine hchg.source (fun _ hg => ?_) hs
      obtain ⟨req, rfl, hname, hp⟩ := predicted_of_not_removes hremoves hadmin harch (hid ▸ hg)
      refine ⟨trivial, hname, ?_⟩
      exact still_grants hdone hac hrole (fun hst => hf.status req rfl hst p hadmin harch) hg
        (mem_predictedPermissions hp)

theorem keepsAdmin_of_foreseen (hshort : ShortRoles G) : KeepsAdmin G G' u := by
  rintro org p ⟨hadmin, r, hr, hp⟩
  obtain ⟨hs, harch⟩ := (resolveFull_permissions hr).1 hp
  obtain ⟨role, -, hchg⟩ := hdone.changes
  obtain ⟨r', hr'⟩ := resolveFull_answers_of_members hr hchg.members
    (acyclic_of_runs hdone.runs hac) (hdone.short hac hf.fits hshort)
  refine ⟨hadmin, r', hr', (resolveFull_permissions hr').2 ⟨?_, ?_⟩⟩
  · exact source_of_foreseen hac hactor hcheck hdone hu hf hadmin harch hs
  · rw [permissionArchived, hchg.archived]
    exact harch

end

/-- One admin role, which user 1 is assigned. -/
def assignedOwner : Graph where
  __ := extraOwner
  assignments := [⟨⟨0⟩, .user ⟨1⟩, ⟨0⟩, .realm⟩]
  orgRoles := []
  nodup_assignments := by simp

/-- It is the graph after `create_role` and `assign_role`. -/
theorem assignedOwner_reachable :
    Reachable (· = .empty) (fun G G' => ∃ op, Call op G G') assignedOwner := by
  have hass : assignRole (empty.insertRole ownerRole not_mem_nil not_mem_nil) ⟨0⟩ (by rintro _ ⟨⟩)
      ⟨.user ⟨1⟩, ⟨0⟩, .realm⟩ = .ok assignedOwner := by decide +kernel
  exact owner_reachable.next ⟨.assignRole ⟨0⟩ ⟨.user ⟨1⟩, ⟨0⟩, .realm⟩, .accepted ⟨by rintro _ ⟨⟩, hass.symm⟩⟩

theorem assignedOwner_short : ShortRoles assignedOwner := by
  intro n i j hchain
  cases hchain with
  | refl => exact Nat.zero_le _
  | head hedge _ =>
    obtain ⟨r, ⟨hr, -⟩, hq⟩ := hedge
    obtain rfl := mem_singleton.1 (getRole_eq_some.1 hr).1
    cases hq

def widenOwner : UpdateRoleRequest :=
  ⟨none, some [superuserPermission, "reports.view"], none, none, none, true⟩

theorem assignedOwner_outranks : GrantsAdmin assignedOwner ⟨1⟩ none superuserPermission :=
  ⟨by decide, ⟨{"owner"}, ∅, {superuserPermission}, ∅⟩, by decide +kernel, by decide +kernel⟩

/-- The owner role is archived, and nothing else about it changes. -/
def archiveOwner : UpdateRoleRequest := ⟨none, none, none, none, some .archived, false⟩

end

end Hearth.Protocol
