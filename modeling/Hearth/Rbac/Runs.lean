import Hearth.Rbac.RoleChange

/-!
# Authority over whole runs

* `deletions_grant_nothing`: in a run of operations that only delete, no user's permissions,
  roles and groups grow;
* `resolution_never_cycles`: in any run of the operations, a resolution is refused only over a
  limit.
-/

namespace Hearth.Rbac

open Base Relation List Rbac.Graph

/-! ## Runs that only delete -/

def Op.deletes : Op → Bool
  | .deleteRole .. | .deleteGroup _ | .removeGroupMember .. | .unassignRole _
  | .revokeUserPermission _ | .removeAdditionalRole _ | .purgeOrgRolesForUser ..
  | .purgeOrgRolesForOrg _ | .purgeUserFromRealm _ => true
  | _ => false

/-- `G'` has only rows of `G`, where a role may have lost parents. -/
structure Below (G' G : Graph) : Prop where
  roles : ∀ role ∈ G'.roles, ∃ pars, role.parentRoles ⊆ pars ∧
    { role with parentRoles := pars } ∈ G.roles
  groups : G'.groups ⊆ G.groups
  members : G'.members ⊆ G.members
  assignments : G'.assignments ⊆ G.assignments
  orgRoles : G'.orgRoles ⊆ G.orgRoles
  grants : G'.grants ⊆ G.grants
  archived : G'.archived = G.archived

section

variable {G G' G'' : Graph} {user : UserId} {org : Option OrganizationId} {op : Op} {i : RoleId}
  {p : Permission}

theorem Below.refl : Below G G :=
  ⟨fun _ h => ⟨_, .refl _, h⟩, .refl _, .refl _, .refl _, .refl _, .refl _, rfl⟩

theorem Below.trans (h' : Below G'' G') (h : Below G' G) : Below G'' G where
  roles role hr := by
    obtain ⟨pars', hsub', hr'⟩ := h'.roles role hr
    obtain ⟨pars, hsub, hr⟩ := h.roles _ hr'
    exact ⟨pars, Subset.trans hsub' hsub, hr⟩
  groups := Subset.trans h'.groups h.groups
  members := Subset.trans h'.members h.members
  assignments := Subset.trans h'.assignments h.assignments
  orgRoles := Subset.trans h'.orgRoles h.orgRoles
  grants := Subset.trans h'.grants h.grants
  archived := h'.archived.trans h.archived

theorem below_of_runs (hop : op.deletes = true) (h : Runs G op (.ok G')) : Below G' G := by
  cases op with
  | deleteRole i cascade =>
    obtain ⟨role, -, rfl⟩ := deleteRole_eq_ok h.symm
    refine ⟨fun r hr => ?_, .refl _, .refl _, filter_subset_self _, filter_subset_self _, .refl _, rfl⟩
    obtain ⟨r₀, hr₀, rfl⟩ := mem_map.1 hr
    exact ⟨r₀.parentRoles, filter_subset_self _, (mem_filter.1 hr₀).1⟩
  | deleteGroup group =>
    have h : deleteGroup G group = .ok G' := h.symm
    unfold deleteGroup at h
    split at h
    · cases h
    · obtain ⟨_, -, h⟩ := bind_eq_ok.1 h
      cases h
      exact ⟨fun _ h => ⟨_, .refl _, h⟩, filter_subset_self _, filter_subset_self _,
        filter_subset_self _, .refl _, .refl _, rfl⟩
  | unassignRole id =>
    obtain ⟨_, -, h⟩ := bind_eq_ok.1 h.symm
    cases h
    exact ⟨fun _ h => ⟨_, .refl _, h⟩, .refl _, .refl _, filter_subset_self _, .refl _, .refl _, rfl⟩
  | removeGroupMember | revokeUserPermission | removeAdditionalRole | purgeOrgRolesForUser
  | purgeOrgRolesForOrg | purgeUserFromRealm =>
    cases h
    refine ⟨fun _ h => ⟨_, .refl _, h⟩, .refl _, ?_, ?_, ?_, ?_, rfl⟩ <;>
      first | exact Subset.refl _ | exact filter_subset_self _
  | _ => cases hop

theorem below_of_deletions
    (h : Reachable (· = G) (LabelledWith Call fun op _ => op.deletes = true) G') : Below G' G := by
  refine h.invariant (I := fun G' => Below G' G) ?_ ?_
  · rintro _ rfl
    exact .refl
  · rintro G₁ G₂ - hI ⟨op, hop, hcall⟩
    cases hcall with
    | accepted hrun => exact (below_of_runs hop hrun).trans hI
    | refused => exact hI

section

variable (h : Below G' G)

include h

theorem Below.active {role} (ha : Active G' i role) :
    ∃ pars, role.parentRoles ⊆ pars ∧ Active G i { role with parentRoles := pars } := by
  obtain ⟨hr, rfl⟩ := getRole_eq_some.1 ha.1
  obtain ⟨pars, hsub, hr⟩ := h.roles role hr
  exact ⟨pars, hsub, getRole_eq_some.2 ⟨hr, rfl⟩, ha.2⟩

theorem Below.named {name} (hi : G'.getRoleIdByName name = some i) :
    G.getRoleIdByName name = some i := by
  obtain ⟨role, hr, hname, hid⟩ := getRoleIdByName_eq_some.1 hi
  obtain ⟨pars, -, hr⟩ := h.roles role hr
  exact getRoleIdByName_eq_some.2 ⟨_, hr, hname, hid⟩

theorem Below.roleGrants (hg : RoleGrants G' i p) : RoleGrants G i p := by
  induction hg with
  | own ha hp =>
    obtain ⟨pars, -, ha⟩ := h.active ha
    exact .own ha hp
  | inherited ha hq _ ih =>
    obtain ⟨pars, hsub, ha⟩ := h.active ha
    exact .inherited ha (hsub hq) ih

theorem Below.roleNamed {n} (hn : RoleNamed G' i n) : RoleNamed G i n := by
  obtain ⟨v, role, hpath, ha, hname⟩ := hn
  obtain ⟨pars, -, ha⟩ := h.active ha
  refine ⟨v, _, hpath.lift id ?_, ha, hname⟩
  rintro a b ⟨r, hr, hq⟩
  obtain ⟨pars, hsub, hr⟩ := h.active hr
  exact ⟨_, hr, hsub hq⟩

theorem Below.memberOf {m g} (hm : MemberOf G' m g) : MemberOf G m g := by
  induction hm with
  | direct he => exact .direct (h.members he)
  | nested _ he ih => exact .nested ih (h.members he)

theorem Below.covers {s : Subject} (hs : s.Covers G' user) : s.Covers G user := by
  cases s with
  | user u => exact hs
  | group g => exact h.memberOf hs

theorem Below.slug {g s} (hs : G'.getGroupSlug g = some s) : G.getGroupSlug g = some s := by
  obtain ⟨grp, hg, rfl⟩ := Option.map_eq_some_iff.1 hs
  obtain ⟨hg, hid⟩ := (find?_key_eq_some G'.nodup_groups).1 hg
  exact Option.map_eq_some_iff.2 ⟨grp, (find?_key_eq_some G.nodup_groups).2 ⟨h.groups hg, hid⟩, rfl⟩

theorem Below.root (hr : RootRole G' user org i) : RootRole G user org i := by
  cases hr with
  | assigned ha hcov happ => exact .assigned (h.assignments ha) (h.covers hcov) happ
  | extra hrow horg hu hi => exact .extra (h.orgRoles hrow) horg hu (h.named hi)

theorem Below.source (hs : Source G' user org p) : Source G user org p := by
  cases hs with
  | assigned ha hcov happ hg =>
    exact .assigned (h.assignments ha) (h.covers hcov) happ (h.roleGrants hg)
  | granted he hu happ => exact .granted (h.grants he) hu happ
  | extra hrow horg hu hi hg =>
    exact .extra (h.orgRoles hrow) horg hu (h.named hi) (h.roleGrants hg)

end

/-- Deletions add nothing to what a user resolves to. The user may stop resolving: the way to
a group that is cut may be the shortest one. -/
theorem deletions_grant_nothing {r r'}
    (h : Reachable (· = G) (LabelledWith Call fun op _ => op.deletes = true) G')
    (hr : resolveFull G user org = .ok r) (hr' : resolveFull G' user org = .ok r') :
    r'.permissions ⊆ r.permissions ∧ r'.roles ⊆ r.roles ∧ r'.groups ⊆ r.groups := by
  have hbelow := below_of_deletions h
  refine ⟨fun p hp => ?_, fun n hn => ?_, fun s hs => ?_⟩
  · obtain ⟨hsource, harch⟩ := (resolveFull_permissions hr').1 hp
    refine (resolveFull_permissions hr).2 ⟨hbelow.source hsource, ?_⟩
    rwa [permissionArchived, ← hbelow.archived]
  · obtain ⟨i, hroot, hname⟩ := resolveFull_ends.1 r' hr' n hn
    exact resolveFull_roles hr (hbelow.root hroot) (hbelow.roleNamed hname)
  · obtain ⟨g, hm, hslug⟩ := (mem_groups hr').1 hs
    exact (mem_groups hr).2 ⟨g, hbelow.memberOf hm, hbelow.slug hslug⟩

end

def twoGrants : Graph :=
  { Graph.empty with grants := [⟨⟨0⟩, "billing.read", .realm⟩, ⟨⟨0⟩, "billing.pay", .realm⟩] }

theorem deletions_grant_nothing_revoked :
    let G' := revokeUserPermission twoGrants ⟨⟨0⟩, "billing.pay", .realm⟩
    ∃ r r', resolveFull twoGrants ⟨0⟩ none = .ok r ∧ resolveFull G' ⟨0⟩ none = .ok r' ∧
      r'.permissions ⊆ r.permissions ∧ r'.roles ⊆ r.roles ∧ r'.groups ⊆ r.groups := by
  intro G'
  have hr : resolveFull twoGrants ⟨0⟩ none = .ok _ := rfl
  have hr' : resolveFull G' ⟨0⟩ none = .ok _ := rfl
  have hstep : Call (.revokeUserPermission _) twoGrants G' := .accepted rfl
  exact ⟨_, _, hr, hr', deletions_grant_nothing (.next (.start rfl) ⟨_, rfl, hstep⟩) hr hr'⟩

/-! ## Runs of any operations -/

/-- Whichever of these operations a run has, a resolution is never refused over a cycle of roles. -/
theorem resolution_never_cycles {G : Graph} (h : Reachable (· = .empty) (fun G G' => ∃ op, Call op G G') G)
    (user : UserId) (org : Option OrganizationId) :
    Ends (resolveFull G user org) (fun _ => True) (fun e => GroupFault G user e ∨ DeepRoles G e) := by
  refine resolveFull_ends.mono (fun _ _ => trivial) fun e he => ?_
  exact he.imp (bfsGroups_ends.2 e) (RootFault.deep (reachable_acyclic_roles h))

theorem resolution_never_cycles_ladder :
    (resolveFull (ladder 12 [⟨9⟩] (some ⟨11⟩)) ⟨1⟩ none).isOk = false ∧
      Ends (resolveFull (ladder 12 [⟨9⟩] (some ⟨11⟩)) ⟨1⟩ none) (fun _ => True) (fun e =>
        GroupFault (ladder 12 [⟨9⟩] (some ⟨11⟩)) ⟨1⟩ e ∨ DeepRoles (ladder 12 [⟨9⟩] (some ⟨11⟩)) e) := by
  refine ⟨by decide +kernel, resolution_never_cycles (.next ?_ ⟨.updateRole _ _, .accepted ladder_joined.symm⟩) _ _⟩
  exact ladder_assigned.mono fun _ _ ⟨op, _, h⟩ => ⟨op, h⟩

end Hearth.Rbac
