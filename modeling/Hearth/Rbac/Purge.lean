import Hearth.Rbac.CreateRole

/-!
# What a purge leaves of a user's authority

`purge_user_from_realm` deletes the user's assignments, memberships and extra roles, but no
direct grant. `purge_removes_authority_iff`: the user is left without authority exactly if each
of those grants is of an archived permission; nobody else's authority changes.
-/

namespace Hearth.Rbac

open Base List Rbac.Graph

theorem filter_filter_of_imp {α : Type} {p q : α → Bool} {l : List α} (h : ∀ a, p a → q a) :
    (l.filter q).filter p = l.filter p := by
  rw [filter_filter]
  refine filter_congr fun a _ => ?_
  cases hp : p a with
  | false => rfl
  | true => exact h a hp

section

variable {G : Graph} {gone user : UserId} {org : Option OrganizationId}

theorem expandRole_purge (levels : Nat) :
    expandRole (purgeUserFromRealm G gone) levels = expandRole G levels := by
  induction levels with
  | zero => rfl
  | succ levels ih =>
    funext i walk
    simp only [expandRole, ih]
    rfl

theorem parentGroupsOf_purge {member} (h : member ≠ .user gone) :
    (purgeUserFromRealm G gone).parentGroupsOf member = G.parentGroupsOf member := by
  refine congrArg _ (filter_filter_of_imp fun e he => ?_)
  rw [of_decide_eq_true he]
  exact decide_eq_true h

variable (h : user ≠ gone)

include h

theorem reachableAssignments_purge (groups) :
    reachableAssignments (purgeUserFromRealm G gone) user groups = reachableAssignments G user groups := by
  have hassigned {subject : Subject} (hs : subject ≠ .user gone) :
      (purgeUserFromRealm G gone).assignments.filter (fun a => a.subject = subject) =
        G.assignments.filter fun a => a.subject = subject := by
    refine filter_filter_of_imp fun a ha => ?_
    rw [of_decide_eq_true ha]
    exact decide_eq_true hs
  exact congrArg₂ _ (hassigned (by simpa using h)) (flatMap_congr fun g _ => hassigned nofun)

theorem additionalRoles_purge (oid) :
    (purgeUserFromRealm G gone).additionalRoles oid user = G.additionalRoles oid user := by
  refine congrArg _ (filter_filter_of_imp fun e he => ?_)
  rw [(of_decide_eq_true he).2]
  exact decide_eq_true h

theorem resolveFull_purge :
    resolveFull (purgeUserFromRealm G gone) user org = resolveFull G user org := by
  have huser := parentGroupsOf_purge (G := G) (show GroupMember.user user ≠ .user gone by simpa using h)
  refine bind_eq_bind (bfsGroups_congr (fun _ => parentGroupsOf_purge nofun) huser) fun groups => ?_
  simp only [reachableAssignments_purge h, expandRoot, expandRole_purge]
  refine bind_eq_bind rfl fun walk => bind_eq_bind ?_ fun _ => rfl
  cases org with
  | none => rfl
  | some oid =>
    simp only [expandOrgRoles, additionalRoles_purge h]
    refine foldlM_congr_mem (fun name _ walk => ?_) _
    simp only [expandByName, expandRoot, expandRole_purge]
    rfl

end

theorem resolveFull_purged (G : Graph) (gone : UserId) (org : Option OrganizationId) :
    ∃ r, resolveFull (purgeUserFromRealm G gone) gone org = .ok r ∧ r.roles = ∅ ∧ r.groups = ∅ ∧
      ∀ p, p ∈ r.permissions ↔
        (∃ e ∈ G.grants, e.userId = gone ∧ e.scope.applies org ∧ e.permission = p) ∧
          ¬ G.permissionArchived p := by
  have hgroups : bfsGroups (purgeUserFromRealm G gone) gone = .ok [] := by
    simp [bfsGroups, bfsLoop, parentGroupsOf, purgeUserFromRealm, maxGroupBreadth]
  have hreach : reachableAssignments (purgeUserFromRealm G gone) gone [] = [] := by
    simp [reachableAssignments, userAssignments, purgeUserFromRealm]
  have hextra (walk) : expandOrgRoles (purgeUserFromRealm G gone) gone org walk = .ok walk := by
    cases org with
    | none => rfl
    | some oid =>
      have hnone : (purgeUserFromRealm G gone).additionalRoles oid gone = [] := by
        simp +contextual [additionalRoles, purgeUserFromRealm]
      rw [expandOrgRoles, hnone]
      rfl
  simp only [resolveFull, resolveFullIn, id, hgroups, ok_bind, hreach, filter_nil, foldlM_nil, hextra]
  refine ⟨_, rfl, rfl, rfl, fun p => ?_⟩
  have hnone : p ∉ RoleWalk.empty.perms := Finset.notMem_empty p
  rw [Finset.mem_sdiff, Finset.mem_filter, mem_addGrants, or_iff_right hnone]
  exact and_congr_right fun hp => not_congr (and_iff_right hp)

/-- A purge takes all of a user's authority exactly if each of the user's direct grants is of an
archived permission, and never changes anyone else's. -/
theorem purge_removes_authority_iff (G : Graph) (user : UserId) :
    ((∀ org, ∃ r, resolveFull (purgeUserFromRealm G user) user org = .ok r ∧
        r.permissions = ∅ ∧ r.roles = ∅ ∧ r.groups = ∅) ∧
      ∀ other org, other ≠ user →
        resolveFull (purgeUserFromRealm G user) other org = resolveFull G other org) ↔
      ∀ e ∈ G.grants, e.userId = user → G.permissionArchived e.permission := by
  constructor
  · rintro ⟨hgone, -⟩ e he rfl
    by_contra harch
    obtain ⟨r, hr, hnone, -⟩ := hgone e.scope.orgId
    obtain ⟨r', hr', -, -, hmem⟩ := resolveFull_purged G e.userId e.scope.orgId
    cases hr.symm.trans hr'
    refine Finset.notMem_empty e.permission (hnone ▸ (hmem _).2 ⟨⟨e, he, rfl, ?_, rfl⟩, harch⟩)
    cases e.scope <;> simp [Scope.applies, Scope.orgId]
  · refine fun harch => ⟨fun org => ?_, fun other org h => resolveFull_purge h⟩
    obtain ⟨r, hr, hroles, hgroups, hmem⟩ := resolveFull_purged G user org
    refine ⟨r, hr, Finset.eq_empty_of_forall_notMem fun p hp => ?_, hroles, hgroups⟩
    obtain ⟨⟨e, he, hu, -, rfl⟩, hno⟩ := (hmem p).1 hp
    exact hno (harch e he hu)

/-- A user with one direct grant keeps it. -/
theorem purged_user_keeps_grant : (resolveFull (purgeUserFromRealm
      { Graph.empty with grants := [⟨⟨0⟩, "billing.read", .realm⟩] } ⟨0⟩) ⟨0⟩ none).map (·.permissions) =
      .ok {"billing.read"} := by
  decide

end Hearth.Rbac
