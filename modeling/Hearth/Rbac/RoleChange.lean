import Hearth.Rbac.Bounded

/-!
# What a changed role leaves of a user's authority

An update writes one role and a deletion takes one out, with its assignments, the extra
roles of its name and the edges to it. `ChangesRole` says what either leaves alone.

* `ChangesRole.source`: a permission that the role, if it granted it, still grants, is
  kept by everyone; a user whose roles do not lead to the role keeps all;
* `reachable_acyclic_roles`: no run of operations puts a cycle into the roles;
* `resolveFull_answers_of_members`: where no chain is too long, resolution still answers.
-/

namespace Hearth.Rbac

open Base Relation List Rbac.Graph

section

variable {G G' : Graph} {changed i : RoleId} {kept named : Prop} {p : Permission} {u : UserId}
  {org : Option OrganizationId}

/-- The graph afterwards has everything that is not of the role `changed`. `kept` says that
the role is still there, `named` that it also has its name. -/
structure ChangesRole (G G' : Graph) (changed : RoleId) (kept named : Prop) : Prop where
  roles : ∀ i role, i ≠ changed → Active G i role → ∃ role', Active G' i role' ∧
    (∀ p ∈ role.permissions, p ∈ role'.permissions) ∧
    ∀ q ∈ role.parentRoles, (q = changed → kept) → q ∈ role'.parentRoles
  members : G'.members = G.members
  grants : G'.grants = G.grants
  archived : G'.archived = G.archived
  assignments : ∀ a ∈ G.assignments, (a.roleId = changed → kept) → a ∈ G'.assignments
  extras : ∀ row ∈ G.orgRoles, ∀ i, G.getRoleIdByName row.role = some i → (i = changed → named) →
    row ∈ G'.orgRoles ∧ G'.getRoleIdByName row.role = some i

/-- No role that the user has, in any context, leads to the changed one. -/
structure Apart (G : Graph) (u : UserId) (changed : RoleId) : Prop where
  assigned : ∀ a ∈ G.assignments, a.subject.Covers G u → ¬ ReflTransGen (Edge G) a.roleId changed
  extra : ∀ row ∈ G.orgRoles, row.user = u → ∀ i, G.getRoleIdByName row.role = some i →
    ¬ ReflTransGen (Edge G) i changed

section

variable (h : ChangesRole G G' changed kept named)

include h

/-- What the role still grants, every role that leads to it grants as before, and any other
role grants what it granted. -/
theorem ChangesRole.roleGrants (hchg : ReflTransGen (Edge G) i changed →
      RoleGrants G changed p → kept ∧ RoleGrants G' changed p) (hg : RoleGrants G i p) :
    RoleGrants G' i p := by
  induction hg with
  | @own i role p ha hp =>
    by_cases hi : i = changed
    · exact hi ▸ (hchg (hi ▸ .refl) (hi ▸ .own ha hp)).2
    · obtain ⟨role', ha', hperms, -⟩ := h.roles i role hi ha
      exact .own ha' (hperms p hp)
  | @inherited i parent role p ha hq hg ih =>
    have hup : ReflTransGen (Edge G) parent changed → ReflTransGen (Edge G) i changed :=
      .head ⟨role, ha.1, hq⟩
    by_cases hi : i = changed
    · exact hi ▸ (hchg (hi ▸ .refl) (hi ▸ .inherited ha hq hg)).2
    · obtain ⟨role', ha', -, hpars⟩ := h.roles i role hi ha
      refine .inherited ha' (hpars _ hq fun he => ?_) (ih fun hpath => hchg (hup hpath))
      exact (hchg (hup (he ▸ .refl)) (he ▸ hg)).1

theorem ChangesRole.covers {s : Subject} (hs : s.Covers G u) : s.Covers G' u := by
  cases s with
  | user v => exact hs
  | group g =>
    have hmem : MemberOf G (.user u) g := hs
    induction hmem with
    | direct hd => exact .direct (h.members ▸ hd)
    | nested hm hd ih => exact .nested (ih hm) (h.members ▸ hd)

theorem ChangesRole.source
    (hchg : ¬ Apart G u changed → RoleGrants G changed p → kept ∧ named ∧ RoleGrants G' changed p)
    (hs : Source G u org p) : Source G' u org p := by
  cases hs with
  | @assigned a _ ha hcov happ hg =>
    have hmet : ReflTransGen (Edge G) a.roleId changed → ¬ Apart G u changed :=
      fun hpath hapart => hapart.assigned a ha hcov hpath
    refine .assigned (h.assignments _ ha fun he => ?_) (h.covers hcov) happ (h.roleGrants ?_ hg)
    · exact (hchg (hmet (he ▸ .refl)) (he ▸ hg)).1
    · exact fun hpath hg => ⟨(hchg (hmet hpath) hg).1, (hchg (hmet hpath) hg).2.2⟩
  | granted he hu happ => exact .granted (h.grants ▸ he) hu happ
  | @extra row i _ hrow horg hu hi hg =>
    have hmet : ReflTransGen (Edge G) i changed → ¬ Apart G u changed :=
      fun hpath hapart => hapart.extra row hrow hu i hi hpath
    obtain ⟨hrow', hi'⟩ := h.extras _ hrow _ hi fun he => (hchg (hmet (he ▸ .refl)) (he ▸ hg)).2.1
    refine .extra hrow' horg hu hi' (h.roleGrants ?_ hg)
    exact fun hpath hg => ⟨(hchg (hmet hpath) hg).1, (hchg (hmet hpath) hg).2.2⟩

end

end

/-! ## Updates and deletions -/

section

variable {G : Graph} {role : Role} {req : UpdateRoleRequest} {name : String} {i : RoleId}

theorem changesRole_update (hrole : G.getRole role.id = some role) {hname} :
    ChangesRole G (G.replaceRole (role.update req) hname) role.id True
      (req.name.getD role.name = role.name) := by
  have hwrite : WritesRole G (G.replaceRole (role.update req) hname) (role.update req) :=
    writesRole_replaceRole hrole
  constructor
  case roles =>
    intro i r hi ha
    refine ⟨r, ⟨(hwrite.others i hi).trans ha.1, ha.2⟩, fun p hp => hp, fun q hq _ => hq⟩
  case members => rfl
  case grants => rfl
  case archived => rfl
  case assignments => exact fun a ha _ => ha
  case extras =>
    intro row hrow i hi hnamed
    refine ⟨hrow, ?_⟩
    by_cases hne : i = role.id
    · obtain ⟨r, hr, hrname, hid⟩ := getRoleIdByName_eq_some.1 hi
      -- the row names the changed role, which still has that name
      have heq : r = role := inj_on_of_nodup_map G.nodup_ids hr
        (getRole_eq_some.1 hrole).1 (hid.trans hne)
      refine getRoleIdByName_eq_some.2 ⟨role.update req, ?_, ?_, hne.symm⟩
      · exact (getRole_eq_some.1 hwrite.written).1
      · exact (hnamed hne).trans (heq ▸ hrname)
    · obtain ⟨r, hr, hrname, rfl⟩ := getRoleIdByName_eq_some.1 hi
      refine getRoleIdByName_eq_some.2 ⟨r, mem_map.2 ⟨r, hr, ?_⟩, hrname, rfl⟩
      exact if_neg hne

theorem changesRole_delete (hrole : G.getRole role.id = some role) :
    ChangesRole G (G.withoutRole role) role.id False False := by
  constructor
  case roles =>
    intro i r hi ha
    obtain ⟨hmem, rfl⟩ := getRole_eq_some.1 ha.1
    refine ⟨{ r with parentRoles := r.parentRoles.filter fun p => p ≠ role.id }, ⟨?_, ha.2⟩,
      fun p hp => hp, fun q hq hkept => mem_filter.2 ⟨hq, decide_eq_true hkept⟩⟩
    refine getRole_eq_some.2 ⟨mem_map.2 ⟨r, mem_filter.2 ⟨hmem, ?_⟩, rfl⟩, rfl⟩
    exact decide_eq_true hi
  case members => rfl
  case grants => rfl
  case archived => rfl
  case assignments => exact fun a ha hkept => mem_filter.2 ⟨ha, decide_eq_true hkept⟩
  case extras =>
    intro row hrow i hi hne
    obtain ⟨r, hr, hrname, rfl⟩ := getRoleIdByName_eq_some.1 hi
    have hother : row.role ≠ role.name := fun he => hne (congrArg Role.id
      (inj_on_of_nodup_map G.nodup_names hr (getRole_eq_some.1 hrole).1 (hrname.trans he)))
    refine ⟨mem_filter.2 ⟨hrow, decide_eq_true hother⟩, getRoleIdByName_eq_some.2 ?_⟩
    exact ⟨_, mem_map.2 ⟨r, mem_filter.2 ⟨hr, decide_eq_true hne⟩, rfl⟩, hrname, rfl⟩

end

/-! ## Chains -/

section

variable {G G' : Graph} {role : Role} {op : Op} {user : UserId} {org : Option OrganizationId}

theorem edge_withoutRole {i q} (h : Edge (G.withoutRole role) i q) : Edge G i q := by
  obtain ⟨r, hr, hq⟩ := h
  obtain ⟨hmem, rfl⟩ := getRole_eq_some.1 hr
  obtain ⟨r0, hr0, rfl⟩ := mem_map.1 hmem
  exact ⟨r0, getRole_eq_some.2 ⟨(mem_filter.1 hr0).1, rfl⟩, (mem_filter.1 hq).1⟩

theorem composes_withoutRole {i q} (h : Composes (G.withoutRole role) i q) : Composes G i q := by
  obtain ⟨r, ⟨hr, hact⟩, hq⟩ := h
  obtain ⟨hmem, rfl⟩ := getRole_eq_some.1 hr
  obtain ⟨r0, hr0, rfl⟩ := mem_map.1 hmem
  exact ⟨r0, ⟨getRole_eq_some.2 ⟨(mem_filter.1 hr0).1, rfl⟩, hact⟩, (mem_filter.1 hq).1⟩

theorem deleteRole_eq_ok {roleId cascade} (h : deleteRole G roleId cascade = .ok G') :
    ∃ role, G.getRole roleId = some role ∧ G' = G.withoutRole role := by
  unfold deleteRole at h
  split at h
  · cases h
  · next role hrole =>
    obtain ⟨_, -, h⟩ := bind_eq_ok.1 h
    obtain ⟨_, -, h⟩ := bind_eq_ok.1 h
    cases h
    exact ⟨role, hrole, rfl⟩

/-- The operations that neither shape the graph nor delete a role leave the roles alone. -/
theorem roles_of_runs (hop : op.shapes = false) (hdel : ∀ i cascade, op ≠ .deleteRole i cascade)
    (h : Runs G op (.ok G')) : G'.roles = G.roles := by
  cases op with
  | createRole | updateRole | createGroup | addGroupMember | removeGroupMember | assignRole => cases hop
  | deleteRole i cascade => exact absurd rfl (hdel i _)
  | seedUserPermissionUnchecked | revokeUserPermission | removeAdditionalRole | purgeOrgRolesForUser
  | purgeOrgRolesForOrg | purgeUserFromRealm =>
    cases h
    rfl
  | updateGroup group req =>
    have h : updateGroup G group req = .ok G' := h.symm
    unfold updateGroup at h
    split at h
    · cases h
    · obtain ⟨_, -, h⟩ := bind_eq_ok.1 h
      obtain ⟨_, -, h⟩ := bind_eq_ok.1 h
      split at h <;> cases h
      rfl
  | deleteGroup group =>
    have h : deleteGroup G group = .ok G' := h.symm
    unfold deleteGroup at h
    split at h
    · cases h
    · obtain ⟨_, -, h⟩ := bind_eq_ok.1 h
      cases h
      rfl
  | unassignRole id | grantUserPermission grant =>
    obtain ⟨_, -, h⟩ := bind_eq_ok.1 h.symm
    cases h
    rfl
  | addAdditionalRole row =>
    obtain ⟨_, -, h⟩ := bind_eq_ok.1 h.symm
    obtain ⟨_, -, h⟩ := bind_eq_ok.1 h
    cases h
    rfl

/-- No operation puts a cycle into the roles. -/
theorem acyclic_of_runs (h : Runs G op (.ok G')) (hG : Acyclic (Edge G)) : Acyclic (Edge G') := by
  cases hop : op.shapes with
  | true => exact (shapes_of_runs hop h).acyclic hG
  | false =>
    by_cases hdel : ∃ i cascade, op = .deleteRole i cascade
    · obtain ⟨i, cascade, rfl⟩ := hdel
      obtain ⟨role, -, rfl⟩ := deleteRole_eq_ok h.symm
      exact hG.mono fun _ _ => edge_withoutRole
    · exact acyclic_of_eq (roles_of_runs hop (fun i cascade he => hdel ⟨i, cascade, he⟩) h) hG

theorem reachable_acyclic_roles
    (h : Reachable (· = .empty) (fun G G' => ∃ op, Call op G G') G) : Acyclic (Edge G) := by
  refine h.invariant (I := fun G => Acyclic _) ?_ ?_
  · rintro G rfl
    exact acyclic_empty
  · rintro G G' - hG ⟨op, hcall⟩
    cases hcall with
    | accepted hrun => exact acyclic_of_runs hrun hG
    | refused => exact hG

theorem resolveFull_answers (hac : Acyclic (Edge G)) (hshort : ShortRoles G)
    (hgrps : ∃ groups, bfsGroups G user = .ok groups) : ∃ r, resolveFull G user org = .ok r := by
  obtain ⟨groups, hgrps⟩ := hgrps
  cases hr : resolveFull G user org with
  | ok r => exact ⟨r, rfl⟩
  | error e =>
    obtain herr | hfault := resolveFull_ends.2 e hr
    · exact nomatch hgrps.symm.trans herr
    · obtain ⟨i, -, j, hchain⟩ := hfault.deep hac
      exact absurd (hshort _ i j hchain) (Nat.not_succ_le_self _)

/-- A user that resolves in one graph resolves in one with the same memberships and short chains. -/
theorem resolveFull_answers_of_members {r} (hr : resolveFull G user org = .ok r)
    (hmems : G'.members = G.members) (hac : Acyclic (Edge G')) (hshort : ShortRoles G') :
    ∃ r, resolveFull G' user org = .ok r := by
  obtain ⟨groups, hgrps, -⟩ := bind_eq_ok.1 hr
  have hpars : G'.parentGroupsOf = G.parentGroupsOf := by
    unfold parentGroupsOf
    rw [hmems]
  have hsame := bfsGroups_congr (fun g => congrFun hpars _) (congrFun hpars (.user user))
  exact resolveFull_answers hac hshort ⟨groups, hsame.trans hgrps⟩

end

end Hearth.Rbac
