import Hearth.Base.Chains
import Hearth.Rbac.CreateRole

/-!
# Graphs that resolve

Resolution gives up on a role composed through more than `maxRoleDepth` others and
on a user nested in more than `maxGroupDepth` groups. The operations check the
part of a chain they can see from the new edge: `check_role_parents_no_cycle` what
lies above the new parents, `check_group_no_cycle` what lies below the new member.
Neither looks at the other end.

* `checkRoleParentsNoCycle_spec`, `checkGroupNoCycle_spec`: a change that passes
  closes no cycle;
* `resolution_is_union`: resolution returns what the rows describe, and is refused
  only over a long chain, a cycle or too many groups;
* `accepted_graph_resolves`: in a run whose changes fit both ends together, it is
  refused only over too many groups.
-/

namespace Hearth.Rbac

open Base Relation List Rbac.Graph

section

variable (G : Graph)

/-- A role and one of its parents, whatever their status. -/
def Edge (i q : RoleId) : Prop := ∃ role, G.getRole i = some role ∧ q ∈ role.parentRoles

/-- A group and one that has it as a member. -/
def Nested (h g : GroupId) : Prop := ⟨g, .group h⟩ ∈ G.members

variable {G}

theorem Composes.edge {i q} : Composes G i q → Edge G i q :=
  fun ⟨role, ha, hq⟩ => ⟨role, ha.1, hq⟩

end

/-! ## What the checks establish -/

section

variable {G : Graph} {start current : RoleId} {levels : Nat} {visited visited' V : Finset RoleId}

/-- Whatever is in `V` and was not in `visited` has its parents in `V`, and none of
them is `start`. -/
def Explored (G : Graph) (start : RoleId) (visited V : Finset RoleId) : Prop :=
  visited ⊆ V ∧ ∀ v ∈ V, v ∉ visited → ∀ q, Edge G v q → q ∈ V ∧ q ≠ start

theorem Explored.refl : Explored G start visited visited :=
  ⟨subset_rfl, fun _ => absurd⟩

theorem Explored.trans (h1 : Explored G start visited visited') (h2 : Explored G start visited' V) :
    Explored G start visited V := by
  refine ⟨h1.1.trans h2.1, fun v hv hn q hq => ?_⟩
  by_cases hv' : v ∈ visited'
  · obtain ⟨hin, hne⟩ := h1.2 v hv' hn q hq
    exact ⟨h2.1 hin, hne⟩
  · exact h2.2 v hv hv' q hq

/-- Walks from the given roles, none of which is `start`. -/
theorem walk_fold {roots : List RoleId}
    {walk : RoleId → Finset RoleId → Except RbacError (Finset RoleId)}
    (hwalk : ∀ p visited V, walk p visited = .ok V → p ∈ V ∧ Explored G start visited V)
    (h : roots.foldlM (fun visited p => if p = start then .error (.roleCycle start) else walk p visited)
      visited = .ok V) : Explored G start visited V ∧ ∀ p ∈ roots, p ∈ V ∧ p ≠ start := by
  refine foldlM_spec (Q := fun p V => p ∈ V ∧ p ≠ start) ?_ ?_ .refl h
  · intro s p s' hs hp
    split at hp
    · cases hp
    · next hne =>
      obtain ⟨hin, hexp⟩ := hwalk p s s' hp
      exact ⟨hs.trans hexp, hin, hne⟩
  · intro s p q s' _ hp hq
    split at hq
    · cases hq
    · exact ⟨(hwalk q s s' hq).2.1 hp.1, hp.2⟩

theorem walkRoleParents_spec (h : walkRoleParents G start levels current visited = .ok V) :
    current ∈ V ∧ Explored G start visited V := by
  induction levels generalizing current visited V with
  | zero => cases h
  | succ levels ih =>
    unfold walkRoleParents at h
    split at h
    · next hv => cases h; exact ⟨hv, .refl⟩
    · split at h
      · next hnone =>
        cases h
        refine ⟨Finset.mem_insert_self .., Finset.subset_insert .., fun v hv hn q hq => ?_⟩
        obtain rfl := (Finset.mem_insert.1 hv).resolve_right hn
        obtain ⟨role, hrole, -⟩ := hq
        exact nomatch hnone.symm.trans hrole
      · next role hrole =>
        obtain ⟨hexp, hroots⟩ := walk_fold (fun p s s' => ih) h
        refine ⟨hexp.1 (Finset.mem_insert_self ..), ?_⟩
        refine ⟨(Finset.subset_insert ..).trans hexp.1, fun v hv hn q hq => ?_⟩
        by_cases hcur : v = current
        · obtain ⟨r, hr, hqr⟩ := hq
          rw [hcur, hrole] at hr
          exact hroots q (Option.some.inj hr ▸ hqr)
        · exact hexp.2 v hv (fun hin => (Finset.mem_insert.1 hin).elim hcur hn) q hq

theorem checkRoleParentsNoCycle_spec {parents : List RoleId} {u : Unit}
    (h : checkRoleParentsNoCycle G start parents = .ok u) :
    ∀ p ∈ parents, ¬ ReflTransGen (Edge G) p start := by
  obtain ⟨V, hV, -⟩ := bind_eq_ok.1 h
  obtain ⟨⟨-, hclos⟩, hroots⟩ := walk_fold (fun p s s' => walkRoleParents_spec) hV
  intro p hp hpath
  have hin : ∀ x, ReflTransGen (Edge G) p x → x ∈ V ∧ x ≠ start := by
    intro x hx
    induction hx with
    | refl => exact hroots p hp
    | tail _ hedge ih => exact hclos _ ih.1 (Finset.notMem_empty _) _ hedge
  exact (hin _ hpath).2 rfl

end

section

variable {G : Graph} {target : GroupId} {n : Nat} {stack : List (GroupId × Nat)}
  {visited : Finset GroupId} {cur : GroupId}

@[simp] theorem mem_childGroups {c} : c ∈ childGroups G cur ↔ Nested G c cur := by
  unfold childGroups Nested
  simp only [mem_filterMap, mem_filter, decide_eq_true_eq]
  constructor
  · rintro ⟨⟨g, m⟩, ⟨hmem, rfl⟩, hm⟩
    cases m with
    | user u => cases hm
    | group k => cases hm; exact hmem
  · exact fun h => ⟨_, ⟨h, rfl⟩, rfl⟩

def rowsLeft (G : Graph) (visited : Finset GroupId) : Nat := G.members.countP fun e => e.group ∉ visited

theorem rowsLeft_insert (hcur : cur ∉ visited) :
    (childGroups G cur).length + rowsLeft G (insert cur visited) ≤ rowsLeft G visited := by
  have hkids : (childGroups G cur).length ≤ G.members.countP fun e => e.group = cur := by
    rw [countP_eq_length_filter]
    exact length_filterMap_le ..
  refine (Nat.add_le_add_right hkids _).trans ?_
  unfold rowsLeft
  simp only [Finset.mem_insert, not_or]
  induction G.members with
  | nil => exact le_rfl
  | cons e rows ih =>
    simp only [countP_cons, decide_eq_true_eq]
    by_cases he : e.group = cur
    · simp only [he, hcur, not_true_eq_false, false_and, if_false, not_false_eq_true]
      omega
    · simp only [he, not_false_eq_true, true_and, if_false]
      omega

/-- The loop has fuel for every row, and explores whatever it pops. -/
theorem groupCycleLoop_spec (hn : stack.length + rowsLeft G visited ≤ n) {u}
    (h : groupCycleLoop G target n stack visited = .ok u) :
    ∃ V : Finset GroupId, visited ⊆ V ∧ (∀ x ∈ stack, x.1 ∈ V) ∧
      ∀ v ∈ V, v ∉ visited → ∀ c, Nested G c v → c ∈ V ∧ c ≠ target := by
  induction n generalizing stack visited with
  | zero =>
    have hnil : stack = [] := eq_nil_of_length_eq_zero (by omega)
    exact ⟨visited, subset_rfl, by simp [hnil], fun v => absurd⟩
  | succ n ih =>
    cases stack with
    | nil => exact ⟨visited, subset_rfl, by simp, fun v => absurd⟩
    | cons x stack =>
      obtain ⟨cur, depth⟩ := x
      rw [length_cons] at hn
      unfold groupCycleLoop at h
      split at h
      · cases h
      · split at h
        · next hv =>
          obtain ⟨V, hsub, hstack, hclos⟩ := ih (by omega) h
          exact ⟨V, hsub, forall_mem_cons.2 ⟨hsub hv, hstack⟩, hclos⟩
        · next hv =>
          split at h
          · cases h
          · next htarget =>
            have hrows := rowsLeft_insert (G := G) hv
            obtain ⟨V, hsub, hstack, hclos⟩ := ih (by
              rw [length_append, length_reverse, length_map]
              omega) h
            have hcur : cur ∈ V := hsub (Finset.mem_insert_self ..)
            refine ⟨V, (Finset.subset_insert ..).trans hsub, forall_mem_cons.2 ⟨hcur, ?_⟩, ?_⟩
            · exact fun x hx => hstack x (mem_append_right _ hx)
            · intro v hvV hvn c hc
              by_cases hvc : v = cur
              · subst hvc
                refine ⟨hstack (c, depth + 1) ?_, fun he => htarget (mem_childGroups.2 (he ▸ hc))⟩
                rw [mem_append, mem_reverse, mem_map]
                exact .inl ⟨c, mem_childGroups.2 hc, rfl⟩
              · exact hclos v hvV (fun hin => (Finset.mem_insert.1 hin).elim hvc hvn) c hc

theorem checkGroupNoCycle_spec {member u}
    (h : checkGroupNoCycle G target (.group member) = .ok u) : ¬ ReflTransGen (Nested G) target member := by
  unfold checkGroupNoCycle at h
  dsimp only at h
  split at h
  · cases h
  · next hne =>
    have hfuel : [(member, 0)].length + rowsLeft G ∅ ≤ G.members.length + 1 := by
      rw [add_comm]
      exact Nat.add_le_add_right countP_le_length 1
    obtain ⟨V, -, hstack, hclos⟩ := groupCycleLoop_spec hfuel h
    have hmem : member ∈ V := hstack _ mem_cons_self
    intro hpath
    have hin : ∀ x, ReflTransGen (Nested G) x member → x ∈ V ∧ x ≠ target := by
      intro x hx
      induction hx using ReflTransGen.head_induction_on with
      | refl => exact ⟨hmem, hne⟩
      | head hedge _ ih => exact hclos _ ih.1 (Finset.notMem_empty _) _ hedge
    exact (hin _ hpath).2 rfl

end

/-! ## How resolution ends -/

section

variable {G : Graph} {user : UserId} {org : Option OrganizationId} {i : RoleId} {walk : RoleWalk}
  {levels : Nat}

/-- The role is composed through a chain of `n` others. -/
def DeepRole (G : Graph) (n : Nat) (i : RoleId) (e : RbacError) : Prop :=
  e = .depthExceeded .roleComposition maxRoleDepth ∧ ∃ j, Chain (Composes G) n i j

/-- Expanding the role was refused: its composition is too deep or has a cycle. -/
def RoleFault (G : Graph) (n : Nat) (i : RoleId) (e : RbacError) : Prop :=
  DeepRole G n i e ∨
    ∃ c, e = .roleCycle c ∧ ReflTransGen (Composes G) i c ∧ TransGen (Composes G) c c

/-- Every role on the path leads to the one that is expanded, which closes a cycle if
it is on the path. -/
theorem expandRole_ends (hpath : ∀ v ∈ walk.path, TransGen (Composes G) v i) :
    Ends (expandRole G levels i walk)
      (fun w => w.path = walk.path ∧ ∀ n ∈ w.roleNames, n ∈ walk.roleNames ∨ RoleNamed G i n)
      (RoleFault G levels i) := by
  induction levels generalizing i walk with
  | zero => exact .error (.inl ⟨rfl, i, .refl i⟩)
  | succ levels ih =>
    unfold expandRole
    split
    · next hin => exact .error (.inr ⟨i, rfl, .refl, hpath i hin⟩)
    · next hoff =>
      split
      · exact .ok ⟨rfl, fun _ => .inl⟩
      · split
        · exact .ok ⟨rfl, fun _ => .inl⟩
        · next role hrole =>
          split
          · exact .ok ⟨rfl, fun _ => .inl⟩
          · next harch =>
            have ha : Active G i role := ⟨hrole, harch⟩
            refine .bind (P := fun w => w.path = insert i walk.path ∧
              ∀ n ∈ w.roleNames, n ∈ walk.roleNames ∨ RoleNamed G i n) (.foldlM ?_ ⟨?_, ?_⟩) ?_
            · rintro q hq w ⟨hw, hnames⟩
              have hedge : Composes G i q := ⟨role, ha, hq⟩
              refine (ih ?_).mono (fun w' h => ⟨h.1.trans hw, fun n hn => ?_⟩) ?_
              · rw [hw]
                exact (Finset.forall_mem_insert ..).2
                  ⟨.single hedge, fun v hv => (hpath v hv).tail hedge⟩
              · rcases h.2 n hn with hn | ⟨v, r, hv, hr⟩
                · exact hnames n hn
                · exact .inr ⟨v, r, .head hedge hv, hr⟩
              · rintro e (⟨rfl, j, hj⟩ | ⟨c, rfl, hc, hcycle⟩)
                · exact .inl ⟨rfl, j, .head hedge hj⟩
                · exact .inr ⟨c, rfl, .head hedge hc, hcycle⟩
            · rw [RoleWalk.enter, ha.id_eq]
            · exact (Finset.forall_mem_insert ..).2 ⟨.inr ⟨i, role, .refl, ha, rfl⟩, fun _ => .inl⟩
            · rintro w ⟨hw, hnames⟩
              refine .ok ⟨?_, hnames⟩
              rw [RoleWalk.leave, hw, Finset.erase_insert hoff]

/-- Some role is composed through more than `maxRoleDepth` others. -/
def DeepRoles (G : Graph) (e : RbacError) : Prop := ∃ i, DeepRole G (maxRoleDepth + 1) i e

/-- Between two roots nothing is in progress, and the names are of roles that a root
leads to. -/
def RootsNamed (G : Graph) (user : UserId) (org : Option OrganizationId) (walk : RoleWalk) : Prop :=
  walk.path = ∅ ∧ ∀ n ∈ walk.roleNames, ∃ i, RootRole G user org i ∧ RoleNamed G i n

def RootFault (G : Graph) (user : UserId) (org : Option OrganizationId) (e : RbacError) : Prop :=
  ∃ i, RootRole G user org i ∧ RoleFault G (maxRoleDepth + 1) i e

theorem RootFault.deep {e} (hac : Acyclic (Edge G)) (h : RootFault G user org e) : DeepRoles G e := by
  obtain ⟨i, -, hdeep | ⟨c, -, -, hcycle⟩⟩ := h
  · exact ⟨i, hdeep⟩
  · exact absurd (hcycle.lift id (fun _ _ he => he.edge)) (hac c)

theorem expandRoot_ends (hroot : RootRole G user org i) (hw : RootsNamed G user org walk) :
    Ends (expandRoot G i walk) (RootsNamed G user org) (RootFault G user org) := by
  have hpath : ∀ v ∈ walk.path, TransGen (Composes G) v i := by
    intro v hv
    rw [hw.1] at hv
    exact absurd hv (Finset.notMem_empty v)
  refine (expandRole_ends hpath).mono (fun w h => ⟨h.1.trans hw.1, fun n hn => ?_⟩)
    fun e he => ⟨i, hroot, he⟩
  rcases h.2 n hn with hn | hn
  · exact hw.2 n hn
  · exact ⟨i, hroot, hn⟩

section

variable (G : Graph)

variable (user : UserId)

/-- The group is `n` nestings above one the user is a member of. -/
def GroupAbove (n : Nat) (g : GroupId) : Prop :=
  ∃ a, ⟨a, .user user⟩ ∈ G.members ∧ Chain (Nested G) n a g

def ManyGroups : Prop :=
  ∃ groups : List GroupId, groups.Nodup ∧ maxGroupBreadth < groups.length ∧
    ∀ g ∈ groups, MemberOf G (.user user) g

/-- The user has too many groups, or a chain of more than `maxGroupDepth`. -/
def GroupFault (e : RbacError) : Prop :=
  e = .breadthExceeded .groupMembership maxGroupBreadth ∧ ManyGroups G user ∨
    e = .depthExceeded .groupMembership maxGroupDepth ∧
      ∃ n g, maxGroupDepth ≤ n ∧ GroupAbove G user n g

end

/-- The groups found are different ones of the user, and so are those to be found, as many
nestings above a membership as the queue says. -/
structure BfsMet (G : Graph) (user : UserId) (found : List GroupId × List (GroupMember × Nat)) :
    Prop where
  nodup : found.1.Nodup
  member : ∀ g ∈ found.1, MemberOf G (.user user) g
  queued : ∀ x ∈ found.2, ∀ g, ⟨g, x.1⟩ ∈ G.members →
    MemberOf G (.user user) g ∧ GroupAbove G user x.2 g

theorem bfsPush_ends {found k parent} (habove : GroupAbove G user k parent)
    (hm : MemberOf G (.user user) parent) (hf : BfsMet G user found) :
    Ends (bfsPush (k + 1) found parent) (BfsMet G user) (GroupFault G user) := by
  unfold bfsPush
  split
  · exact .ok hf
  · next hnew =>
    have hnodup : (parent :: found.1).Nodup := nodup_cons.2 ⟨hnew, hf.nodup⟩
    split
    · next hmany =>
      exact .error (.inl ⟨rfl, _, hnodup, hmany, forall_mem_cons.2 ⟨hm, hf.member⟩⟩)
    · split
      · next hdeep => exact .error (.inr ⟨rfl, k, parent, Nat.le_of_lt_succ hdeep, habove⟩)
      · refine .ok ⟨(perm_append_singleton ..).nodup_iff.2 hnodup, ?_, ?_⟩
        · exact forall_mem_append.2 ⟨hf.member, forall_mem_singleton.2 hm⟩
        · refine forall_mem_append.2 ⟨hf.queued, forall_mem_singleton.2 fun g hg => ?_⟩
          obtain ⟨a, ha, hchain⟩ := habove
          exact ⟨.nested hm hg, a, ha, hchain.snoc hg⟩

theorem bfsLoop_ends {n queue visited} (hf : BfsMet G user (visited, queue)) :
    Ends (bfsLoop G n queue visited) (fun _ => True) (GroupFault G user) := by
  induction n generalizing queue visited with
  | zero => exact .ok trivial
  | succ n ih =>
    cases queue with
    | nil => exact .ok trivial
    | cons x queue =>
      obtain ⟨hx, hrest⟩ := forall_mem_cons.1 hf.queued
      refine .bind (.foldlM ?_ { hf with queued := hrest }) fun f => ih
      intro parent hpar found hfound
      obtain ⟨hm, habove⟩ := hx parent (mem_parentGroupsOf.1 hpar)
      exact bfsPush_ends habove hm hfound

theorem bfsGroups_ends : Ends (bfsGroups G user) (fun _ => True) (GroupFault G user) :=
  bfsLoop_ends ⟨nodup_nil, by simp, forall_mem_singleton.2 fun g hg => ⟨.direct hg, g, hg, .refl g⟩⟩

/-- Resolution is refused where the walk over the groups is, and over a root. -/
theorem resolveFull_ends : Ends (resolveFull G user org)
    (fun r => ∀ n ∈ r.roles, ∃ i, RootRole G user org i ∧ RoleNamed G i n)
    (fun e => bfsGroups G user = .error e ∨ RootFault G user org e) := by
  refine .bind ⟨fun _ h => h, fun _ => .inl⟩ fun groups hgrps => ?_
  refine .bind (P := RootsNamed G user org) (.foldlM ?_ ⟨rfl, by simp [RoleWalk.empty]⟩)
    fun w hw => .bind (P := RootsNamed G user org) ?_ fun _ h => .ok h.2
  · intro a ha w hw
    obtain ⟨hreach, happ⟩ := mem_filter.1 ha
    obtain ⟨hmem, hcov⟩ := (mem_reachableAssignments hgrps).1 hreach
    exact (expandRoot_ends (.assigned hmem hcov happ) hw).mono (fun _ h => h) fun _ => .inr
  · unfold expandOrgRoles
    split
    · refine .foldlM (fun name hname w hw => ?_) hw
      obtain ⟨row, ⟨hrow, horg, huser⟩, rfl⟩ := mem_additionalRoles.1 hname
      unfold expandByName
      split
      · next hid =>
        refine (expandRoot_ends (.extra hrow (congrArg some horg.symm) huser hid) hw).mono
          (fun _ h => h) fun _ => .inr
      · exact .ok hw
    · exact .ok hw

theorem mem_groups {r} (h : resolveFull G user org = .ok r) {s} :
    s ∈ r.groups ↔ ∃ g, MemberOf G (.user user) g ∧ G.getGroupSlug g = some s := by
  obtain ⟨groups, hgrps, h⟩ := bind_eq_ok.1 h
  obtain ⟨_, -, h⟩ := bind_eq_ok.1 h
  obtain ⟨_, -, h⟩ := bind_eq_ok.1 h
  cases h
  simp only [id, mem_toFinset, mem_filterMap, mem_bfsGroups hgrps]

/-- What resolution returns is the union that the stored rows describe. It is refused only
over groups of the user that are too many or nested too deep, and over a role of the user
that is composed too deep or through a cycle. -/
theorem resolution_is_union (G : Graph) (user : UserId) (org : Option OrganizationId) :
    Ends (resolveFull G user org)
      (fun r => (∀ p, p ∈ r.permissions ↔ Source G user org p ∧ G.permissionArchived p = false) ∧
        (∀ n, n ∈ r.roles ↔ ∃ i, RootRole G user org i ∧ RoleNamed G i n) ∧
        ∀ s, s ∈ r.groups ↔ ∃ g, MemberOf G (.user user) g ∧ G.getGroupSlug g = some s)
      (fun e => GroupFault G user e ∨ RootFault G user org e) := by
  refine ⟨fun r hr => ⟨fun p => resolveFull_permissions hr, fun n => ⟨?_, ?_⟩, fun s => mem_groups hr⟩, ?_⟩
  · exact resolveFull_ends.1 r hr n
  · rintro ⟨i, hroot, hn⟩
    exact resolveFull_roles hr hroot hn
  · intro e he
    exact (resolveFull_ends.2 e he).imp_left (bfsGroups_ends.2 e)

end

/-! ## What the operations keep -/

section

variable {G G' : Graph} {role : Role}

/-- The graph afterwards has `role`, and the other roles as they were. -/
structure WritesRole (G G' : Graph) (role : Role) : Prop where
  written : G'.getRole role.id = some role
  others : ∀ i, i ≠ role.id → G'.getRole i = G.getRole i

theorem writesRole_insertRole {hid hname} : WritesRole G (G.insertRole role hid hname) role :=
  ⟨getRole_insertRole_self, fun _ => getRole_insertRole⟩

theorem writesRole_replaceRole {old hname}
    (hold : G.getRole role.id = some old) : WritesRole G (G.replaceRole role hname) role := by
  constructor
  case written =>
    obtain ⟨hmem, hid⟩ := getRole_eq_some.1 hold
    refine getRole_eq_some.2 ⟨mem_map.2 ⟨old, hmem, ?_⟩, rfl⟩
    rw [rewriteBy, if_pos hid]
  case others =>
    intro i hi
    refine Option.ext fun r => ?_
    rw [getRole_eq_some, getRole_eq_some]
    change r ∈ G.roles.map (rewriteBy Role.id role) ∧ r.id = i ↔ _
    rw [mem_map]
    constructor
    · rintro ⟨⟨s, hs, rfl⟩, hid⟩
      have hkey : (rewriteBy Role.id role s).id = s.id := key_rewriteBy s
      rw [hkey] at hid
      have hne : s.id ≠ role.id := hid ▸ hi
      rw [rewriteBy, if_neg hne]
      exact ⟨hs, hid⟩
    · rintro ⟨hr, rfl⟩
      exact ⟨⟨r, hr, if_neg hi⟩, rfl⟩

section

variable (h : WritesRole G G' role)

include h

theorem WritesRole.edge : AddsFrom (Edge G) (Edge G') role.id (· ∈ role.parentRoles) := by
  rintro i q ⟨r, hr, hq⟩
  by_cases hi : i = role.id
  · rw [hi, h.written] at hr
    exact .inr ⟨hi, Option.some.inj hr ▸ hq⟩
  · rw [h.others i hi] at hr
    exact .inl ⟨r, hr, hq⟩

theorem WritesRole.composes : AddsFrom (Composes G) (Composes G') role.id
      (fun q => role.status ≠ .archived ∧ q ∈ role.parentRoles) := by
  rintro i q ⟨r, ⟨hr, hact⟩, hq⟩
  by_cases hi : i = role.id
  · rw [hi, h.written] at hr
    cases hr
    exact .inr ⟨hi, hact, hq⟩
  · rw [h.others i hi] at hr
    exact .inl ⟨r, ⟨hr, hact⟩, hq⟩

section

variable (G : Graph)

/-- The chains through the role fit together: up to it, over one of its parents, and
on from there. -/
def FitsRole (i : RoleId) (parents : List RoleId) : Prop :=
  ∀ k m a q b, Chain (Composes G) k a i → q ∈ parents → Chain (Composes G) m q b →
    k + 1 + m ≤ maxRoleDepth

/-- The chains through the new member fit together. -/
def FitsGroup (g member : GroupId) : Prop :=
  ∀ k m a b, Chain (Nested G) k a member → Chain (Nested G) m g b → k + 1 + m < maxGroupDepth

def ShortRoles : Prop := ∀ n i j, Chain (Composes G) n i j → n ≤ maxRoleDepth

def ShortGroups : Prop := ∀ n a b, Chain (Nested G) n a b → n < maxGroupDepth

end

theorem WritesRole.shortRoles (hback : ∀ p ∈ role.parentRoles, ¬ ReflTransGen (Edge G) p role.id)
    (hfit : role.status ≠ .archived → FitsRole G role.id role.parentRoles) (hG : ShortRoles G) :
    ShortRoles G' := by
  refine h.composes.chain_le ?_ hG ?_
  · rintro q ⟨-, hq⟩ hpath
    have hedge : ReflTransGen (Edge G') q role.id := .mono (fun _ _ he => he.edge) _ _ hpath
    exact hback q hq (h.edge.old_path hback hq hedge)
  · rintro k m a q b hk ⟨hact, hq⟩ hm
    exact hfit hact k m a q b hk hq hm

end

theorem shortRoles_of_eq (hroles : G'.roles = G.roles) (hG : ShortRoles G) : ShortRoles G' := by
  unfold ShortRoles Composes Active getRole
  rw [hroles]
  exact hG

theorem acyclic_of_eq (hroles : G'.roles = G.roles) (hG : Acyclic (Edge G)) : Acyclic (Edge G') := by
  unfold Edge getRole
  rw [hroles]
  exact hG

theorem shortGroups_of_subset (h : ∀ a b, Nested G' a b → Nested G a b) (hG : ShortGroups G) :
    ShortGroups G' :=
  fun n a b hchain => hG n a b (hchain.mono h)

theorem shortGroups_addGroupMember {g member}
    (hfit : ∀ h, member = .group h → FitsGroup G g h) (h : addGroupMember G g member = .ok G')
    (hG : ShortGroups G) : ShortGroups G' := by
  obtain ⟨hcheck, -, hmem⟩ := addGroupMember_eq_ok h
  cases member with
  | user u =>
    refine shortGroups_of_subset (fun a b hab => ?_) hG
    rcases (hmem _).1 hab with he | hab
    · cases he
    · exact hab
  | group k =>
    have hadds : AddsFrom (Nested G) (Nested G') k (· = g) := by
      intro a b hab
      rcases (hmem _).1 hab with he | hab
      · cases he
        exact .inr ⟨rfl, rfl⟩
      · exact .inl hab
    have hback : ∀ q, q = g → ¬ ReflTransGen (Nested G) q k := by
      rintro q rfl
      exact checkGroupNoCycle_spec hcheck
    intro n a b hchain
    refine Nat.lt_of_le_pred (by decide) (hadds.chain_le ?_ ?_ ?_ n a b hchain)
    · exact fun q hq hpath => hback q hq (hadds.old_path hback hq hpath)
    · exact fun n a b hc => Nat.le_pred_of_lt (hG n a b hc)
    · rintro k' m a q b hk rfl hm
      exact Nat.le_pred_of_lt (hfit k rfl k' m a b hk hm)

end

/-! ## Runs -/

section

variable {G G' : Graph} {op : Op}

def Op.shapes : Op → Bool
  | .createRole .. | .updateRole .. | .createGroup .. | .addGroupMember .. | .removeGroupMember ..
  | .assignRole .. => true
  | _ => false

/-- Both ends of a changed chain fit together. -/
def Fits (G : Graph) : Op → Prop
  | .createRole id req => FitsRole G id req.parentRoles
  | .updateRole id req => ∀ role, G.getRole id = some role → (role.update req).status ≠ .archived →
      FitsRole G id (role.update req).parentRoles
  | .addGroupMember g member => ∀ h, member = .group h → FitsGroup G g h
  | _ => True

/-- What a shaping operation that is accepted does to the roles and the nesting. -/
inductive Shapes (G G' : Graph) (fits : Prop) : Prop
  | role (role : Role) : WritesRole G G' role → G'.members = G.members →
      (∀ p ∈ role.parentRoles, Acyclic (Edge G) → ¬ ReflTransGen (Edge G) p role.id) →
      (fits → role.status ≠ .archived → FitsRole G role.id role.parentRoles) → Shapes G G' fits
  | member (g : GroupId) (m : GroupMember) : addGroupMember G g m = .ok G' →
      (fits → ∀ h, m = .group h → FitsGroup G g h) → Shapes G G' fits
  | other : G'.roles = G.roles → (∀ e ∈ G'.members, e ∈ G.members) → Shapes G G' fits

/-- The parents of an updated role lead to it neither way: they are new and passed
the check, or they are the old ones of a graph without cycles. -/
theorem update_parents {role roleId req} (hrole : G.getRole roleId = some role)
    (hcheck : ∀ parents, req.parentRoles = some parents →
      checkRoleParentsNoCycle G roleId parents = .ok ()) :
    ∀ p ∈ (role.update req).parentRoles, Acyclic (Edge G) → ¬ ReflTransGen (Edge G) p roleId := by
  intro p hp hac hpath
  change p ∈ req.parentRoles.getD role.parentRoles at hp
  cases hreq : req.parentRoles with
  | none =>
    rw [hreq] at hp
    exact hac _ (.head' ⟨role, hrole, hp⟩ hpath)
  | some parents =>
    rw [hreq] at hp
    exact checkRoleParentsNoCycle_spec (hcheck _ hreq) p hp hpath

theorem shapes_of_runs (hop : op.shapes) (h : Runs G op (.ok G')) : Shapes G G' (Fits G op) := by
  cases op with
  | createRole id req =>
    obtain ⟨hid, h⟩ := h
    obtain ⟨hcheck, hnew, hname, rfl⟩ := createRole_eq_ok h.symm
    refine .role _ writesRole_insertRole rfl ?_ fun hfit _ => hfit
    exact fun p hp _ => checkRoleParentsNoCycle_spec hcheck p hp
  | updateRole roleId req =>
    obtain ⟨role, hrole, hcheck, hname, rfl⟩ := updateRole_eq_ok h.symm
    obtain rfl := (getRole_eq_some.1 hrole).2
    exact .role _ (writesRole_replaceRole hrole) rfl (update_parents hrole hcheck)
      fun hfit => hfit role hrole
  | createGroup id req =>
    obtain ⟨hid, h⟩ := h
    obtain ⟨hroles, hmems⟩ := createGroup_eq_ok h.symm
    exact .other hroles fun e he => hmems ▸ he
  | addGroupMember g m => exact .member g m h.symm fun hfit => hfit
  | removeGroupMember g m =>
    cases h
    exact .other rfl fun e he => (mem_filter.1 he).1
  | assignRole id req =>
    obtain ⟨hid, h⟩ := h
    obtain ⟨hroles, hmems⟩ := assignRole_eq_ok h.symm
    exact .other hroles fun e he => hmems ▸ he
  | _ => cases hop

theorem Shapes.acyclic {fits} (h : Shapes G G' fits) (hG : Acyclic (Edge G)) : Acyclic (Edge G') := by
  cases h with
  | role role hw _ hback _ => exact hw.edge.acyclic (fun p hp => hback p hp hG) hG
  | member g m hadd _ => exact acyclic_of_eq (addGroupMember_eq_ok hadd).2.1 hG
  | other hroles _ => exact acyclic_of_eq hroles hG

theorem Shapes.short {fits} (h : Shapes G G' fits) (hfit : fits) (hac : Acyclic (Edge G))
    (hG : ShortRoles G ∧ ShortGroups G) : ShortRoles G' ∧ ShortGroups G' := by
  cases h with
  | role role hw hmems hback hfits =>
    refine ⟨hw.shortRoles (fun p hp => hback p hp hac) (hfits hfit) hG.1, ?_⟩
    exact shortGroups_of_subset (fun a b hab => by unfold Nested at *; rwa [hmems] at hab) hG.2
  | member g m hadd hfits =>
    exact ⟨shortRoles_of_eq (addGroupMember_eq_ok hadd).2.1 hG.1,
      shortGroups_addGroupMember (hfits hfit) hadd hG.2⟩
  | other hroles hmems =>
    exact ⟨shortRoles_of_eq hroles hG.1, shortGroups_of_subset (fun a b => hmems _) hG.2⟩

theorem composes_empty {i q} : ¬ Composes .empty i q := fun ⟨_, ha, _⟩ => nomatch ha.1

theorem acyclic_empty : Acyclic (Edge .empty) := by
  intro i hi
  obtain ⟨q, ⟨role, hrole, -⟩, -⟩ := TransGen.head'_iff.1 hi
  exact nomatch hrole

theorem short_empty : ShortRoles .empty ∧ ShortGroups .empty := by
  constructor
  · intro n i j hchain
    cases hchain with
    | refl => exact Nat.zero_le _
    | head hedge _ => exact absurd hedge composes_empty
  · intro n a b hchain
    cases hchain with
    | refl => exact Nat.succ_pos _
    | head hedge _ => exact absurd hedge not_mem_nil

/-- No run of these operations puts a cycle into the roles. -/
theorem reachable_acyclic
    (h : Reachable (· = .empty) (LabelledWith Call fun op _ => op.shapes = true) G) :
    Acyclic (Edge G) := by
  refine h.invariant (I := fun G => Acyclic _) ?_ ?_
  · rintro G rfl
    exact acyclic_empty
  · rintro G G' - hG ⟨op, hop, hcall⟩
    cases hcall with
    | accepted hrun => exact (shapes_of_runs hop hrun).acyclic hG
    | refused _ => exact hG

/-- The error says that a chain is a cycle or too long. -/
def RbacError.isTraversal : RbacError → Bool
  | .roleCycle _ | .groupCycle _ | .depthExceeded _ _ => true
  | _ => false

/-- The shaping operations, each of which, if it is accepted, fits both ends of the
chain it changes together. -/
def FittingOp (op : Op) (G : Graph) : Prop :=
  op.shapes = true ∧ ((∃ G', Runs G op (.ok G')) → Fits G op)

section

variable (h : Reachable (· = .empty) (LabelledWith Call FittingOp) G)

include h

theorem fitting_acyclic : Acyclic (Edge G) :=
  reachable_acyclic (h.mono fun _ _ ⟨op, hc, hcall⟩ => ⟨op, hc.1, hcall⟩)

theorem fitting_short : ShortRoles G ∧ ShortGroups G := by
  refine h.invariant (I := fun G => ShortRoles G ∧ ShortGroups G) ?_ ?_
  · rintro G rfl
    exact short_empty
  · rintro G G' hr hG ⟨op, ⟨hop, hfit⟩, hcall⟩
    cases hcall with
    | accepted hrun => exact (shapes_of_runs hop hrun).short (hfit ⟨G', hrun⟩) (fitting_acyclic hr) hG
    | refused _ => exact hG

end

/-! ## A ladder of roles -/

variable (n : Nat)

def rungName : String := .ofList (replicate (n + 1) 'r')

/-- Every role has the one before it as its parent, apart from the first and from the
role 10, whose parents are `joint`. -/
def rungParents (joint : List RoleId) (n : Nat) : List RoleId :=
  if n = 10 then joint else if n = 0 then [] else [⟨n - 1⟩]

/-- The first `n` roles, and the one user 1 has, if any. -/
def ladder (joint : List RoleId) (assigned : Option RoleId) : Graph where
  __ := Graph.empty
  roles := (range n).map fun k => ⟨⟨k⟩, rungName k, [], rungParents joint k, .realm, .active, false⟩
  assignments := assigned.toList.map fun i => ⟨⟨0⟩, .user ⟨1⟩, i, .realm⟩
  nodup_ids := by
    rw [List.map_map]
    exact nodup_range.map fun a b h => RoleId.mk.inj h
  nodup_names := by
    rw [List.map_map]
    refine nodup_range.map fun a b h => ?_
    simpa [rungName] using congrArg (fun s => s.toList.length) h
  nodup_assignments := by cases assigned <;> simp

theorem ladder_fresh : (ladder n [] none).FreshRole ⟨n⟩ := by
  refine ⟨fun r hr => ?_, nofun⟩
  obtain ⟨k, hk, rfl⟩ := mem_map.1 hr
  rw [mem_range] at hk
  refine ⟨fun he => ne_of_lt hk (RoleId.mk.inj he), ?_⟩
  unfold rungParents
  split
  · exact not_mem_nil
  · split
    · exact not_mem_nil
    · rw [mem_singleton]
      exact fun he => ne_of_gt (lt_of_le_of_lt (Nat.sub_le k 1) hk) (RoleId.mk.inj he)

theorem ladder_created : ∀ n < 12, createRole (ladder n [] none) ⟨n⟩ (ladder_fresh n)
    ⟨rungName n, [], rungParents [] n, .realm, false⟩ = .ok (ladder (n + 1) [] none) := by
  decide +kernel

theorem ladder_reachable {n} (hn : n ≤ 12) :
    Reachable (· = .empty) (LabelledWith Call fun op _ => op.shapes = true) (ladder n [] none) := by
  induction n with
  | zero => exact .start rfl
  | succ n ih =>
    exact (ih (Nat.le_of_succ_le hn)).next
      ⟨.createRole ⟨n⟩ _, rfl, .accepted ⟨ladder_fresh n, (ladder_created n hn).symm⟩⟩

/-! ## Accepted graphs resolve -/

/-- In a run whose accepted changes fit, no resolution ends in a cycle or over a
depth. -/
theorem accepted_graph_resolves (h : Reachable (· = .empty) (LabelledWith Call FittingOp) G)
    (user : UserId) (org : Option OrganizationId) :
    Ends (resolveFull G user org) (fun _ => True) (fun e => e.isTraversal = false) := by
  obtain ⟨hroles, hgrps⟩ := fitting_short h
  refine resolveFull_ends.mono (fun _ _ => trivial) ?_
  rintro e (he | he)
  · obtain ⟨rfl, -⟩ | ⟨-, n, g, hn, a, -, hchain⟩ := bfsGroups_ends.2 e he
    · rfl
    · exact absurd (hgrps n a g hchain) (not_lt.2 hn)
  · obtain ⟨i, -, j, hchain⟩ := he.deep (fitting_acyclic h)
    exact absurd (hroles _ i j hchain) (Nat.not_succ_le_self _)

theorem composes_ladder_one {i q} : ¬ Composes (ladder 1 [] none) i q := by
  rintro ⟨role, ha, hq⟩
  obtain ⟨hmem, -⟩ := getRole_eq_some.1 ha.1
  obtain ⟨k, hk, rfl⟩ := mem_map.1 hmem
  obtain rfl : k = 0 := Nat.lt_one_iff.1 (mem_range.1 hk)
  exact absurd hq not_mem_nil

theorem ladder_two_fitting : Reachable (· = .empty) (LabelledWith Call FittingOp) (ladder 2 [] none) := by
  have h0 : Reachable (· = .empty) (LabelledWith Call FittingOp) .empty := .start rfl
  have h1 : Reachable (· = .empty) (LabelledWith Call FittingOp) (ladder 1 [] none) :=
    h0.next ⟨.createRole ⟨0⟩ _, ⟨rfl, fun _ _ _ _ _ _ _ hq => absurd hq not_mem_nil⟩,
      .accepted ⟨ladder_fresh 0, (ladder_created 0 (by decide)).symm⟩⟩
  refine h1.next ⟨.createRole ⟨1⟩ _, ⟨rfl, fun _ k m a q b hk _ hm => ?_⟩,
    .accepted ⟨ladder_fresh 1, (ladder_created 1 (by decide)).symm⟩⟩
  cases hk with
  | head hedge _ => exact absurd hedge composes_ladder_one
  | refl =>
    cases hm with
    | head hedge _ => exact absurd hedge composes_ladder_one
    | refl => decide

theorem accepted_graph_resolves_ladder :
    (resolveFull (ladder 2 [] (some ⟨1⟩)) ⟨1⟩ none).isOk ∧
      Ends (resolveFull (ladder 2 [] (some ⟨1⟩)) ⟨1⟩ none) (fun _ => True)
        (fun e => e.isTraversal = false) := by
  have hassign : assignRole (ladder 2 [] none) ⟨0⟩ nofun ⟨.user ⟨1⟩, ⟨1⟩, .realm⟩ =
      .ok (ladder 2 [] (some ⟨1⟩)) := by decide +kernel
  refine ⟨by decide +kernel, accepted_graph_resolves (ladder_two_fitting.next ?_) _ none⟩
  exact ⟨.assignRole ⟨0⟩ _, ⟨rfl, fun _ => trivial⟩, .accepted ⟨nofun, hassign.symm⟩⟩

theorem ladder_assigned : Reachable (· = .empty) (LabelledWith Call fun op _ => op.shapes = true)
    (ladder 12 [] (some ⟨11⟩)) := by
  have hassign : assignRole (ladder 12 [] none) ⟨0⟩ nofun ⟨.user ⟨1⟩, ⟨11⟩, .realm⟩ =
      .ok (ladder 12 [] (some ⟨11⟩)) := by decide +kernel
  exact (ladder_reachable le_rfl).next
    ⟨.assignRole ⟨0⟩ _, rfl, .accepted ⟨nofun, hassign.symm⟩⟩

theorem ladder_joined : updateRole (ladder 12 [] (some ⟨11⟩)) ⟨10⟩
    ⟨none, none, some [⟨9⟩], none, none, false⟩ = .ok (ladder 12 [⟨9⟩] (some ⟨11⟩)) := by
  decide +kernel

/-- The new parent of the role 10 is checked from there. That the role 11, which a
user has, is composed of the role 10 is not looked at: the user has an answer before
the change and none after it. -/
theorem accepted_update_locks_out :
    ∃ G G', Reachable (· = .empty) (LabelledWith Call fun op _ => op.shapes = true) G ∧
      updateRole G ⟨10⟩ ⟨none, none, some [⟨9⟩], none, none, false⟩ = .ok G' ∧
      (resolveFull G ⟨1⟩ none).isOk ∧
      resolveFull G' ⟨1⟩ none = .error (.depthExceeded .roleComposition maxRoleDepth) := by
  refine ⟨_, _, ladder_assigned, ladder_joined, ?_, ?_⟩
  · decide +kernel
  · decide +kernel

end

end Hearth.Rbac
