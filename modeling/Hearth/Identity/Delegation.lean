import Mathlib.Logic.Relation
import Hearth.Base.Run

/-!
# Delegation trees and their revocation

A token exchange stores a grant that points to the token it was exchanged from,
and then reads that token's row in the blocklist again before it hands the new
token out. A revocation walks the tree of grants: it flags a grant, puts its
token on the blocklist, and only then looks for the grants below. Every storage
operation is a step of its own, and each of them may fail.

`revocation_complete`: revocations that neither overlap nor fail leave no token
below off the blocklist. `revocation_incomplete`: one that fails between its two
writes is reported as done by the next one.
-/

namespace Hearth.Identity

open Base List Function Option Relation

structure StoredDelegationGrant where
  delegationId : String
  actorSub : String
  userSub : String
  grantedScope : String
  createdAt : Int
  expiresAt : Int
  revoked : Bool
  tokenJti : String
  parentTokenJti : Option String
  deriving DecidableEq

/-- Expiry in seconds, as the blocklist keeps it. -/
def StoredDelegationGrant.expSecs (grant : StoredDelegationGrant) : Int :=
    grant.expiresAt.tdiv 1000000

/-- A realm's grant rows by id, its parent index rows `(parent_jti, delegation_id)` and its
blocklist. -/
structure DelegationStore where
  grants : String → Option StoredDelegationGrant
  parentIndex : List (String × String)
  revokedJtis : String → Option Int

namespace DelegationStore

variable (store : DelegationStore) (grant : StoredDelegationGrant)

/-- `store_delegation_grant_inner`: one batch. -/
def storeDelegationGrant : DelegationStore :=
  { store with
    grants := update store.grants grant.delegationId (some grant)
    parentIndex := match grant.parentTokenJti with
      | some parentJti => (parentJti, grant.delegationId) :: store.parentIndex
      | none => store.parentIndex }

def putGrant : DelegationStore :=
  { store with grants := update store.grants grant.delegationId (some grant) }

variable (jti : String)

def putRevokedJti (expSecs : Int) : DelegationStore :=
  { store with revokedJtis := update store.revokedJtis jti (some expSecs) }

/-- The scan of the parent index under a token, in key order. -/
def childIds : List String :=
  ((store.parentIndex.filter fun row => row.1 = jti).map Prod.snd).mergeSort fun a b =>
    decide (a ≤ b)

def jtiRevokedInStorage : Bool := (store.revokedJtis jti).isSome

/-- The ids of a new grant are new; both are random UUIDs. -/
def Fresh : Prop :=
  grant.parentTokenJti ≠ some grant.tokenJti ∧ ∀ id g, store.grants id = some g →
    id ≠ grant.delegationId ∧ g.tokenJti ≠ grant.tokenJti ∧ g.parentTokenJti ≠ some grant.tokenJti

/-- Some grant was exchanged from the token `parent` for the token `child`. -/
def Link (parent child : String) : Prop :=
  ∃ id g, store.grants id = some g ∧ g.parentTokenJti = some parent ∧ g.tokenJti = child

end DelegationStore

/-! ## The walk -/

/-- Where `revoke_delegation_tree` stands: about to put the flagged record, about to put the
blocklist row, about to scan, or loading the children found. -/
inductive WalkPc
  | flag (grant : StoredDelegationGrant) (parentDelegation : Option String)
  | block (grant : StoredDelegationGrant) (parentDelegation : Option String)
  | scan (grant : StoredDelegationGrant)
  | children (grant : StoredDelegationGrant) (ids : List String)

/-- The walk and its work list, next one first. -/
structure Walk where
  pc : WalkPc
  pending : List (StoredDelegationGrant × Option String)

namespace Walk

def start (root : StoredDelegationGrant) : Walk := ⟨.flag root none, []⟩

/-- One storage operation of `revoke_delegation_tree`, or one turn of its loop; `none` when the
work list is empty. -/
def step (store : DelegationStore) : Walk → DelegationStore × Option Walk
  | ⟨.flag grant parent, pending⟩ =>
    (store.putGrant { grant with revoked := true },
      some ⟨.block { grant with revoked := true } parent, pending⟩)
  | ⟨.block grant _, pending⟩ =>
    (store.putRevokedJti grant.tokenJti grant.expSecs, some ⟨.scan grant, pending⟩)
  | ⟨.scan grant, pending⟩ =>
      (store, some ⟨.children grant (store.childIds grant.tokenJti), pending⟩)
  | ⟨.children grant (id :: ids), pending⟩ =>
    match store.grants id with
    | some child =>
      if child.revoked then (store, some ⟨.children grant ids, pending⟩)
      else (store, some ⟨.children grant ids, (child, some grant.delegationId) :: pending⟩)
    | none => (store, some ⟨.children grant ids, pending⟩)
  | ⟨.children _ [], (grant, parent) :: pending⟩ => (store, some ⟨.flag grant parent, pending⟩)
  | ⟨.children _ [], []⟩ => (store, none)

theorem step_scan {store g pending ids} (h : store.childIds g.tokenJti = ids) :
    step store ⟨.scan g, pending⟩ = (store, some ⟨.children g ids, pending⟩) := by
  rw [step, h]

end Walk

/-! ## Calls -/

/-- A call of `rfc8693_token_exchange` (`stored`, `rejecting`, `issued`) or of
`revoke_delegation_grant` (`walking`, `revokedOk`). -/
inductive DelegationCall
  | idle
  | stored (grant : StoredDelegationGrant)
  | rejecting (grant : StoredDelegationGrant) (walk : Walk)
  | issued (grant : StoredDelegationGrant)
  | walking (delegationId : String) (walk : Walk)
  | revokedOk (delegationId : String)
  | failed

structure DelegationSys (T : Type) where
  store : DelegationStore
  call : T → DelegationCall

/-- Which call moves, and for what: a revocation's first read and a failure are told apart. -/
inductive DelegationEvent (T : Type)
  | exchange (t : T)
  | load (t : T)
  | walk (t : T)
  | fail (t : T)

namespace DelegationSys

variable {T : Type} [DecidableEq T] (s : DelegationSys T)

def goto (store : DelegationStore) (t : T) (c : DelegationCall) : DelegationSys T :=
  ⟨store, update s.call t c⟩

/-- A subject token that came from an exchange came from one that has returned it. -/
def HandedOut (jti : String) : Prop :=
  ∀ id g, s.store.grants id = some g → g.tokenJti = jti →
    ∃ u h, s.call u = .issued h ∧ h.tokenJti = jti

inductive Step : DelegationEvent T → DelegationSys T → DelegationSys T → Prop
  /-- The exchange is past its checks and stores its grant. -/
  | store {s t grant} : s.call t = .idle → grant.revoked = false → s.store.Fresh grant →
      (∀ parent, grant.parentTokenJti = some parent → s.HandedOut parent) →
      Step (.exchange t) s (s.goto (s.store.storeDelegationGrant grant) t (.stored grant))
  | issue {s t grant} : s.call t = .stored grant →
      (∀ parent, grant.parentTokenJti = some parent → s.store.jtiRevokedInStorage parent = false) →
      Step (.exchange t) s (s.goto s.store t (.issued grant))
  | reject {s t grant parent} : s.call t = .stored grant → grant.parentTokenJti = some parent →
      s.store.jtiRevokedInStorage parent = true →
      Step (.exchange t) s (s.goto s.store t (.rejecting grant (.start grant)))
  | rejectWalk {s t grant} {w w' : Walk} {store} : s.call t = .rejecting grant
      w → w.step s.store = (store, some w') →
      Step (.exchange t) s (s.goto store t (.rejecting grant w'))
  /-- The walk ends and the exchange returns its error. -/
  | rejectEnd {s t grant} {w : Walk} {store} : s.call t = .rejecting grant w →
      w.step s.store = (store, none) →
      Step (.exchange t) s (s.goto store t .failed)
  | loadMissing {s t delegationId userSub} : s.call t = .idle →
      (∀ grant, s.store.grants delegationId = some grant → grant.userSub ≠ userSub) →
      Step (.load t) s (s.goto s.store t .failed)
  | loadRevoked {s t delegationId userSub grant} : s.call t = .idle →
      s.store.grants delegationId = some grant → grant.userSub = userSub → grant.revoked = true →
      Step (.load t) s (s.goto s.store t (.revokedOk delegationId))
  | load {s t delegationId userSub grant} : s.call t = .idle →
      s.store.grants delegationId = some grant → grant.userSub = userSub → grant.revoked = false →
      Step (.load t) s (s.goto s.store t (.walking delegationId (.start grant)))
  | walk {s t delegationId} {w w' : Walk} {store} : s.call t = .walking delegationId w →
      w.step s.store = (store, some w') →
      Step (.walk t) s (s.goto store t (.walking delegationId w'))
  | walkEnd {s t delegationId} {w : Walk} {store} : s.call t = .walking delegationId w →
      w.step s.store = (store, none) →
      Step (.walk t) s (s.goto store t (.revokedOk delegationId))
  /-- A storage operation of a running call fails, and with it the call. -/
  | fail {s t} : (∀ grant, s.call t ≠ .issued grant) →
      (∀ delegationId, s.call t ≠ .revokedOk delegationId) →
      Step (.fail t) s (s.goto s.store t .failed)

/-- No grant has been stored and no call has begun. -/
def Init : Prop :=
  s.store.grants = (fun _ => none) ∧ s.store.parentIndex = [] ∧ s.call = fun _ => .idle

/-- A revocation reads its grant only while no other is walking, and does not fail once it has
written. -/
def Careful : DelegationEvent T → DelegationSys T → Prop
  | .load _, s => ∀ u delegationId w, s.call u ≠ .walking delegationId w
  | .fail t, s => ∀ delegationId w, s.call t = .walking delegationId w →
      ∃ grant, w.pc = .flag grant none
  | _, _ => True

/-- Every token that was handed out below a grant whose revocation has returned `Ok`, the grant's
own included, is on the blocklist. -/
def Complete : Prop :=
  ∀ t delegationId, s.call t = .revokedOk delegationId →
    ∀ grant, s.store.grants delegationId = some grant → ∀ u child, s.call u = .issued child →
      ReflTransGen s.store.Link grant.tokenJti child.tokenJti →
      s.store.jtiRevokedInStorage child.tokenJti = true

end DelegationSys

/-! ## Rows -/

namespace DelegationStore

variable {store store' : DelegationStore}

/-- A grant without its flag; the rest of a row never changes. -/
def unflag (grant : StoredDelegationGrant) : StoredDelegationGrant :=
    { grant with revoked := false }

/-- The grant rows up to their flags. -/
def rows (store : DelegationStore) (id : String) : Option StoredDelegationGrant :=
  (store.grants id).map unflag

/-- The grant is a copy of a row, up to the flag. -/
def Row (store : DelegationStore) (grant : StoredDelegationGrant) : Prop :=
  store.rows grant.delegationId = some (unflag grant)

structure SameRows (store store' : DelegationStore) : Prop where
  rows : store'.rows = store.rows
  index : store'.parentIndex = store.parentIndex

/-- Every row is still there, up to its flag. -/
def Keeps (store store' : DelegationStore) : Prop :=
  ∀ {id g}, store.rows id = some g → store'.rows id = some g

/-- Rows sit under their ids, tokens are told apart, and the index has every parent. -/
structure Ok (store : DelegationStore) : Prop where
  key : ∀ {id g}, store.rows id = some g → g.delegationId = id
  token : ∀ {id id' g g'}, store.rows id = some g → store.rows id' = some g' →
    g.tokenJti = g'.tokenJti → id = id'
  index : ∀ {id parent}, (parent, id) ∈ store.parentIndex ↔
    ∃ g, store.rows id = some g ∧ g.parentTokenJti = some parent

def Flagged (store : DelegationStore) (jti : String) : Prop :=
  ∃ id g, store.grants id = some g ∧ g.tokenJti = jti ∧ g.revoked = true

variable {id jti : String} {g : StoredDelegationGrant}

theorem mem_childIds : id ∈ store.childIds jti ↔ (jti, id) ∈ store.parentIndex := by
  rw [childIds, mem_mergeSort, List.mem_map]
  constructor
  · rintro ⟨⟨p, i⟩, hrow, rfl⟩
    rw [mem_filter, decide_eq_true_eq] at hrow
    exact hrow.2 ▸ hrow.1
  · intro h
    exact ⟨(jti, id), mem_filter.2 ⟨h, decide_eq_true rfl⟩, rfl⟩

theorem rows_of_get (hg : store.grants id = some g) : store.rows id = some (unflag g) :=
    congrArg _ hg

theorem Ok.id_of_get (h : store.Ok) (hg : store.grants id = some g) : g.delegationId = id :=
  h.key (g := unflag g) (rows_of_get hg)

theorem Ok.row_of_get (h : store.Ok) (hg : store.grants id = some g) : store.Row g := by
  obtain rfl := h.id_of_get hg
  exact rows_of_get hg

theorem link_iff {p c} : store.Link p c ↔
    ∃ id g, store.rows id = some g ∧ g.parentTokenJti = some p ∧ g.tokenJti = c := by
  constructor
  · rintro ⟨id, g, hg, hp, hc⟩
    exact ⟨id, _, rows_of_get hg, hp, hc⟩
  · rintro ⟨id, _, hrow, hp, hc⟩
    obtain ⟨g, hg, rfl⟩ := map_eq_some_iff.1 hrow
    exact ⟨id, g, hg, hp, hc⟩

theorem SameRows.refl (store : DelegationStore) : SameRows store store := ⟨rfl, rfl⟩

theorem SameRows.keeps (h : SameRows store store') : Keeps store store' := by
  rw [Keeps, h.rows]
  exact id

theorem SameRows.link (h : SameRows store store') : store'.Link = store.Link := by
  ext p c
  rw [link_iff, link_iff, h.rows]

theorem SameRows.ok (h : SameRows store store') (hok : store.Ok) : store'.Ok := by
  constructor
  · rw [h.rows]
    exact hok.key
  · rw [h.rows]
    exact hok.token
  · rw [h.rows, h.index]
    exact hok.index

theorem sameRows_putGrant (hg : store.Row g) :
    SameRows store (store.putGrant { g with revoked := true }) := by
  refine ⟨funext fun id => ?_, rfl⟩
  show (update store.grants g.delegationId (some { g with revoked := true }) id).map unflag = _
  exact forall_update hg.symm (fun _ _ => rfl) id

theorem flagged_putGrant (hg : store.Row g) :
    (store.putGrant { g with revoked := true }).Flagged jti ↔
    store.Flagged jti ∨ jti = g.tokenJti := by
  have hput : ∀ id, (store.putGrant { g with revoked := true }).grants id =
      if id = g.delegationId then some { g with revoked := true } else store.grants id := fun id =>
    update_apply ..
  obtain ⟨row, hrow, hu⟩ := map_eq_some_iff.1 hg
  have htoken : row.tokenJti = g.tokenJti := congrArg (fun r => r.tokenJti) hu
  constructor
  · rintro ⟨id, h, hh, ht, hr⟩
    rw [hput] at hh
    split at hh
    · cases hh
      exact .inr ht.symm
    · exact .inl ⟨id, h, hh, ht, hr⟩
  · rintro (⟨id, h, hh, ht, hr⟩ | rfl)
    · by_cases hid : id = g.delegationId
      · subst hid
        rw [hrow] at hh
        cases hh
        exact ⟨g.delegationId, _, (hput _).trans (if_pos rfl), htoken.symm.trans ht, rfl⟩
      · exact ⟨id, h, (hput id).trans ((if_neg hid).trans hh), ht, hr⟩
    · exact ⟨g.delegationId, _, (hput _).trans (if_pos rfl), rfl, rfl⟩

theorem revoked_putRevokedJti {j exp} : (store.putRevokedJti jti exp).jtiRevokedInStorage j = true ↔
      j = jti ∨ store.jtiRevokedInStorage j = true := by
  show (update store.revokedJtis jti (some exp) j).isSome = true ↔ _
  exact forall_update ⟨fun _ => .inl rfl, fun _ => rfl⟩
    (fun j hj => ⟨.inr, fun h => h.resolve_left hj⟩) j

/-! ### A new row -/

section

variable {g : StoredDelegationGrant} {x : StoredDelegationGrant}

theorem Fresh.new (h : store.Fresh g) {id} (hx : store.rows id = some x) :
    id ≠ g.delegationId ∧ x.tokenJti ≠ g.tokenJti ∧ x.parentTokenJti ≠ some g.tokenJti := by
  obtain ⟨y, hy, rfl⟩ := map_eq_some_iff.1 hx
  exact h.2 id y hy

theorem Fresh.get (h : store.Fresh g) {id} (hx : store.grants id = some x) :
    (store.storeDelegationGrant g).grants id = some x :=
  (update_of_ne (h.2 id x hx).1 ..).trans hx

theorem Fresh.rows (h : store.Fresh g) {id} : (store.storeDelegationGrant g).rows id = some x ↔
      (id = g.delegationId ∧ x = unflag g) ∨ store.rows id = some x := by
  constructor
  · intro hx
    obtain ⟨y, hy, rfl⟩ := map_eq_some_iff.1 hx
    rcases update_cases hy with ⟨rfl, ⟨⟩⟩ | hy
    · exact .inl ⟨rfl, rfl⟩
    · exact .inr (rows_of_get hy)
  · rintro (⟨rfl, rfl⟩ | hx)
    · exact rows_of_get (update_self ..)
    · obtain ⟨y, hy, rfl⟩ := map_eq_some_iff.1 hx
      exact rows_of_get (h.get hy)

theorem mem_index_store {id parent} : (parent, id) ∈ (store.storeDelegationGrant g).parentIndex ↔
      (id = g.delegationId ∧ g.parentTokenJti = some parent) ∨
      (parent, id) ∈ store.parentIndex := by
  show (parent, id) ∈ (match g.parentTokenJti with
    | some p => (p, g.delegationId) :: store.parentIndex
    | none => store.parentIndex) ↔ _
  cases g.parentTokenJti with
  | none => exact ⟨.inr, fun h => h.resolve_left fun h => nomatch h.2⟩
  | some p =>
    rw [mem_cons, Prod.mk.injEq, some.injEq]
    exact or_congr_left ⟨fun h => ⟨h.2, h.1.symm⟩, fun h => ⟨h.2.symm, h.1⟩⟩

section

variable (h : store.Fresh g)

include h

theorem Fresh.ok (hok : store.Ok) : (store.storeDelegationGrant g).Ok := by
  refine ⟨fun hx => ?_, fun hx hy heq => ?_, fun {id parent} => ?_⟩
  · rcases h.rows.1 hx with ⟨rfl, rfl⟩ | hx
    · rfl
    · exact hok.key hx
  · rcases h.rows.1 hx with ⟨hid, rfl⟩ | hx'
    · rcases h.rows.1 hy with ⟨hid', -⟩ | hy'
      · exact hid.trans hid'.symm
      · exact absurd heq.symm (h.new hy').2.1
    · rcases h.rows.1 hy with ⟨-, rfl⟩ | hy'
      · exact absurd heq (h.new hx').2.1
      · exact hok.token hx' hy' heq
  · rw [mem_index_store, hok.index]
    constructor
    · rintro (⟨rfl, hp⟩ | ⟨x, hx, hp⟩)
      · exact ⟨_, h.rows.2 (.inl ⟨rfl, rfl⟩), hp⟩
      · exact ⟨x, h.rows.2 (.inr hx), hp⟩
    · rintro ⟨x, hx, hp⟩
      rcases h.rows.1 hx with ⟨rfl, rfl⟩ | hx
      · exact .inl ⟨rfl, hp⟩
      · exact .inr ⟨x, hx, hp⟩

theorem Fresh.keeps : Keeps store (store.storeDelegationGrant g) := fun hx => h.rows.2 (.inr hx)

theorem Fresh.link {parent child} (hl : (store.storeDelegationGrant g).Link parent child) :
    store.Link parent child ∨ (g.parentTokenJti = some parent ∧ child = g.tokenJti) := by
  obtain ⟨id, x, hx, hp, hc⟩ := link_iff.1 hl
  rcases h.rows.1 hx with ⟨-, rfl⟩ | hx
  · exact .inr ⟨hp, hc.symm⟩
  · exact .inl (link_iff.2 ⟨id, x, hx, hp, hc⟩)

theorem Fresh.path {jti child} (hp : ReflTransGen (store.storeDelegationGrant g).Link jti child) :
    ReflTransGen store.Link jti child ∨ child = g.tokenJti := by
  induction hp with
  | refl => exact .inl .refl
  | tail _ hl ih =>
    rcases h.link hl with hl | ⟨-, hc⟩
    · refine .inl (.tail (ih.resolve_right fun heq => ?_) hl)
      obtain ⟨id, x, hx, hpar, -⟩ := hl
      exact (h.2 id x hx).2.2 (heq ▸ hpar)
    · exact .inr hc

theorem Fresh.flagged (hrev : g.revoked = false) {jti} :
    (store.storeDelegationGrant g).Flagged jti ↔ store.Flagged jti := by
  constructor
  · rintro ⟨id, x, hx, hj, hr⟩
    rcases update_cases hx with ⟨-, ⟨⟩⟩ | hx
    · exact nomatch hrev.symm.trans hr
    · exact ⟨id, x, hx, hj, hr⟩
  · rintro ⟨id, x, hx, hj, hr⟩
    exact ⟨id, x, h.get hx, hj, hr⟩

end

end

end DelegationStore

/-! ## The invariant -/

open DelegationStore

def WalkPc.grant : WalkPc → StoredDelegationGrant
  | .flag grant _ | .block grant _ | .scan grant | .children grant _ => grant

/-- From here the walk comes to the grant of token `child` below that of `parent`. -/
def WalkPc.Covers (store : DelegationStore) (parent child : String) : WalkPc → Prop
  | .flag grant parentDelegation => parentDelegation.isSome = true ∧ grant.tokenJti = child
  | .block .. => False
  | .scan grant => grant.tokenJti = parent
  | .children _ ids => ∃ id ∈ ids, ∃ row, store.rows id = some row ∧ row.tokenJti = child

/-- The grant of this token is flagged and its token not yet on the blocklist. -/
def WalkPc.Blocking (jti : String) : WalkPc → Prop
  | .block grant _ => grant.tokenJti = jti
  | _ => False

namespace Walk

variable (store : DelegationStore)

def Covers (parent child : String) (w : Walk) : Prop :=
  w.pc.Covers store parent child ∨ ∃ x ∈ w.pending, x.1.tokenJti = child

/-- Past its root the walk has blocked it. -/
def Rooted (delegationId : String) (w : Walk) : Prop :=
  match w.pc with
  | .flag grant none | .block grant none => grant.delegationId = delegationId ∧ w.pending = []
  | _ => ∃ row, store.rows delegationId = some row ∧ store.jtiRevokedInStorage row.tokenJti = true

/-- The walk of a revocation carries copies of rows. -/
structure Ok (delegationId : String) (w : Walk) : Prop where
  current : store.Row w.pc.grant
  pending : ∀ x ∈ w.pending, store.Row x.1 ∧ x.2.isSome = true
  root : w.Rooted store delegationId

/-- The walk of a rejected exchange: no token was exchanged from the one it walks from. -/
structure AtLeaf (grant : StoredDelegationGrant) (w : Walk) : Prop where
  current : store.Row w.pc.grant
  token : w.pc.grant.tokenJti = grant.tokenJti
  pending : w.pending = []
  children : ∀ g ids, w.pc = .children g ids → ids = []

end Walk

namespace DelegationCall

def grant? : DelegationCall → Option StoredDelegationGrant
  | .stored grant | .rejecting grant _ | .issued grant => some grant
  | _ => none

/-- The exchange has returned its token, or still may. -/
def live? : DelegationCall → Option StoredDelegationGrant
  | .stored grant | .issued grant => some grant
  | _ => none

/-- A revocation is walking, and its walk has the property. -/
def Walks (p : Walk → Prop) : DelegationCall → Prop
  | .walking _ w => p w
  | _ => False

def InWalk (c : DelegationCall) : Prop := c.Walks fun _ => True

def Ok (store : DelegationStore) : DelegationCall → Prop
  | .stored grant | .issued grant => store.Row grant
  | .rejecting grant w => store.Row grant ∧ w.AtLeaf store grant
  | .walking delegationId w => w.Ok store delegationId
  | _ => True

variable {c : DelegationCall} {p q : Walk → Prop}

theorem Walks.exists (h : c.Walks p) : ∃ d w, c = .walking d w ∧ p w := by
  cases c with
  | walking d w => exact ⟨d, w, rfl, h⟩
  | _ => cases h

theorem Walks.mono (h : c.Walks p) (hpq : ∀ w, p w → q w) : c.Walks q := by
  cases c with
  | walking => exact hpq _ h
  | _ => cases h

theorem Walks.inWalk (h : c.Walks p) : c.InWalk := h.mono fun _ _ => trivial

theorem Ok.row {store g} (h : c.Ok store) (hg : c.grant? = some g) : store.Row g := by
  cases c with
  | stored | issued =>
    cases hg
    exact h
  | rejecting =>
    cases hg
    exact h.1
  | _ => cases hg

end DelegationCall

namespace DelegationSys

variable {T : Type} (s : DelegationSys T)

def Issued (jti : String) : Prop := ∃ t g, s.call t = .issued g ∧ g.tokenJti = jti

def Live (jti : String) : Prop := ∃ t g, (s.call t).live? = some g ∧ g.tokenJti = jti

def Walking (p : Walk → Prop) : Prop := ∃ t, (s.call t).Walks p

structure CallsOk (s : DelegationSys T) : Prop where
  store : s.store.Ok
  calls : ∀ t, (s.call t).Ok s.store
  owner : ∀ {t u g h}, (s.call t).grant? = some g → (s.call u).grant? = some h →
    g.tokenJti = h.tokenJti → t = u
  handedOut : ∀ {id id' g h}, s.store.rows id = some g → s.store.rows id' = some h →
    g.parentTokenJti = some h.tokenJti → s.Issued h.tokenJti
  single : ∀ t u, (s.call t).InWalk → (s.call u).InWalk → t = u

/-- The tokens below a grant, as a revocation that returns `Ok` leaves them. -/
def Reached (delegationId : String) : Prop :=
  ∃ g, s.store.rows delegationId = some g ∧
    (s.Live g.tokenJti → s.store.jtiRevokedInStorage g.tokenJti = true) ∧
    ∀ child, ReflTransGen s.store.Link g.tokenJti child → s.Issued child →
      s.store.jtiRevokedInStorage child = true

/-- What revocations have reached, and what they still have before them. -/
structure Inv (s : DelegationSys T) : Prop where
  calls : s.CallsOk
  below : ∀ {parent child}, s.store.Link parent child → s.store.jtiRevokedInStorage parent = true →
    s.Issued child → s.store.Flagged child ∨ s.Walking (Walk.Covers s.store parent child)
  flagged : ∀ {jti}, s.store.Flagged jti → s.Live jti →
    s.store.jtiRevokedInStorage jti = true ∨ s.Walking fun w => w.pc.Blocking jti
  done : ∀ {t d}, s.call t = .revokedOk d → s.Reached d

end DelegationSys

/-! ## Frames -/

section

variable {store store' : DelegationStore} {w : Walk}

/-- Nothing leaves the blocklist. -/
def DelegationStore.Blocks (store store' : DelegationStore) : Prop :=
  ∀ jti, store.jtiRevokedInStorage jti = true → store'.jtiRevokedInStorage jti = true

section

variable (h : Keeps store store')

include h

theorem Walk.Covers.mono {p c} (hc : w.Covers store p c) : w.Covers store' p c := by
  refine hc.imp_left fun hpc => ?_
  obtain ⟨pc, pending⟩ := w
  cases pc with
  | children g ids =>
    obtain ⟨id, hid, row, hrow, ht⟩ := hpc
    exact ⟨id, hid, row, h hrow, ht⟩
  | _ => exact hpc

theorem Walk.AtLeaf.mono {g} (hw : w.AtLeaf store g) : w.AtLeaf store' g :=
  { hw with current := h hw.current }

variable (hb : Blocks store store')

include hb

theorem Walk.Ok.mono {d} (hw : w.Ok store d) : w.Ok store' d := by
  refine ⟨h hw.current, fun x hx => ⟨h (hw.pending x hx).1, (hw.pending x hx).2⟩, ?_⟩
  have hroot := hw.root
  obtain ⟨pc, pending⟩ := w
  rcases pc with ⟨g, _ | b⟩ | ⟨g, _ | b⟩ | g | ⟨g, ids⟩
  all_goals first
    | exact hroot
    | obtain ⟨row, hrow, hr⟩ := hroot
      exact ⟨row, h hrow, hb _ hr⟩

theorem DelegationCall.Ok.mono {c : DelegationCall} (hc : c.Ok store) : c.Ok store' := by
  cases c with
  | stored | issued => exact h hc
  | rejecting => exact ⟨h hc.1, hc.2.mono h⟩
  | walking => exact Walk.Ok.mono h hb hc
  | _ => trivial

end

end

namespace DelegationSys

section

variable {T : Type} {s : DelegationSys T} {store : DelegationStore} {t : T} {c was : DelegationCall}
  {jti parent : String} {g : StoredDelegationGrant} {w : Walk} {d : String}

section

variable (h : s.CallsOk)

include h

theorem CallsOk.callOk (ht : s.call t = c) : c.Ok s.store := ht ▸ h.calls t

theorem CallsOk.alone (ht : s.call t = .walking d w) (u : T) (hu : (s.call u).InWalk) : u = t :=
  h.single u t hu (by rw [ht]; trivial)

theorem CallsOk.parent_eq (hg : (s.call t).grant? = some g)
    (hl : s.store.Link parent g.tokenJti) : g.parentTokenJti = some parent := by
  obtain ⟨id, row, hrow, hp, ht⟩ := link_iff.1 hl
  have hown : s.store.rows g.delegationId = some (unflag g) := (h.calls t).row hg
  obtain rfl := h.store.token hrow hown ht
  cases hrow.symm.trans hown
  exact hp

/-- A grant that was exchanged from a token of the tree has a parent that was handed out. -/
theorem CallsOk.issued_parent {id child}
    (hg : s.store.rows id = some g) (hpath : ReflTransGen s.store.Link g.tokenJti parent)
    (hl : s.store.Link parent child) : s.Issued parent := by
  obtain ⟨cid, crow, hcrow, hp, -⟩ := link_iff.1 hl
  obtain ⟨pid, prow, hprow, rfl⟩ : ∃ pid prow, s.store.rows pid = some prow ∧
    prow.tokenJti = parent := by
    cases hpath with
    | refl => exact ⟨id, g, hg, rfl⟩
    | tail _ hlast =>
      obtain ⟨pid, prow, hprow, -, ht⟩ := link_iff.1 hlast
      exact ⟨pid, prow, hprow, ht⟩
  exact h.handedOut hcrow hprow hp

/-- No token was exchanged from that of a rejected exchange. -/
theorem CallsOk.no_child (ht : s.call t = .rejecting g w) (child : String) :
    ¬s.store.Link g.tokenJti child := by
  intro hl
  obtain ⟨id, row, hrow, hp, -⟩ := link_iff.1 hl
  have hg : (s.call t).grant? = some g := by rw [ht]; rfl
  obtain ⟨u, x, hu, hx⟩ := h.handedOut hrow ((h.calls t).row hg) hp
  have hut := h.owner (by rw [hu]; rfl) hg hx
  rw [hut, ht] at hu
  cases hu

theorem CallsOk.not_live (ht : s.call t = .rejecting g w) : ¬s.Live g.tokenJti := by
  rintro ⟨u, x, hx, htoken⟩
  have hgrant : (s.call u).grant? = some x := by
    cases hc : s.call u with
    | stored | issued => rw [hc] at hx; exact hx
    | _ => rw [hc] at hx; cases hx
  have hut := h.owner hgrant (by rw [ht]; rfl) htoken
  rw [hut, ht] at hx
  cases hx

theorem CallsOk.new_token {x} (hfresh : s.store.Fresh g)
    (hx : (s.call t).grant? = some x) : x.tokenJti ≠ g.tokenJti :=
  (hfresh.new ((h.calls t).row hx)).2.1

theorem CallsOk.not_issued (hfresh : s.store.Fresh g) :
    ¬s.Issued g.tokenJti := fun ⟨u, x, hu, hx⟩ =>
  h.new_token hfresh (by rw [hu]; rfl) hx

end

/-- With no walk under way, everything handed out below a flagged or blocked grant is blocked. -/
theorem Inv.reached (h : s.Inv) (hg : s.store.rows d = some g)
    (hroot : s.Live g.tokenJti → s.store.jtiRevokedInStorage g.tokenJti = true)
    (hcov : ∀ parent child, ¬s.Walking (Walk.Covers s.store parent child))
    (hblock : ∀ jti, ¬s.Walking fun w => w.pc.Blocking jti) : s.Reached d := by
  have hlive : ∀ {jti}, s.Issued jti → s.Live jti :=
    fun ⟨u, x, hu, hx⟩ => ⟨u, x, by rw [hu]; rfl, hx⟩
  refine ⟨g, hg, hroot, fun child hpath => ?_⟩
  induction hpath with
  | refl => exact fun hi => hroot (hlive hi)
  | tail hup hlast ih =>
    intro hi
    have hr := ih (h.calls.issued_parent hg hup hlast)
    have hflag := (h.below hlast hr hi).resolve_right (hcov _ _)
    exact (h.flagged hflag (hlive hi)).resolve_right (hblock _)

theorem inv_init (h : Init s) : s.Inv := by
  obtain ⟨hgrant, hindex, hcall⟩ := h
  have hg : ∀ id g, s.store.rows id ≠ some g := fun id g hg => by
    rw [rows, hgrant] at hg
    cases hg
  refine ⟨⟨⟨fun h => absurd h (hg _ _), fun h => absurd h (hg _ _), ?_⟩, fun t => ?_,
    fun {t _ _ _} ht => ?_,
    fun h => absurd h (hg _ _), fun t u ht => ?_⟩, ?_, ?_, fun {t d} ht => ?_⟩
  · rw [hindex]
    exact ⟨nofun, fun ⟨g, h, _⟩ => absurd h (hg _ _)⟩
  · rw [hcall]
    trivial
  · rw [hcall] at ht
    cases ht
  · rw [hcall] at ht
    cases ht
  · exact fun ⟨id, g, h, _⟩ => absurd (rows_of_get h) (hg _ _)
  · exact fun ⟨id, g, h, _⟩ => absurd (rows_of_get h) (hg _ _)
  · rw [hcall] at ht
    cases ht

variable [DecidableEq T]

theorem goto_call (u : T) : (s.goto store t c).call u = if u = t then c else s.call u :=
  update_apply ..

variable {x : DelegationCall}

/-- A call of the new state is the one that moved, or one of before. -/
theorem call_goto {u : T} (h : (s.goto store t c).call u = x) :
    (u = t ∧ c = x) ∨ (u ≠ t ∧ s.call u = x) := by
  rw [goto_call] at h
  split at h
  · next hu => exact .inl ⟨hu, h⟩
  · next hu => exact .inr ⟨hu, h⟩

/-- The move is not seen in a call that it does not lead to. -/
theorem call_of_goto {u : T} (h : (s.goto store t c).call u = x) (hne : x ≠ c) : s.call u = x :=
  (call_goto h).elim (fun hc => absurd hc.2.symm hne) And.right

theorem issued_goto (h : (s.goto store t c).Issued jti) :
    s.Issued jti ∨ ∃ g, c = .issued g ∧ g.tokenJti = jti := by
  obtain ⟨u, g, hu, hg⟩ := h
  rcases call_goto hu with ⟨-, hc⟩ | ⟨-, hu⟩
  · exact .inr ⟨g, hc, hg⟩
  · exact .inl ⟨u, g, hu, hg⟩

section

variable {p q : Walk → Prop} {r : Prop}

theorem walking_self (hc : c.Walks p) : (s.goto store t c).Walking p :=
  ⟨t, by rw [goto_call, if_pos rfl]; exact hc⟩

/-- A walk goes on, or it is the one that moved. -/
theorem walking_goto (ht : s.call t = was) (h : s.Walking p) (hold : ∀ w, p w → q w)
    (hself : was.Walks p → r ∨ c.Walks q) : r ∨ (s.goto store t c).Walking q := by
  obtain ⟨u, hu⟩ := h
  by_cases hut : u = t
  · subst hut
    exact (hself (ht ▸ hu)).imp_right walking_self
  · exact .inr ⟨u, by rw [goto_call, if_neg hut]; exact hu.mono hold⟩

end

/-- A move of call `t` from `was` to `c` that leaves the rows in place, up to their flags: what it
owes the invariant. -/
structure Moves (s : DelegationSys T) (store : DelegationStore) (t : T) (was c : DelegationCall) :
    Prop where
  call : s.call t = was
  same : SameRows s.store store := by exact .refl _
  blocks : Blocks s.store store := by exact fun _ hr => hr
  flags : ∀ {jti}, s.store.Flagged jti → store.Flagged jti := by exact fun hf => hf
  grant : ∀ g, c.grant? = some g → was.grant? = some g := by rintro _ ⟨⟩
  live : ∀ g, c.live? = some g → was.live? = some g := by rintro _ ⟨⟩
  issued : ∀ g, was = .issued g → c = .issued g := by rintro _ ⟨⟩
  /-- A token is handed out only while its parent is off the blocklist. -/
  issue : ∀ g, c = .issued g → ∀ parent, g.parentTokenJti = some parent →
    store.jtiRevokedInStorage parent = false := by rintro _ ⟨⟩
  ok : c.Ok store := by trivial
  single : c.InWalk → ∀ u, (s.call u).InWalk → u = t := by exact False.elim
  blocked : ∀ {parent child}, s.store.Link parent child → store.jtiRevokedInStorage parent = true →
    s.store.jtiRevokedInStorage parent = false →
    store.Flagged child ∨ c.Walks (Walk.Covers store parent child) := by
      exact fun _ hr hr' => absurd hr (Bool.eq_false_iff.1 hr')
  /-- What the moved walk had before it is done or still before it. -/
  covered : ∀ {parent child}, was.Walks (Walk.Covers s.store parent child) →
    s.store.Link parent child →
    store.Flagged child ∨ c.Walks (Walk.Covers store parent child) := by exact False.elim
  flagged : ∀ {jti}, store.Flagged jti → ¬s.store.Flagged jti → s.Live jti →
    c.Walks fun w => w.pc.Blocking jti := by exact fun hf hf' => absurd hf hf'
  blocking : ∀ {jti}, was.Walks (fun w => w.pc.Blocking jti) →
    store.jtiRevokedInStorage jti = true := by
    exact False.elim
  done : ∀ d, c = .revokedOk d → s.Reached d := by rintro _ ⟨⟩

section

variable (m : s.Moves store t was c)

include m

omit [DecidableEq T] in
theorem Moves.parent_free (h : s.CallsOk) (hc : c = .issued g)
    (hl : s.store.Link parent g.tokenJti) : store.jtiRevokedInStorage parent = false :=
  m.issue g hc parent (h.parent_eq (m.call ▸ m.grant g (hc ▸ rfl)) hl)

theorem CallsOk.goto (h : s.CallsOk) : (s.goto store t c).CallsOk := by
  have hgrant : ∀ {u g}, ((s.goto store t c).call u).grant? = some g →
    (s.call u).grant? = some g := by
    intro u g hu
    rw [goto_call] at hu
    split at hu
    · next hut => exact hut ▸ m.call ▸ m.grant g hu
    · exact hu
  refine ⟨m.same.ok h.store, fun u => ?_, fun hu hv => h.owner (hgrant hu) (hgrant hv),
    fun hg hp hlink => ?_, unique_move h.single rfl m.single⟩
  · rw [goto_call]
    split
    · exact m.ok
    · exact (h.calls u).mono m.same.keeps m.blocks
  · have hrows : (s.goto store t c).store.rows = s.store.rows := m.same.rows
    rw [hrows] at hg hp
    obtain ⟨v, g', hv, hg'⟩ := h.handedOut hg hp hlink
    refine ⟨v, g', ?_, hg'⟩
    rw [goto_call]
    split
    · next hvt => exact m.issued g' (m.call.symm.trans (hvt ▸ hv))
    · exact hv

/-- What was reached stays reached. -/
theorem below_goto (h : s.Inv) {child} (hl : store.Link parent child)
    (hr : store.jtiRevokedInStorage parent = true) (hi : (s.goto store t c).Issued child) :
    store.Flagged child ∨ (s.goto store t c).Walking (Walk.Covers store parent child) := by
  rw [m.same.link] at hl
  rcases issued_goto hi with hi | ⟨g, hc, rfl⟩
  · by_cases hr0 : s.store.jtiRevokedInStorage parent = true
    · rcases h.below hl hr0 hi with hflag | hw
      · exact .inl (m.flags hflag)
      · exact walking_goto m.call hw (fun _ hw => hw.mono m.same.keeps) fun hw => m.covered hw hl
    · exact (m.blocked hl hr (Bool.eq_false_iff.2 hr0)).imp_right walking_self
  · exact nomatch hr.symm.trans (m.parent_free h.calls hc hl)

theorem Moves.live_of (hl : (s.goto store t c).Live jti) : s.Live jti := by
  obtain ⟨u, g, hu, hg⟩ := hl
  rw [goto_call] at hu
  split at hu
  · exact ⟨t, g, m.call ▸ m.live g hu, hg⟩
  · exact ⟨u, g, hu, hg⟩

theorem flagged_goto (h : s.Inv) (hflag : store.Flagged jti) (hl : (s.goto store t c).Live jti) :
    store.jtiRevokedInStorage jti = true ∨
    (s.goto store t c).Walking fun w => w.pc.Blocking jti := by
  by_cases hf0 : s.store.Flagged jti
  · rcases h.flagged hf0 (m.live_of hl) with hr | hw
    · exact .inl (m.blocks _ hr)
    · exact walking_goto m.call hw (fun _ hw => hw) fun hw => .inl (m.blocking hw)
  · exact .inr (walking_self (m.flagged hflag hf0 (m.live_of hl)))

theorem reached_goto (h : s.CallsOk) (hd : s.Reached d) : (s.goto store t c).Reached d := by
  obtain ⟨g, hg, hroot, hall⟩ := hd
  refine ⟨g, m.same.keeps hg, fun hl => m.blocks _ (hroot (m.live_of hl)), fun child hpath hi => ?_⟩
  have hlink : (s.goto store t c).store.Link = s.store.Link := m.same.link
  rw [hlink] at hpath
  rcases issued_goto hi with hi | ⟨x, rfl, rfl⟩
  · exact m.blocks _ (hall _ hpath hi)
  · -- its parent is on the blocklist, unless it is the root itself
    rcases ReflTransGen.cases_tail hpath with heq | ⟨p, hup, hlast⟩
    · exact heq ▸ m.blocks _ (hroot ⟨t, x, m.call ▸ m.live x rfl, heq⟩)
    · have hr := m.blocks _ (hall _ hup (h.issued_parent hg hup hlast))
      exact nomatch hr.symm.trans (m.parent_free h rfl hlast)

theorem Inv.goto (h : s.Inv) : (s.goto store t c).Inv := by
  refine ⟨h.calls.goto m, below_goto m h, flagged_goto m h, fun {u d} hu =>
    reached_goto m h.calls ?_⟩
  rcases call_goto hu with ⟨-, hc⟩ | ⟨-, hu⟩
  · exact m.done d hc
  · exact h.done hu

end

end

/-! ## Steps -/

section

variable {T : Type} [DecidableEq T] {s : DelegationSys T} {store : DelegationStore} {t : T}
    {g : StoredDelegationGrant}
  {w w' : Walk}

theorem sameRows_putRevokedJti (store : DelegationStore) (jti : String) (exp : Int) :
    SameRows store (store.putRevokedJti jti exp) := ⟨rfl, rfl⟩

theorem blocks_putRevokedJti (store : DelegationStore) (jti : String) (exp : Int) :
    Blocks store (store.putRevokedJti jti exp) := fun _ h => revoked_putRevokedJti.2 (.inr h)

variable {d : String} {pending : List (StoredDelegationGrant × Option String)}
    {parent : Option String}

theorem inv_flag (h : s.Inv) (ht : s.call t = .walking d ⟨.flag g parent, pending⟩) :
    (s.goto (s.store.putGrant { g with revoked := true }) t
      (.walking d ⟨.block { g with revoked := true } parent, pending⟩)).Inv := by
  have hok : Walk.Ok s.store d _ := h.calls.callOk ht
  have hrow : s.store.Row g := hok.current
  obtain ⟨hcur, hpend, hroot⟩ := hok.mono (sameRows_putGrant hrow).keeps fun _ hr => hr
  refine h.goto { call := ht, same := sameRows_putGrant hrow, single := fun _ => h.calls.alone ht,
                  flags := fun hf => (flagged_putGrant hrow).2 (.inl hf), ok := ⟨hcur, hpend, ?_⟩,
                  covered := fun hc _ => ?_,
                  flagged := fun hf hf' _ =>
                    (((flagged_putGrant hrow).1 hf).resolve_left hf').symm }
  · cases parent with
    | _ => exact hroot
  · rcases hc with ⟨-, hx⟩ | hp
    · exact .inl ((flagged_putGrant hrow).2 (.inr hx.symm))
    · exact .inr (.inr hp)

theorem inv_block (h : s.Inv) (ht : s.call t = .walking d ⟨.block g parent, pending⟩) :
    (s.goto (s.store.putRevokedJti g.tokenJti g.expSecs) t
      (.walking d ⟨.scan g, pending⟩)).Inv := by
  have hok : Walk.Ok s.store d _ := h.calls.callOk ht
  obtain ⟨hcur, hpend, hroot⟩ := hok.mono (sameRows_putRevokedJti _ g.tokenJti g.expSecs).keeps
    (blocks_putRevokedJti _ _ _)
  refine h.goto { call := ht, same := sameRows_putRevokedJti .., blocks :=
    blocks_putRevokedJti _ _ _,
                  single := fun _ => h.calls.alone ht, ok := ⟨hcur, hpend, ?_⟩,
                  blocked := fun _ hr hr' => ?_, covered :=
                    fun hc _ => .inr (.inr (Or.resolve_left hc id)),
                  blocking := fun hj => revoked_putRevokedJti.2 (.inl (Eq.symm hj)) }
  · cases parent with
    | none =>
      obtain ⟨rfl, -⟩ := hroot
      exact ⟨_, hcur, revoked_putRevokedJti.2 (.inl rfl)⟩
    | some => exact hroot
  · rcases revoked_putRevokedJti.1 hr with hp | hr
    · exact .inr (.inl hp.symm)
    · exact nomatch hr.symm.trans hr'

/-- One operation of the walk of a rejected exchange. -/
theorem inv_rejectWalk (h : s.Inv)
    (ht : s.call t = .rejecting g w) (hst : w.step s.store = (store, some w')) :
    (s.goto store t (.rejecting g w')).Inv := by
  obtain ⟨hown, hrow, htoken, hpend, hkids⟩ := h.calls.callOk ht
  obtain ⟨pc, pending⟩ := w
  cases pc with
  | flag x parent =>
    cases hst
    have hsame := sameRows_putGrant hrow
    refine h.goto { call := ht, same := hsame, grant := fun _ => id,
                    flags := fun hf => (flagged_putGrant hrow).2 (.inl hf),
                    ok := ⟨hsame.keeps hown, hsame.keeps hrow, htoken, hpend, nofun⟩,
                    flagged := fun hf hf' hl => ?_ }
    obtain rfl := ((flagged_putGrant hrow).1 hf).resolve_left hf'
    exact absurd (htoken ▸ hl) (h.calls.not_live ht)
  | block x parent =>
    cases hst
    refine h.goto { call := ht, same := sameRows_putRevokedJti .., blocks :=
      blocks_putRevokedJti _ _ _,
                    grant := fun _ => id, ok := ⟨hown, hrow, htoken, hpend, nofun⟩,
                    blocked := fun hl hr hr' => ?_ }
    rcases revoked_putRevokedJti.1 hr with rfl | hr
    · exact absurd (htoken ▸ hl) (h.calls.no_child ht _)
    · exact nomatch hr.symm.trans hr'
  | scan x =>
    cases hst
    refine h.goto { call := ht, grant := fun _ => id, ok :=
      ⟨hown, hrow, htoken, hpend, fun _ ids hpc => ?_⟩ }
    cases hpc
    refine eq_nil_iff_forall_not_mem.2 fun id hid => ?_
    obtain ⟨row, hrow', hp⟩ := h.calls.store.index.1 (mem_childIds.1 hid)
    exact h.calls.no_child ht _ (link_iff.2 ⟨id, row, hrow', htoken ▸ hp, rfl⟩)
  | children x ids =>
    obtain rfl : pending = [] := hpend
    obtain rfl : ids = [] := hkids _ _ rfl
    cases hst

/-- A walk goes on from `w` to `w'` without a write. -/
structure Reads (s : DelegationSys T) (d : String) (w w' : Walk) : Prop where
  ok : w'.Ok s.store d
  covered : ∀ {parent child}, w.Covers s.store parent child → s.store.Link parent child →
    s.store.Flagged child ∨ w'.Covers s.store parent child
  blocking : ∀ {jti}, ¬w.pc.Blocking jti

theorem Inv.read (h : s.Inv) (ht : s.call t = .walking d w) (hr : s.Reads d w w') :
    (s.goto s.store t (.walking d w')).Inv :=
  h.goto { call := ht, single := fun _ => h.calls.alone ht, ok := hr.ok, covered := hr.covered,
           blocking := fun hj => absurd hj hr.blocking }

theorem inv_scan (h : s.Inv) (ht : s.call t = .walking d ⟨.scan g, pending⟩) :
    (s.goto s.store t (.walking d ⟨.children g (s.store.childIds g.tokenJti), pending⟩)).Inv := by
  obtain ⟨hcur, hpend, hroot⟩ := h.calls.callOk ht
  refine h.read ht ⟨⟨hcur, hpend, hroot⟩, fun hc hl => .inr (hc.imp_left fun hx => ?_), id⟩
  obtain ⟨id, row, hrow, hp, hchild⟩ := link_iff.1 hl
  exact ⟨id, mem_childIds.2 (h.calls.store.index.2 ⟨row, hrow, hx ▸ hp⟩), row, hrow, hchild⟩

theorem inv_child (h : s.Inv) {id : String} {ids : List String} {pushed}
    (ht : s.call t = .walking d ⟨.children g (id :: ids), pending⟩)
    (hid : ∀ row, s.store.grants id = some row → row.revoked = true ∨ ∃ x ∈ pushed, x.1 = row)
    (hkeep : ∀ x ∈ pending, x ∈ pushed)
    (hrows : ∀ x ∈ pushed, s.store.Row x.1 ∧ x.2.isSome = true) :
    (s.goto s.store t (.walking d ⟨.children g ids, pushed⟩)).Inv := by
  obtain ⟨hcur, -, hroot⟩ := h.calls.callOk ht
  refine h.read ht ⟨⟨hcur, hrows, hroot⟩, fun hc _ => ?_, False.elim⟩
  rcases hc with ⟨id', hin, row, hrow, hchild⟩ | ⟨x, hx, hchild⟩
  · rcases mem_cons.1 hin with rfl | hin
    · obtain ⟨row, hget, rfl⟩ := map_eq_some_iff.1 hrow
      rcases hid row hget with hflag | ⟨x, hx, rfl⟩
      · exact .inl ⟨_, row, hget, hchild, hflag⟩
      · exact .inr (.inr ⟨x, hx, hchild⟩)
    · exact .inr (.inl ⟨id', hin, row, hrow, hchild⟩)
  · exact .inr (.inr ⟨x, hkeep x hx, hchild⟩)

theorem inv_pop (h : s.Inv) {next}
    (ht : s.call t = .walking d ⟨.children g [], (next, parent) :: pending⟩) :
    (s.goto s.store t (.walking d ⟨.flag next parent, pending⟩)).Inv := by
  obtain ⟨-, hpend, hroot⟩ := h.calls.callOk ht
  obtain ⟨hrow, hsome⟩ := hpend _ mem_cons_self
  obtain ⟨b, rfl⟩ := isSome_iff_exists.1 hsome
  refine h.read ht ⟨⟨hrow, fun x hx => hpend x (mem_cons_of_mem _ hx), hroot⟩,
    fun hc _ => .inr ?_, id⟩
  rcases hc with ⟨_, hin, -⟩ | ⟨x, hx, hchild⟩
  · cases hin
  · rcases mem_cons.1 hx with rfl | hx
    · exact .inl ⟨rfl, hchild⟩
    · exact .inr ⟨x, hx, hchild⟩

/-- One operation of the walk of a revocation. -/
theorem inv_walk (h : s.Inv) (ht : s.call t = .walking d w)
    (hst : w.step s.store = (store, some w')) : (s.goto store t (.walking d w')).Inv := by
  obtain ⟨-, hpend, -⟩ := h.calls.callOk ht
  unfold Walk.step at hst
  split at hst
  · cases hst
    exact inv_flag h ht
  · cases hst
    exact inv_block h ht
  · cases hst
    exact inv_scan h ht
  · split at hst
    · next child hchild =>
      split at hst
      · next hrev =>
        cases hst
        refine inv_child h ht (fun row hrow => ?_) (fun _ hx => hx) hpend
        cases hchild.symm.trans hrow
        exact .inl hrev
      · cases hst
        refine inv_child h ht (fun row hrow => ?_) (fun x => mem_cons_of_mem _) fun x hx => ?_
        · cases hchild.symm.trans hrow
          exact .inr ⟨_, mem_cons_self, rfl⟩
        · rcases mem_cons.1 hx with rfl | hx
          · exact ⟨h.calls.store.row_of_get hchild, rfl⟩
          · exact hpend x hx
    · next hchild =>
      cases hst
      exact inv_child h ht (fun row hrow => nomatch hchild.symm.trans hrow) (fun _ hx => hx) hpend
  · cases hst
    exact inv_pop h ht
  · cases hst

/-- A call ends without a write, a walk only when there is nothing before it. -/
theorem Inv.quit {was c} (h : s.Inv) (ht : s.call t = was)
    (hend : c = .failed ∨ ∃ d, c = .revokedOk d ∧ s.Reached d) (hiss : ∀ g, was ≠ .issued g)
    (hcov : ∀ {parent child}, ¬was.Walks (Walk.Covers s.store parent child))
    (hblock : ∀ {jti}, ¬was.Walks fun w => w.pc.Blocking jti) : (s.goto s.store t c).Inv := by
  rcases hend with rfl | ⟨d, rfl, hd⟩
  · exact h.goto { call := ht, issued := fun g hg => absurd hg (hiss g),
                   covered := fun hc => absurd hc hcov, blocking := fun hj => absurd hj hblock }
  · refine h.goto { call := ht, issued := fun g hg => absurd hg (hiss g), done := ?_,
                    covered := fun hc => absurd hc hcov, blocking := fun hj => absurd hj hblock }
    rintro _ ⟨⟩
    exact hd

/-- A walk ends when it has nothing left to visit. -/
theorem Walk.step_none {x : DelegationStore} (hst : w.step x = (store, none)) :
    store = x ∧ ∃ g, w = ⟨.children g [], []⟩ := by
  unfold Walk.step at hst
  split at hst
  case h_6 =>
    cases hst
    exact ⟨rfl, _, rfl⟩
  case h_4 => split at hst <;> (try split at hst) <;> cases hst
  all_goals cases hst

theorem inv_walkEnd (h : s.Inv) (ht : s.call t = .walking d w)
    (hst : w.step s.store = (store, none)) : (s.goto store t (.revokedOk d)).Inv := by
  obtain ⟨rfl, g, rfl⟩ := Walk.step_none hst
  obtain ⟨-, -, row, hrow, hr⟩ := h.calls.callOk ht
  have hcov : ∀ {parent child}, ¬Walk.Covers s.store parent child ⟨.children g [], []⟩ := by
    rintro parent child (⟨_, hin, -⟩ | ⟨_, hin, -⟩) <;> cases hin
  have hwalk : ∀ {p}, s.Walking p → p ⟨.children g [], []⟩ := by
    rintro p ⟨u, hu⟩
    have hut := h.calls.alone ht u hu.inWalk
    rw [hut, ht] at hu
    exact hu
  refine h.quit ht (.inr ⟨d, rfl, ?_⟩) nofun hcov id
  exact h.reached hrow (fun _ => hr) (fun parent child hc => hcov (hwalk hc)) fun jti => hwalk

section

variable (ht : s.call t = .idle) (hfresh : s.store.Fresh g)
  (hpar : ∀ parent, g.parentTokenJti = some parent → s.HandedOut parent)

include ht hfresh hpar

theorem callsOk_store (h : s.CallsOk) :
    (s.goto (s.store.storeDelegationGrant g) t (.stored g)).CallsOk := by
  have hgrant : ∀ {u x},
    ((s.goto (s.store.storeDelegationGrant g) t (.stored g)).call u).grant? = some x →
      (u = t ∧ x = g) ∨ (s.call u).grant? = some x := by
    intro u x hu
    rw [goto_call] at hu
    split at hu
    · next hut =>
      cases hu
      exact .inl ⟨hut, rfl⟩
    · exact .inr hu
  refine ⟨hfresh.ok h.store, fun u => ?_, fun hu hv heq => ?_, fun hx hy hp => ?_,
    unique_move h.single rfl False.elim⟩
  · rw [goto_call]
    split
    · exact hfresh.rows.2 (.inl ⟨rfl, rfl⟩)
    · exact (h.calls u).mono hfresh.keeps fun _ hr => hr
  · rcases hgrant hu with ⟨hut, hg⟩ | hu'
    · rcases hgrant hv with ⟨hvt, -⟩ | hv'
      · exact hut.trans hvt.symm
      · exact absurd (heq.symm.trans (hg ▸ rfl)) (h.new_token hfresh hv')
    · rcases hgrant hv with ⟨-, hg⟩ | hv'
      · exact absurd (heq.trans (hg ▸ rfl)) (h.new_token hfresh hu')
      · exact h.owner hu' hv' heq
  · have hold : ∀ {u x}, s.call u = .issued x →
        (s.goto (s.store.storeDelegationGrant g) t (.stored g)).call u = .issued x := by
      intro u x hu
      rw [goto_call, if_neg ?_, hu]
      rintro rfl
      rw [ht] at hu
      cases hu
    rcases hfresh.rows.1 hy with ⟨-, rfl⟩ | hy
    · -- nothing was exchanged from the new token
      rcases hfresh.rows.1 hx with ⟨-, rfl⟩ | hx
      · exact absurd hp hfresh.1
      · exact absurd hp (hfresh.new hx).2.2
    · obtain ⟨row, hrow, rfl⟩ := map_eq_some_iff.1 hy
      rcases hfresh.rows.1 hx with ⟨-, rfl⟩ | hx
      · obtain ⟨u, x, hu, hx⟩ := hpar _ hp _ row hrow rfl
        exact ⟨u, x, hold hu, hx⟩
      · obtain ⟨u, x, hu, hx⟩ := h.handedOut hx hy hp
        exact ⟨u, x, hold hu, hx⟩

/-- A new grant. Nothing was exchanged from its token yet, and its exchange has yet to read its
parent's row. -/
theorem inv_store (h : s.Inv) (hrev : g.revoked = false) :
    (s.goto (s.store.storeDelegationGrant g) t (.stored g)).Inv := by
  have hiss : ∀ {jti}, (s.goto (s.store.storeDelegationGrant g) t (.stored g)).Issued jti →
      s.Issued jti := fun ⟨u, x, hu, hx⟩ => ⟨u, x, call_of_goto hu nofun, hx⟩
  have hlive : ∀ {jti}, (s.goto (s.store.storeDelegationGrant g) t (.stored g)).Live jti →
      s.Live jti ∨ jti = g.tokenJti := by
    rintro jti ⟨u, x, hu, hx⟩
    rw [goto_call] at hu
    split at hu
    · cases hu
      exact .inr hx.symm
    · exact .inl ⟨u, x, hu, hx⟩
  refine ⟨callsOk_store ht hfresh hpar h.calls, fun hl hr hi => ?_, fun hf hl => ?_, fun hu => ?_⟩
  · rcases hfresh.link hl with hl | ⟨-, rfl⟩
    · rcases h.below hl hr (hiss hi) with hf | hw
      · exact .inl ((hfresh.flagged hrev).2 hf)
      · exact walking_goto ht hw (fun _ hw => hw.mono hfresh.keeps) False.elim
    · exact absurd (hiss hi) (h.calls.not_issued hfresh)
  · have hf0 := (hfresh.flagged hrev).1 hf
    have hl0 := (hlive hl).resolve_right fun heq => ?_
    · rcases h.flagged hf0 hl0 with hr | hw
      · exact .inl hr
      · exact walking_goto ht hw (fun _ hw => hw) False.elim
    · obtain ⟨id, row, hrow, hj, -⟩ := hf0
      exact (hfresh.2 id row hrow).2.1 (hj.trans heq)
  · obtain ⟨g0, hg0, hroot, hall⟩ := h.done (call_of_goto hu nofun)
    refine ⟨g0, hfresh.keeps hg0, fun hl => hroot ?_, fun child hpath hi => ?_⟩
    · exact (hlive hl).resolve_right (hfresh.new hg0).2.1
    · have hold := hfresh.path hpath
      refine hall _ (hold.resolve_right fun heq => ?_) (hiss hi)
      exact h.calls.not_issued hfresh (heq ▸ hiss hi)

end

/-- The first write of a revocation fails. -/
theorem inv_fail (h : s.Inv) (ht : s.call t = .walking d w)
    (hfirst : ∃ g, w.pc = .flag g none) : (s.goto s.store t .failed).Inv := by
  obtain ⟨pc, pending⟩ := w
  obtain ⟨g, rfl⟩ : ∃ g, pc = .flag g none := hfirst
  obtain ⟨-, -, -, rfl⟩ := h.calls.callOk ht
  refine h.quit ht (.inl rfl) nofun ?_ id
  rintro _ _ (⟨⟨⟩, -⟩ | ⟨_, ⟨⟩, -⟩)

theorem inv_step {s' ev} (h : s.Inv) (hc : Careful ev s) (hst : Step ev s s') : s'.Inv := by
  cases hst with
  | store ht hrev hfresh hpar => exact inv_store ht hfresh hpar h hrev
  | @issue _ t g ht hpar =>
    have hrow := h.calls.callOk ht
    refine h.goto { call := ht, grant := fun _ => id, live := fun _ => id, ok := hrow, issue := ?_ }
    rintro _ ⟨⟩
    exact hpar
  | @reject _ t g parent ht _ _ =>
    have hrow := h.calls.callOk ht
    exact h.goto { call := ht, grant := fun _ => id, ok := ⟨hrow, hrow, rfl, rfl, nofun⟩ }
  | rejectWalk ht hst => exact inv_rejectWalk h ht hst
  | @rejectEnd _ t g w store ht hst =>
    obtain ⟨rfl, -⟩ := Walk.step_none hst
    exact h.quit ht (.inl rfl) nofun id id
  | loadMissing ht _ => exact h.quit ht (.inl rfl) nofun id id
  | @loadRevoked _ t d user g ht hg _ hrev =>
    refine h.quit ht (.inr ⟨d, rfl, ?_⟩) nofun id id
    -- a flagged grant that may be handed out is blocked, since no walk is under way
    have hno : ∀ p : Walk → Prop, ¬s.Walking p := fun p ⟨u, hu⟩ => by
      obtain ⟨e, w, hu, -⟩ := hu.exists
      exact hc u e w hu
    exact h.reached (rows_of_get hg)
      (fun hl => (h.flagged ⟨d, g, hg, rfl, hrev⟩ hl).resolve_right (hno _))
      (fun _ _ => hno _) fun _ => hno _
  | load ht hg _ _ =>
    refine h.goto { call := ht, ok :=
      ⟨h.calls.store.row_of_get hg, nofun, h.calls.store.id_of_get hg, rfl⟩,
                    single := fun _ u hu => ?_ }
    obtain ⟨e, w, hu, -⟩ := hu.exists
    exact absurd hu (hc u e w)
  | walk ht hst => exact inv_walk h ht hst
  | walkEnd ht hst => exact inv_walkEnd h ht hst
  | @fail _ t hiss hrevoked =>
    by_cases hw : (s.call t).InWalk
    · obtain ⟨d, w, ht, -⟩ := hw.exists
      exact inv_fail h ht (hc d w ht)
    · exact h.quit rfl (.inl rfl) hiss (fun hcov => hw hcov.inWalk) fun hj => hw hj.inWalk

/-- In every run in which revocations do not overlap and do not fail after their first write,
whenever one has returned `Ok`, all tokens handed out below its grant are on the blocklist, those
handed out later included. -/
theorem revocation_complete (h : Reachable Init (LabelledWith Step Careful) s) : s.Complete := by
  have hinv : s.Inv := h.preserves inv_init inv_step
  intro t d ht g hg u child hu hpath
  obtain ⟨g', hg', -, hall⟩ := hinv.done ht
  cases (rows_of_get hg).symm.trans hg'
  exact hall _ hpath ⟨u, child, hu, rfl⟩

end

/-! ## A grant, one below it, and its revocation -/

def demoGrant : StoredDelegationGrant where
  delegationId := "d"
  actorSub := "agent"
  userSub := "user"
  grantedScope := "read"
  createdAt := 0
  expiresAt := 3600000000
  revoked := false
  tokenJti := "jti"
  parentTokenJti := none

def childGrant : StoredDelegationGrant :=
  { demoGrant with delegationId := "c", tokenJti := "child", parentTokenJti := some "jti" }

def demoInit : DelegationSys (Fin 4) := ⟨⟨fun _ => none, [], fun _ => none⟩, fun _ => .idle⟩

/-- The first call has handed a token out, which the last call has exchanged. -/
def demoIssued : DelegationSys (Fin 4) :=
  let store := demoInit.store.storeDelegationGrant demoGrant
  let store' := store.storeDelegationGrant childGrant
  (((demoInit.goto store 0 (.stored demoGrant)).goto store 0 (.issued demoGrant)).goto
    store' 3 (.stored childGrant)).goto store' 3 (.issued childGrant)

/-- The second call has read the first grant and flagged its row. -/
def demoFlagged : DelegationSys (Fin 4) :=
  (demoIssued.goto demoIssued.store 1 (.walking "d" (.start demoGrant))).goto
    (demoIssued.store.putGrant { demoGrant with revoked := true }) 1
    (.walking "d" ⟨.block { demoGrant with revoked := true } none, []⟩)

theorem demoFlagged_reachable : Reachable Init (LabelledWith Step Careful) demoFlagged := by
  have hstart : Reachable Init (LabelledWith Step Careful) demoInit := .start ⟨rfl, rfl, rfl⟩
  have hnew : demoInit.store.Fresh demoGrant := ⟨nofun, nofun⟩
  have hstored := hstart.next ⟨.exchange 0, trivial, .store rfl rfl hnew nofun⟩
  have hiss := hstored.next ⟨.exchange 0, trivial, @Step.issue _ _ _ 0 demoGrant rfl nofun⟩
  have hfresh : (demoInit.store.storeDelegationGrant demoGrant).Fresh childGrant := by
    refine ⟨by decide, fun id g hg => ?_⟩
    obtain ⟨rfl, ⟨⟩⟩ | hnone := update_cases hg
    · decide
    · cases hnone
  have hchild := hiss.next ⟨.exchange 3, trivial, .store rfl rfl hfresh fun _ hp _ _ _ _ => by
    cases hp
    exact ⟨0, demoGrant, rfl, rfl⟩⟩
  have hboth : Reachable Init (LabelledWith Step Careful) demoIssued :=
    hchild.next ⟨.exchange 3, trivial, .issue rfl fun _ _ => rfl⟩
  have hget : demoIssued.store.grants "d" = some demoGrant := rfl
  have hquiet : Careful (.load 1) demoIssued := by
    intro u e w hu
    match u with
    | 0 | 1 | 2 | 3 => cases hu
  have hloaded := hboth.next ⟨.load 1, hquiet, .load rfl hget rfl rfl⟩
  exact hloaded.next ⟨.walk 1, trivial, .walk rfl rfl⟩

/-- The revocation, once it has run to its end, has put both tokens on the blocklist. -/
theorem revocation_complete_child : ∃ s : DelegationSys (Fin 4),
    Reachable Init (LabelledWith Step Careful) s ∧ s.call 1 = .revokedOk "d" ∧
      s.call 3 = .issued childGrant ∧ s.store.Link "jti" "child" ∧
      s.store.jtiRevokedInStorage "child" = true ∧ s.Complete := by
  have hblocked := demoFlagged_reachable.next ⟨.walk 1, trivial, .walk rfl rfl⟩
  have hscan := hblocked.next ⟨.walk 1, trivial, .walk rfl (Walk.step_scan (mergeSort_singleton _))⟩
  have hfound := hscan.next ⟨.walk 1, trivial, .walk rfl rfl⟩
  have hturn := hfound.next ⟨.walk 1, trivial, .walk rfl rfl⟩
  have hflag := hturn.next ⟨.walk 1, trivial, .walk rfl rfl⟩
  have hblock := hflag.next ⟨.walk 1, trivial, .walk rfl rfl⟩
  have hleaf := hblock.next ⟨.walk 1, trivial, .walk rfl (Walk.step_scan mergeSort_nil)⟩
  have hend := hleaf.next ⟨.walk 1, trivial, .walkEnd rfl rfl⟩
  exact ⟨_, hend, rfl, rfl, ⟨"c", _, rfl, rfl, rfl⟩, rfl, revocation_complete hend⟩

/-- The put of the blocklist row fails, and with it the second call. The third call reads the
flagged grant and returns `Ok`; the token stays off the blocklist. -/
theorem revocation_incomplete : ∃ s : DelegationSys (Fin 4),
    Reachable Init (LabelledWith Step fun _ _ => True) s ∧ ¬s.Complete := by
  have hflagged : Reachable Init (LabelledWith Step fun _ _ => True) demoFlagged :=
    demoFlagged_reachable.unconditional
  have hfail := hflagged.next ⟨.fail 1, trivial, .fail nofun nofun⟩
  have hget : demoFlagged.store.grants "d" = some { demoGrant with revoked := true } := rfl
  have hretried := hfail.next ⟨.load 2, trivial, .loadRevoked rfl hget rfl rfl⟩
  exact ⟨_, hretried, fun h => nomatch h 2 "d" rfl _ rfl 0 _ rfl .refl⟩

end DelegationSys

end Hearth.Identity
