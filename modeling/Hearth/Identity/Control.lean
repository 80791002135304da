import Hearth.Base.Overlay
import Hearth.Base.Run
import Hearth.Types

/-!
# The control caches and their reload

Three caches decide on the validation path: realm statuses, revoked token ids and
blocked DPoP thumbprints. They are one map here, `Caches`, with a `Subject` for each
entry. A control is a durable row, an increment of the control epoch, and a change of
the caches, in this order (`publish_control`). Other nodes learn of it through the
epoch and reload.

A reload reads the epoch, starts recording, scans storage one range at a time, replays
onto the scan the changes made meanwhile, and installs the result. `applied` is the
epoch the caches are taken to reflect.

The steps of a node are `ControlNode.Step`. What they preserve is in
`Hearth.Identity.Blocklist` and `Hearth.Identity.ControlReflects`.
-/

namespace Hearth.Identity

open Base Function

/-- The nil UUID. -/
def systemRealmId : RealmId := .nil

def i64Max : Int := 2 ^ 63 - 1

/-- Whether a revocation until `exp` is kept; a legacy row has no expiry. -/
def unexpired (nowSecs exp : Int) : Bool := exp == i64Max || decide (nowSecs < exp)

theorem unexpired_mono {now now' exp} (h : unexpired now exp = false) (hle : now ≤ now') :
    unexpired now' exp = false := by
  simp only [unexpired, Bool.or_eq_false_iff, decide_eq_false_iff_not, not_lt] at h ⊢
  exact ⟨h.1, h.2.trans hle⟩

/-! ## Caches -/

/-- An entry of one of the three caches. -/
inductive Subject
  | realmStatus (realm : RealmId)
  | revokedJti (realm : RealmId) (jti : String)
  | blockedJkt (jkt : String)
  deriving DecidableEq

@[reducible] def Subject.Value : Subject → Type
  | .realmStatus _ => RealmStatus
  | .revokedJti .. => Int
  | .blockedJkt _ => Unit

/-- What a cache holds for an entry. -/
abbrev Subject.Entry (x : Subject) : Type := Option x.Value

abbrev Caches : Type := (x : Subject) → x.Entry

inductive ControlOp
  | revokeJti (realm : RealmId) (jti : String) (exp : Int)
  | forgetJti (realm : RealmId) (jti : String)
  | blockJkt (jkt : String)
  | unblockJkt (jkt : String)
  | setRealmStatus (realm : RealmId) (status : RealmStatus)
  | forgetRealmStatus (realm : RealmId)
  deriving DecidableEq

namespace ControlOp

def subject : ControlOp → Subject
  | revokeJti realm jti _ | forgetJti realm jti => .revokedJti realm jti
  | blockJkt jkt | unblockJkt jkt => .blockedJkt jkt
  | setRealmStatus realm _ | forgetRealmStatus realm => .realmStatus realm

def value : (op : ControlOp) → op.subject.Entry
  | revokeJti _ _ exp => some exp
  | blockJkt _ => some ()
  | setRealmStatus _ status => some status
  | forgetJti .. | unblockJkt _ | forgetRealmStatus _ => none

/-- The change as a reload replays it. -/
def edit (op : ControlOp) : Edit Subject Subject.Entry := ⟨op.subject, op.value⟩

end ControlOp

/-- Drops the expired revocations of a shard. -/
def Caches.retain (shard : RealmId → String → Nat) (index : Nat) (nowSecs : Int) (caches : Caches) : Caches
  | .revokedJti realm jti =>
    if shard realm jti = index then (caches (.revokedJti realm jti)).filter (unexpired nowSecs)
    else caches (.revokedJti realm jti)
  | .realmStatus realm => caches (.realmStatus realm)
  | .blockedJkt jkt => caches (.blockedJkt jkt)

def applyToCaches (shard : RealmId → String → Nat) (nowSecs : Int) (caches : Caches) : ControlOp → Caches
  | .revokeJti realm jti exp =>
    update (caches.retain shard (shard realm jti) nowSecs) (.revokedJti realm jti) (some exp)
  | .forgetJti realm jti => update caches (.revokedJti realm jti) none
  | .blockJkt jkt => update caches (.blockedJkt jkt) (some ())
  | .unblockJkt jkt => update caches (.blockedJkt jkt) none
  | .setRealmStatus realm status => update caches (.realmStatus realm) (some status)
  | .forgetRealmStatus realm => update caches (.realmStatus realm) none

variable {caches : Caches} {shard : RealmId → String → Nat} {now : Int}

theorem applyToCaches_self {op} : applyToCaches shard now caches op op.subject = op.value := by
  cases op <;> exact update_self ..

/-- A revocation that has expired at `clock`. -/
def Lapsed (clock : Int) : (x : Subject) → x.Entry → Prop
  | .revokedJti _ _, some exp => unexpired clock exp = false
  | _, _ => False

/-- `v` is `w`, or it is empty and `w` has expired. -/
def Agrees (clock : Int) (x : Subject) (v w : x.Entry) : Prop := v = w ∨ v = none ∧ Lapsed clock x w

variable {clock : Int} {x : Subject}

theorem Lapsed.mono {clock' v} (h : Lapsed clock x v) (hle : clock ≤ clock') : Lapsed clock' x v := by
  match x, v, h with
  | .revokedJti _ _, some _, h => exact unexpired_mono h hle

theorem Agrees.mono {clock' v w} (h : Agrees clock x v w)
    (hle : clock ≤ clock') : Agrees clock' x v w :=
  h.imp_right fun ⟨hv, hw⟩ => ⟨hv, hw.mono hle⟩

theorem Agrees.refl (v : x.Entry) : Agrees clock x v v := .inl rfl

theorem Agrees.trans {u v w} (huv : Agrees clock x u v)
    (hvw : Agrees clock x v w) : Agrees clock x u w := by
  rcases huv with rfl | ⟨rfl, hv⟩
  · exact hvw
  · rcases hvw with rfl | ⟨rfl, hw⟩
    · exact .inr ⟨rfl, hv⟩
    · exact .inr ⟨rfl, hw⟩

theorem agrees_filter (hle : now ≤ clock) {realm jti} (v : Option Int) :
    Agrees clock (.revokedJti realm jti) (v.filter (unexpired now)) v := by
  cases v with
  | none => exact .refl _
  | some exp =>
    cases hexp : unexpired now exp with
    | true => exact .inl (by simp [hexp])
    | false => exact .inr ⟨by simp [hexp], unexpired_mono hexp hle⟩

/-- A change leaves the other entries, except those that have expired. -/
theorem applyToCaches_of_ne (hle : now ≤ clock) {op} (hx : x ≠ op.subject) :
    Agrees clock x (applyToCaches shard now caches op x) (caches x) := by
  cases op with
  | revokeJti realm jti exp =>
    have heq : applyToCaches shard now caches (.revokeJti realm jti exp) x =
        caches.retain shard (shard realm jti) now x := update_of_ne hx ..
    rw [heq]
    cases x with
    | realmStatus | blockedJkt => exact .refl _
    | revokedJti realm' jti' =>
      dsimp only [Caches.retain]
      split
      · exact agrees_filter hle _
      · exact .refl _
  | forgetJti | blockJkt | unblockJkt | setRealmStatus | forgetRealmStatus =>
    exact .inl (update_of_ne hx ..)

/-! ## Rows -/

inductive Control
  | revokeJti (realm : RealmId) (jti : String) (exp : Int)
  | forgetJti (realm : RealmId) (jti : String)
  | blockJkt (realm : RealmId) (jkt : String)
  | unblockJkt (realm : RealmId) (jkt : String)
  | setRealmStatus (realm : RealmId) (status : RealmStatus)
  | forgetRealmStatus (realm : RealmId)
  deriving DecidableEq

/-- The change of the caches. The thumbprint comes without its realm. -/
def Control.op : Control → ControlOp
  | revokeJti realm jti exp => .revokeJti realm jti exp
  | forgetJti realm jti => .forgetJti realm jti
  | blockJkt _ jkt => .blockJkt jkt
  | unblockJkt _ jkt => .unblockJkt jkt
  | setRealmStatus realm status => .setRealmStatus realm status
  | forgetRealmStatus realm => .forgetRealmStatus realm

/-- The rows that the caches are computed from. -/
structure ControlRows where
  /-- The realms with a record, in the order of a scan. -/
  realms : List RealmId
  status : RealmId → RealmStatus
  /-- `oauth:revjti:` -/
  revokedJti : RealmId × String → Option Int
  /-- `agt:dpop:block:jkt:` -/
  blockedJkt : Finset (RealmId × String)

inductive ScanStep
  | revokedJtis (realm : RealmId)
  | blockedJkts (realm : RealmId)
  deriving DecidableEq

namespace ControlRows

variable (x : ControlRows)

def commit : Control → ControlRows
  | .revokeJti realm jti exp => { x with revokedJti := update x.revokedJti (realm, jti) (some exp) }
  | .forgetJti realm jti => { x with revokedJti := update x.revokedJti (realm, jti) none }
  | .blockJkt realm jkt => { x with blockedJkt := insert (realm, jkt) x.blockedJkt }
  | .unblockJkt realm jkt => { x with blockedJkt := x.blockedJkt.erase (realm, jkt) }
  | .setRealmStatus realm status =>
    { x with realms := x.realms.insert realm, status := update x.status realm status }
  | .forgetRealmStatus realm => { x with realms := x.realms.filter (· ≠ realm) }

/-- The realms whose rows a reload reads: the system realm, and those with a record. -/
def realmIds : List RealmId := systemRealmId :: x.realms.filter (· ≠ systemRealmId)

/-- The statuses that `scan_realms` finds. -/
def scanRealms : Caches
  | .realmStatus realm => if realm ∈ x.realms ∧ realm ≠ systemRealmId then some (x.status realm) else none
  | .revokedJti .. | .blockedJkt _ => none

/-- The scan of one range, added to what was found. -/
def scan (nowSecs : Int) (found : Caches) : ScanStep → Caches
  | .revokedJtis realm => fun
    | .revokedJti realm' jti =>
      if realm' = realm then
        ((x.revokedJti (realm, jti)).filter (unexpired nowSecs)).or (found (.revokedJti realm' jti))
      else found (.revokedJti realm' jti)
    | .realmStatus realm => found (.realmStatus realm)
    | .blockedJkt jkt => found (.blockedJkt jkt)
  | .blockedJkts realm => fun
    | .blockedJkt jkt => if (realm, jkt) ∈ x.blockedJkt then some () else found (.blockedJkt jkt)
    | .realmStatus realm => found (.realmStatus realm)
    | .revokedJti realm jti => found (.revokedJti realm jti)

/-- The ranges that follow `scan_realms`. -/
def scanSteps : List ScanStep := x.realmIds.map .revokedJtis ++ x.realmIds.map .blockedJkts

/-- What the rows say of an entry. -/
def current : Caches
  | .realmStatus realm => if realm ∈ x.realms ∧ realm ≠ systemRealmId then some (x.status realm) else none
  | .revokedJti realm jti => x.revokedJti (realm, jti)
  | .blockedJkt jkt => if ∃ row ∈ x.blockedJkt, row.2 = jkt then some () else none

/-- Every revocation and block is in a realm that a reload reads. -/
def Listed : Prop :=
  (∀ realm jti exp, x.revokedJti (realm, jti) = some exp → realm ∈ x.realmIds) ∧
    ∀ row ∈ x.blockedJkt, row.1 ∈ x.realmIds

variable {x : ControlRows} {c : Control}

theorem current_blockedJkt_eq_some {jkt} :
    x.current (.blockedJkt jkt) = some () ↔ ∃ row ∈ x.blockedJkt, row.2 = jkt := by
  simp [current]

theorem current_blockedJkt_eq_none {jkt} :
    x.current (.blockedJkt jkt) = none ↔ ∀ row ∈ x.blockedJkt, row.2 ≠ jkt := by
  simp only [current, ite_eq_right_iff, reduceCtorEq, imp_false, not_exists, not_and]

/-- A control of another thumbprint leaves the row. -/
theorem mem_blockedJkt_commit {row} (h : .blockedJkt row.2 ≠ c.op.subject) :
    row ∈ (x.commit c).blockedJkt ↔ row ∈ x.blockedJkt := by
  cases c with
  | blockJkt realm jkt | unblockJkt realm jkt =>
    have hne : row ≠ (realm, jkt) := fun heq => h (by rw [heq]; rfl)
    simp [commit, hne]
  | revokeJti | forgetJti | setRealmStatus | forgetRealmStatus => rfl

theorem mem_realms_commit {realm} (h : .realmStatus realm ≠ c.op.subject) :
    realm ∈ (x.commit c).realms ↔ realm ∈ x.realms := by
  cases c with
  | setRealmStatus realm' =>
    have hne : realm ≠ realm' := fun heq => h (by rw [heq]; rfl)
    simp [commit, hne]
  | forgetRealmStatus realm' =>
    have hne : realm ≠ realm' := fun heq => h (by rw [heq]; rfl)
    simp [commit, hne]
  | revokeJti | forgetJti | blockJkt | unblockJkt => rfl

/-- A control changes what the rows say of its subject only. -/
theorem current_commit_of_ne {y} (h : y ≠ c.op.subject) : (x.commit c).current y = x.current y := by
  cases y with
  | blockedJkt jkt =>
    have hiff : (∃ row ∈ (x.commit c).blockedJkt, row.2 = jkt) ↔ ∃ row ∈ x.blockedJkt, row.2 = jkt := by
      refine exists_congr fun row => and_congr_left fun heq => mem_blockedJkt_commit ?_
      rw [heq]
      exact h
    simp only [current, hiff]
  | revokedJti realm jti =>
    cases c with
    | revokeJti realm' jti' | forgetJti realm' jti' =>
      refine update_of_ne (fun heq => h ?_) ..
      cases heq
      rfl
    | blockJkt | unblockJkt | setRealmStatus | forgetRealmStatus => rfl
  | realmStatus realm =>
    have hstat : (x.commit c).status realm = x.status realm := by
      cases c with
      | setRealmStatus realm' =>
        refine update_of_ne (fun heq => h ?_) ..
        cases heq
        rfl
      | revokeJti | forgetJti | blockJkt | unblockJkt | forgetRealmStatus => rfl
    simp [current, mem_realms_commit h, hstat]

end ControlRows

/-! ## A node -/

/-- `MAX_PARKED_LOCAL_EPOCHS`. -/
def maxParkedLocalEpochs : Nat := 1024

/-- A control whose row is written, with its place among the rows. -/
structure Committed where
  place : Nat
  control : Control

/-- Where a call of `publish_control` stands. -/
inductive ControlCall
  | idle
  /-- The row is written; there is none where only the epoch is bumped. -/
  | written (work : Option Committed)
  /-- The bump has returned its epoch, or failed. -/
  | bumped (work : Option Committed) (epoch : Option Nat)

/-- The control of a call whose change is not applied yet. -/
def ControlCall.work : ControlCall → Option Committed
  | idle => none
  | written work | bumped work _ => work

inductive ReloadPhase
  | idle
  | epochRead (epoch : Nat)
  | recording (epoch : Nat)
  | scanning (epoch : Nat) (nowSecs : Int) (found : Caches) (todo : List ScanStep)

def ReloadPhase.records : ReloadPhase → Bool
  | idle | epochRead _ => false
  | recording _ | scanning .. => true

structure ControlNode where
  rows : ControlRows
  /-- The persisted control epoch. -/
  epoch : Nat
  caches : Caches
  /-- `applied` and `local_epochs`. -/
  applied : Watermark
  target : Nat
  recording : Bool
  ops : List ControlOp
  calls : Nat → ControlCall
  /-- The reload that holds `reload_exclusive`. -/
  reload : ReloadPhase
  /-- History: the rows at first, and the controls written since, in order. -/
  origin : ControlRows
  commits : List Control
  /-- History: an epoch, and the place of the control that bumped it. -/
  bumps : List (Nat × Nat)
  /-- History: the places of the controls whose change has been applied here. -/
  returned : List Nat
  /-- History: the latest clock reading, in seconds. -/
  clock : Int

inductive ControlEvent
  | write (id : Nat) (c : Control)
  | begin (id : Nat)
  | bump (id : Nat)
  | bumpFails (id : Nat)
  | apply (id : Nat) (nowSecs : Int)
  | replicatedRow (c : Control)
  | replicatedBump (place : Nat)
  | signal
  | readEpoch
  | record
  | scanRealms (nowSecs : Int)
  | scanNext
  | scanFails
  | publish
  deriving DecidableEq

namespace ControlNode

section

variable (s : ControlNode)

def commit (c : Control) : ControlNode :=
  { s with rows := s.rows.commit c, commits := s.commits ++ [c] }

def setCall (id : Nat) (call : ControlCall) : ControlNode :=
  { s with calls := update s.calls id call }

def setReload (phase : ReloadPhase) : ControlNode := { s with reload := phase }

def readClock (nowSecs : Int) : ControlNode := { s with clock := max s.clock nowSecs }

/-- The journal starts recording, or stops, with nothing in it. -/
def setRecording (recording : Bool) : ControlNode := { s with recording, ops := [] }

/-- `increment_u64` of the control epoch, with the control it is for. -/
def increment (place : Option Nat) : ControlNode :=
  { s with epoch := s.epoch + 1, bumps := s.bumps ++ place.toList.map (s.epoch + 1, ·) }

variable (shard : RealmId → String → Nat)

/-- `ControlPlane::apply` of a change. -/
def applyOp (s : ControlNode) (nowSecs : Int) (w : Committed) : ControlNode :=
  { s with
    caches := applyToCaches shard nowSecs s.caches w.control.op
    ops := if s.recording then s.ops ++ [w.control.op] else s.ops
    returned := s.returned ++ [w.place] }

/-- `record_local_epoch`. -/
def recordLocalEpoch (epoch : Nat) : ControlNode :=
  { s with applied := s.applied.record maxParkedLocalEpochs epoch }

def apply (s : ControlNode) (nowSecs : Int) (work : Option Committed)
    (epoch : Option Nat) : ControlNode :=
  let s := s.readClock nowSecs
  let s := work.elim s (s.applyOp shard nowSecs)
  epoch.elim s s.recordLocalEpoch

section

variable {shard : RealmId → String → Nat} {s : ControlNode} {now : Int} {work : Option Committed} {epoch : Option Nat}

@[simp] theorem apply_calls : (s.apply shard now work epoch).calls = s.calls := by
  cases work <;> cases epoch <;> rfl

@[simp] theorem apply_rows : (s.apply shard now work epoch).rows = s.rows := by
  cases work <;> cases epoch <;> rfl

@[simp] theorem apply_reload : (s.apply shard now work epoch).reload = s.reload := by
  cases work <;> cases epoch <;> rfl

@[simp] theorem apply_recording : (s.apply shard now work epoch).recording = s.recording := by
  cases work <;> cases epoch <;> rfl

end

/-- The journal replayed onto the scan, and the result installed. -/
def publish (epoch : Nat) (found : Caches) : ControlNode :=
  { s with
    caches := replay found (s.ops.map ControlOp.edit)
    ops := []
    recording := false
    applied := s.applied.raise epoch
    reload := .idle }

/-- `signal` of the persisted epoch. -/
def signal : ControlNode :=
  if s.epoch ≤ s.applied.mark then s else { s with target := max s.target s.epoch }

end

inductive Step (shard : RealmId → String → Nat) : ControlEvent → ControlNode → ControlNode → Prop
  /-- The callers refuse the system realm. The observer projects a replicated revocation through the
  same steps, with `bumpFails` for the bump it does not make. -/
  | write {s id c} : s.calls id = .idle → c.op.subject ≠ .realmStatus systemRealmId →
      Step shard (.write id c) s ((s.commit c).setCall id (.written (some ⟨s.commits.length, c⟩)))
  | begin {s id} : s.calls id = .idle → Step shard (.begin id) s (s.setCall id (.written none))
  | bump {s id work} : s.calls id = .written work → Step shard (.bump id) s
        ((s.increment (work.map Committed.place)).setCall id (.bumped work (some (s.epoch + 1))))
  | bumpFails {s id work} : s.calls id = .written work →
      Step shard (.bumpFails id) s (s.setCall id (.bumped work none))
  | apply {s id now work epoch} : s.calls id = .bumped work epoch →
      Step shard (.apply id now) s ((s.apply shard now work epoch).setCall id .idle)
  /-- Another node's row, and its bump. -/
  | replicatedRow {s c} : c.op.subject ≠ .realmStatus systemRealmId →
      Step shard (.replicatedRow c) s (s.commit c)
  | replicatedBump {s place} : place < s.commits.length →
      Step shard (.replicatedBump place) s (s.increment (some place))
  | signal {s} : Step shard .signal s s.signal
  | readEpoch {s} : s.reload = .idle → Step shard .readEpoch s (s.setReload (.epochRead s.epoch))
  | record {s epoch} : s.reload = .epochRead epoch →
      Step shard .record s ((s.setRecording true).setReload (.recording epoch))
  | scanRealms {s epoch now} : s.reload = .recording epoch → Step shard (.scanRealms now) s
        ((s.readClock now).setReload (.scanning epoch now s.rows.scanRealms s.rows.scanSteps))
  | scanNext {s epoch now found x todo} : s.reload = .scanning epoch now found (x :: todo) →
      Step shard .scanNext s (s.setReload (.scanning epoch now (s.rows.scan now found x) todo))
  | scanFails {s} : s.recording = true →
      Step shard .scanFails s ((s.setRecording false).setReload .idle)
  | publish {s epoch now found} :
      s.reload = .scanning epoch now found [] → Step shard .publish s (s.publish epoch found)

/-- A change is applied while the rows of its subject still say the same. -/
def AppliesCurrent (id : Nat) (s : ControlNode) : Prop :=
  ∀ w epoch, s.calls id = .bumped (some w) epoch → s.rows.current w.control.op.subject = w.control.op.value

def journal (s : ControlNode) : List (Edit Subject Subject.Entry) := s.ops.map ControlOp.edit

/-- The journal records from the start of the scan to the swap. -/
def RecordsScan (s : ControlNode) : Prop := s.recording = s.reload.records

theorem RecordsScan.recording_eq {s : ControlNode} {phase : ReloadPhase} (h : s.RecordsScan)
    (hphase : s.reload = phase) : s.recording = phase.records := by
  rw [← hphase]
  exact h

/-- A node that has loaded its caches. -/
structure Init (s : ControlNode) : Prop where
  caches : s.caches = s.rows.current
  listed : s.rows.Listed
  applied : s.applied.mark ≤ s.epoch
  parked : s.applied.parked = ∅
  recording : s.recording = false
  calls : ∀ id, s.calls id = .idle
  reload : s.reload = .idle
  origin : s.origin = s.rows
  commits : s.commits = []
  bumps : s.bumps = []
  returned : s.returned = []

/-- The two realms of a deployment: the system realm and one with a record. -/
def tenantRealm : RealmId := ⟨.replicate 16 1, rfl⟩

def twoRealms : ControlRows where
  realms := [tenantRealm]
  status _ := .active
  revokedJti _ := none
  blockedJkt := ∅

theorem tenant_listed : tenantRealm ∈ twoRealms.realmIds := by decide +kernel

def freshNode : ControlNode where
  rows := twoRealms
  epoch := 0
  caches := twoRealms.current
  applied := ⟨0, ∅⟩
  target := 0
  recording := false
  ops := []
  calls _ := .idle
  reload := .idle
  origin := twoRealms
  commits := []
  bumps := []
  returned := []
  clock := 0

theorem freshNode_init : freshNode.Init :=
  ⟨rfl, ⟨nofun, nofun⟩, le_rfl, rfl, rfl, fun _ => rfl, rfl, rfl, rfl, rfl, rfl⟩

end ControlNode

end Hearth.Identity
