import Hearth.Identity.SingleUse

/-!
# Decisions of the device flow

The user approves or denies a device code; whoever puts the decision marker first
decides, and then writes the row. The device polls, and a poll of a code that is
not approved writes the row it has read back with the time of the poll. Rows and
markers are read from a node's own, possibly old, state; the marker is put and
the rows are written in the log.

`one_decision`: at most one decision is made, in every run. `decision_final` says when it
stays. `decision_lost`: a poll on a node that has not applied it puts `Pending` over it.
-/

namespace Hearth.Identity

open Base Replicated

inductive DeviceCodeStatus
  | pending
  | approved (userId : String)
  | denied
  | expired
  deriving DecidableEq

inductive MfaProof
  | none
  | proved
  | provedWebAuthn
  | passkeyPossession
  | emailOtp
  deriving DecidableEq

/-- The fields of the row that approve, deny and poll read or write. -/
structure StoredDeviceCode where
  clientId : String
  status : DeviceCodeStatus
  expiresAt : Timestamp
  interval : Int
  lastPolledAt : Option Timestamp
  mfaProof : MfaProof
  deriving DecidableEq

/-- What the user decides, with what the approving session proved. -/
inductive DeviceVerdict
  | approve (userId : String) (mfaProof : MfaProof)
  | deny

namespace DeviceVerdict

def status : DeviceVerdict → DeviceCodeStatus
  | approve userId _ => .approved userId
  | deny => .denied

/-- The row as it is written; a denial leaves the proof as it was. -/
def apply (stored : StoredDeviceCode) : DeviceVerdict → StoredDeviceCode
  | approve userId mfaProof => { stored with status := .approved userId, mfaProof }
  | deny => { stored with status := .denied }

variable (v : DeviceVerdict)

theorem apply_status (stored : StoredDeviceCode) : (v.apply stored).status = v.status := by
  cases v with
  | approve | deny => rfl

theorem status_ne_pending : v.status ≠ .pending := by
  cases v with
  | approve | deny => nofun

/-- Denied against approved, or approved against denied. -/
def Opposes (v : DeviceVerdict) (status : DeviceCodeStatus) : Prop :=
  match v with
  | approve .. => status = .denied
  | deny => ∃ userId, status = .approved userId

theorem not_opposes_self : ¬v.Opposes v.status := by
  cases v with
  | approve => nofun
  | deny => rintro ⟨_, h⟩; cases h

end DeviceVerdict

/-- The rows of one device code: its record, the user-code index, the decision marker and the
redemption marker. -/
structure DeviceStore where
  row : Option StoredDeviceCode
  index : Bool
  decision : Option Int
  consumed : Option Int

/-- `SlowDown`. -/
def polledTooSoon (stored : StoredDeviceCode) (now : Timestamp) : Bool :=
  match stored.lastPolledAt with
  | some lastPolled => decide ((now - lastPolled).tdiv 1000000 < stored.interval)
  | none => false

inductive DeviceCall
  | idle
  /-- The user code is known. -/
  | found (verdict : DeviceVerdict)
  | loaded (stored : StoredDeviceCode) (verdict : DeviceVerdict)
  | claimed (stored : StoredDeviceCode) (verdict : DeviceVerdict)
  | written (verdict : DeviceVerdict)
  /-- `Ok(())` is returned. -/
  | decided (verdict : DeviceVerdict)
  | polled (stored : StoredDeviceCode) (now : Timestamp)
  /-- About to write the row back. -/
  | touching (stored : StoredDeviceCode) (now : Timestamp)
  | redeeming (stored : StoredDeviceCode)
  | deleted
  | ended

/-- The call holds the decision marker. -/
def DeviceCall.Deciding : DeviceCall → Prop
  | .claimed .. | .written _ | .decided _ => True
  | .idle | .found _ | .loaded .. | .polled .. | .touching .. | .redeeming _ | .deleted | .ended => False

/-- A status of the row before or after `verdict` is written. -/
def KnownStatus (verdict : Option DeviceVerdict) (status : DeviceCodeStatus) : Prop :=
  status = .pending ∨ ∃ v, verdict = some v ∧ status = v.status

variable {verdict : Option DeviceVerdict}

theorem KnownStatus.of_none {status} (h : KnownStatus none status) : KnownStatus verdict status :=
  h.imp_right fun ⟨_, hv, _⟩ => nomatch hv

/-- What a call holds fits the decision written so far. -/
def DeviceCall.Agrees (verdict : Option DeviceVerdict) : DeviceCall → Prop
  | .claimed .. => verdict = none
  | .written v | .decided v => verdict = some v
  | .polled stored _ | .touching stored _ => KnownStatus verdict stored.status
  | .idle | .found _ | .loaded .. | .redeeming _ | .deleted | .ended => True

theorem DeviceCall.Agrees.of_none {c : DeviceCall} (h : c.Agrees none)
    (hc : ¬c.Deciding) : c.Agrees verdict := by
  cases c with
  | claimed | written | decided => exact absurd trivial hc
  | polled | touching => exact KnownStatus.of_none h
  | idle | found | loaded | redeeming | deleted | ended => trivial

inductive DeviceEvent (T : Type)
  | touch (t : T)
  | other

structure DeviceSys (N T : Type) where
  rep : Replicated N DeviceStore
  call : T → DeviceCall

namespace DeviceSys

variable {N T : Type}

def goto [DecidableEq T] (s : DeviceSys N T) (rep : Replicated N DeviceStore) (t : T) (c : DeviceCall) :
    DeviceSys N T :=
  { rep, call := Function.update s.call t c }

@[simp] theorem rep_goto [DecidableEq T] {s : DeviceSys N T} {rep} {t : T}
    {c : DeviceCall} : (s.goto rep t c).rep = rep := rfl

/-- `node t` is where call `t` runs. -/
inductive Step [DecidableEq N] [DecidableEq T] (node : T → N) :
    DeviceEvent T → DeviceSys N T → DeviceSys N T → Prop
  | find {s t} (verdict : DeviceVerdict) : s.call t = .idle →
      (s.rep.read (node t)).index = true → Step node .other s (s.goto s.rep t (.found verdict))
  | load {s t verdict stored} (now : Timestamp) :
      s.call t = .found verdict → (s.rep.read (node t)).row = some stored → now < stored.expiresAt →
      stored.status = .pending → Step node .other s (s.goto s.rep t (.loaded stored verdict))
  | claim {s t verdict stored} : s.call t = .loaded stored verdict → s.rep.current.decision = none →
      Step node .other s (s.goto (s.rep.propose (node t)
        { s.rep.current with decision := some (markerExpiresAt stored.expiresAt) }) t (.claimed stored verdict))
  | lose {s t verdict stored} : s.call t = .loaded stored verdict → s.rep.current.decision ≠ none →
      Step node .other s (s.goto (s.rep.propose (node t) s.rep.current) t .ended)
  | write {s t verdict stored} : s.call t = .claimed stored verdict →
      Step node .other s (s.goto (s.rep.propose (node t)
        { s.rep.current with row := some (verdict.apply stored) }) t (.written verdict))
  /-- The audit record is written. -/
  | ok {s t verdict} : s.call t = .written verdict →
      Step node .other s (s.goto s.rep t (.decided verdict))
  /-- The client matches and is active, the code has not expired and the poll is not too soon. -/
  | poll {s t stored} (now : Timestamp) : s.call t = .idle →
      (s.rep.read (node t)).row = some stored → now < stored.expiresAt → polledTooSoon stored now = false →
      Step node .other s (s.goto s.rep t (.polled stored now))
  | undecided {s t stored now} :
      s.call t = .polled stored now → stored.status = .pending → (s.rep.read (node t)).decision = none →
      Step node .other s (s.goto s.rep t (.touching stored now))
  | refused {s t stored now} :
      s.call t = .polled stored now → stored.status = .denied ∨ stored.status = .expired →
      Step node .other s (s.goto s.rep t (.touching stored now))
  | touch {s t stored now} : s.call t = .touching stored now →
      Step node (.touch t) s (s.goto (s.rep.propose (node t)
        { s.rep.current with row := some { stored with lastPolledAt := some now } }) t .ended)
  | redeem {s t stored now user} :
      s.call t = .polled stored now → stored.status = .approved user → s.rep.current.consumed = none →
      Step node .other s (s.goto (s.rep.propose (node t)
        { s.rep.current with consumed := some (markerExpiresAt stored.expiresAt) }) t (.redeeming stored))
  | redeemed {s t stored now user} :
      s.call t = .polled stored now → stored.status = .approved user → s.rep.current.consumed ≠ none →
      Step node .other s (s.goto (s.rep.propose (node t) s.rep.current) t .ended)
  | delete {s t stored} : s.call t = .redeeming stored →
      Step node .other s (s.goto (s.rep.propose (node t) { s.rep.current with row := none }) t .deleted)
  | deleteIndex {s t} : s.call t = .deleted →
      Step node .other s (s.goto (s.rep.propose (node t) { s.rep.current with index := false }) t .ended)
  /-- A check refuses the call, a storage operation of it fails, or it is answered. -/
  | fail {s t} : (∀ verdict, s.call t ≠ .decided verdict) →
      Step node .other s (s.goto s.rep t .ended)
  | catchUp {s n v} (hv : v ≤ s.rep.length) : s.rep.view n ≤ v →
      Step node .other s { s with rep := s.rep.catchUp n v hv }

variable (s : DeviceSys N T)

/-- A pending code, applied everywhere, and no decision. -/
def Init : Prop :=
  (∃ stored, stored.status = .pending ∧
    s.rep = .start { row := some stored, index := true, decision := none, consumed := none }) ∧
    s.call = fun _ => .idle

def OneDecision : Prop := ∀ t u v w, s.call t = .decided v → s.call u = .decided w → t = u

/-- Once a decision has returned `Ok`, the row in the log, as long as there is one, keeps it. -/
def Final : Prop :=
  ∀ t v, s.call t = .decided v → ∀ stored, s.rep.current.row = some stored →
    stored.status ≠ .pending ∧ ¬v.Opposes stored.status

/-- A poll that read `Pending` writes it back only while the row in the log is pending. -/
def Careful : DeviceEvent T → DeviceSys N T → Prop
  | .touch t, s => ∀ stored now, s.call t = .touching stored now → stored.status = .pending →
      ∃ row, s.rep.current.row = some row ∧ row.status = .pending
  | .other, _ => True

/-! ## One decision -/

/-- One call at most holds the marker, and the marker is in the log. -/
structure Marked (s : DeviceSys N T) : Prop where
  held : ∀ t, (s.call t).Deciding → s.rep.current.decision ≠ none
  single : ∀ t u, (s.call t).Deciding → (s.call u).Deciding → t = u

section

variable {s s' : DeviceSys N T} {rep : Replicated N DeviceStore} {t : T} {c : DeviceCall}

theorem call_goto [DecidableEq T] : (s.goto rep t c).call = Function.update s.call t c := rfl

section

variable [DecidableEq T] (h : s.Marked)
  (hmark : s.rep.current.decision ≠ none → rep.current.decision ≠ none)

include h hmark

theorem Marked.goto
    (hc : c.Deciding → rep.current.decision ≠ none ∧ ∀ u, (s.call u).Deciding → u = t) :
    (s.goto rep t c).Marked where
  held := forall_move call_goto (fun hdec => (hc hdec).1) fun u _ hu => hmark (h.held u hu)
  single := unique_move h.single call_goto fun hdec => (hc hdec).2

/-- The call keeps the marker it holds. -/
theorem Marked.goto_deciding (ht : (s.call t).Deciding) : (s.goto rep t c).Marked :=
  h.goto hmark fun _ => ⟨hmark (h.held t ht), fun u hu => h.single u t hu ht⟩

end

theorem marked_init (h : Init s) : s.Marked := by
  obtain ⟨-, hcall⟩ := h
  constructor
  · rw [hcall]
    exact fun _ h => h.elim
  · rw [hcall]
    exact fun _ _ h => h.elim

variable [DecidableEq N] [DecidableEq T] {node : T → N} {ev : DeviceEvent T}

theorem marked_step (h : s.Marked) (hst : Step node ev s s') : s'.Marked := by
  cases hst with
  | find | load | poll | undecided | refused | fail => exact h.goto (fun hm => hm) nofun
  | claim ht hfree =>
    refine h.goto (fun _ => ?_) fun _ => ⟨?_, fun u hu => absurd hfree (h.held u hu)⟩
    · rw [current_propose]
      nofun
    · rw [current_propose]
      nofun
  | lose | redeemed | touch | redeem | delete | deleteIndex =>
    refine h.goto (fun hm => ?_) nofun
    rw [current_propose]
    exact hm
  | write ht =>
    refine h.goto_deciding (fun hm => ?_) (by rw [ht]; trivial)
    rw [current_propose]
    exact hm
  | ok ht => exact h.goto_deciding (fun hm => hm) (by rw [ht]; trivial)
  | catchUp => exact ⟨h.held, h.single⟩

variable {cond : DeviceEvent T → DeviceSys N T → Prop}

variable (h : Reachable Init (LabelledWith (Step node) cond) s)

include h

theorem marked_of_reachable : s.Marked :=
  h.preserves marked_init fun hm _ => marked_step hm

theorem one_decision : s.OneDecision := by
  intro t u v w ht hu
  refine (marked_of_reachable h).single t u ?_ ?_
  · rw [ht]
    trivial
  · rw [hu]
    trivial

end

/-! ## The row -/

/-- `verdict` is the decision whose row is in the log. -/
structure Settled (verdict : Option DeviceVerdict) (s : DeviceSys N T) : Prop where
  logged : ∀ x r, s.rep.Logged x → x.row = some r → KnownStatus verdict r.status
  current : ∀ v r, verdict = some v → s.rep.current.row = some r → r.status = v.status
  marker : verdict ≠ none → s.rep.current.decision ≠ none
  agrees : ∀ t, (s.call t).Agrees verdict

section

variable {verdict : Option DeviceVerdict} {s s' : DeviceSys N T} {rep : Replicated N DeviceStore} {n : N} {t : T}
  {c : DeviceCall} {x : DeviceStore}

theorem agrees_goto [DecidableEq T] (h : ∀ u, (s.call u).Agrees verdict) (hc : c.Agrees verdict) (u : T) :
    ((s.goto rep t c).call u).Agrees verdict :=
  forall_move call_goto hc (fun u _ => h u) u

theorem Settled.agreesAt (h : s.Settled verdict) (ht : s.call t = c) : c.Agrees verdict := ht ▸ h.agrees t

/-- A call goes on without a write. -/
theorem Settled.quiet [DecidableEq T] (h : s.Settled verdict) (hc : c.Agrees verdict) :
    (s.goto s.rep t c).Settled verdict :=
  { h with agrees := agrees_goto h.agrees hc }

theorem logged_row [DecidableEq N] (h : ∀ x r, s.rep.Logged x → x.row = some r → KnownStatus verdict r.status)
    (hx : ∀ r, x.row = some r → KnownStatus verdict r.status) (y : DeviceStore) (r : StoredDeviceCode)
    (hy : (s.rep.propose n x).Logged y) (hr : y.row = some r) : KnownStatus verdict r.status := by
  rcases logged_propose.1 hy with hy | rfl
  · exact h y r hy hr
  · exact hx r hr

/-- A write that leaves the row as it is, or deletes it. -/
theorem Settled.keep [DecidableEq N] [DecidableEq T] (h : s.Settled verdict)
    (hrow : ∀ r, x.row = some r → s.rep.current.row = some r)
    (hmark : s.rep.current.decision ≠ none → x.decision ≠ none) (hc : c.Agrees verdict) :
    (s.goto (s.rep.propose n x) t c).Settled verdict := by
  refine ⟨logged_row h.logged fun r hr => h.logged _ r s.rep.logged_current (hrow r hr), ?_, ?_,
    agrees_goto h.agrees hc⟩
  · rw [rep_goto, current_propose]
    exact fun v r hv hr => h.current v r hv (hrow r hr)
  · rw [rep_goto, current_propose]
    exact fun hv => hmark (h.marker hv)

variable [DecidableEq N] [DecidableEq T] {node : T → N} {ev : DeviceEvent T} {stored : StoredDeviceCode}
  {v : DeviceVerdict} {now : Timestamp}

/-- The decision's own write: until then every row in the log was pending. -/
theorem settled_write (hmark : s.Marked) (h : s.Settled verdict) (ht : s.call t = .claimed stored v) :
    (s.goto (s.rep.propose n { s.rep.current with row := some (v.apply stored) }) t (.written v)).Settled
      (some v) := by
  have hdeciding : (s.call t).Deciding := by rw [ht]; trivial
  have hnone : verdict = none := h.agreesAt ht
  subst hnone
  refine ⟨logged_row (fun y r hy hr => (h.logged y r hy hr).of_none) fun r hr => ?_, ?_, ?_, fun u => ?_⟩
  · cases hr
    exact .inr ⟨v, rfl, v.apply_status _⟩
  · rw [rep_goto, current_propose]
    rintro w r ⟨⟩ ⟨⟩
    exact v.apply_status _
  · rw [rep_goto, current_propose]
    exact fun _ => hmark.held t hdeciding
  · -- another call with the marker would be this one
    refine forall_move call_goto rfl (fun u hut => ?_) u
    exact (h.agrees u).of_none fun hdec => hut (hmark.single u t hdec hdeciding)

/-- A poll writes back what it read. -/
theorem settled_touch (h : s.Settled verdict) (ht : s.call t = .touching stored now)
    (hcare : stored.status = .pending → ∃ row, s.rep.current.row = some row ∧ row.status = .pending) :
    (s.goto (s.rep.propose n { s.rep.current with row := some { stored with lastPolledAt := some now } }) t
      .ended).Settled verdict := by
  have hknown : KnownStatus verdict stored.status := h.agreesAt ht
  refine ⟨logged_row h.logged fun r hr => ?_, ?_, ?_, agrees_goto h.agrees trivial⟩
  · cases hr
    exact hknown
  · rw [rep_goto, current_propose]
    rintro w r hw ⟨⟩
    rcases hknown with hpend | ⟨w', hw', hstat⟩
    · obtain ⟨row, hrow, hstat⟩ := hcare hpend
      exact absurd ((h.current w row hw hrow).symm.trans hstat) w.status_ne_pending
    · cases hw.symm.trans hw'
      exact hstat
  · rw [rep_goto, current_propose]
    exact h.marker

theorem settled_step (hmark : s.Marked) (h : s.Settled verdict) (hc : Careful ev s) (hst : Step node ev s s') :
    ∃ verdict', s'.Settled verdict' := by
  cases hst with
  | find | load | fail => exact ⟨verdict, h.quiet trivial⟩
  | claim ht hfree =>
    refine ⟨verdict, h.keep (fun r hr => hr) (fun _ => Option.some_ne_none _) ?_⟩
    by_contra hne
    exact h.marker hne hfree
  | lose | redeem | redeemed | deleteIndex => exact ⟨verdict, h.keep (fun r hr => hr) (fun hm => hm) trivial⟩
  | delete => exact ⟨verdict, h.keep nofun (fun hm => hm) trivial⟩
  | write ht => exact ⟨_, settled_write hmark h ht⟩
  | poll now ht hrow => exact ⟨verdict, h.quiet (h.logged _ _ (s.rep.logged_read _) hrow)⟩
  | ok ht | undecided ht | refused ht =>
    have hagree := h.agreesAt ht
    exact ⟨verdict, h.quiet hagree⟩
  | touch ht => exact ⟨verdict, settled_touch h ht (hc _ _ ht)⟩
  | catchUp => exact ⟨verdict, { h with }⟩

/-- At most one decision is made; and in every run in which a poll writes `Pending` back only while
the row in the log is pending, a decision that has returned `Ok` stays in the row. -/
theorem decision_final (h : Reachable Init (LabelledWith (Step node) Careful) s) : s.OneDecision ∧ s.Final := by
  refine ⟨one_decision h, fun t v ht stored hrow => ?_⟩
  obtain ⟨verdict, hsett⟩ : ∃ verdict, s.Settled verdict := by
    refine h.invariant (I := fun s => ∃ verdict, s.Settled verdict) (fun s hs => ⟨none, ?_⟩)
      fun s s' hr ⟨_, ih⟩ ⟨_, hc, hst⟩ => settled_step (marked_of_reachable hr) ih hc hst
    obtain ⟨⟨stored, hstat, hrep⟩, hcall⟩ := hs
    refine ⟨fun x r hx hr => ?_, nofun, absurd rfl, fun t => ?_⟩
    · rw [hrep] at hx
      rw [logged_start.1 hx] at hr
      cases hr
      exact .inl hstat
    · rw [hcall]
      trivial
  rw [hsett.current v stored (hsett.agreesAt ht) hrow]
  exact ⟨v.status_ne_pending, v.not_opposes_self⟩

end

section

def demoCode : StoredDeviceCode :=
  { clientId := "tv", status := .pending, expiresAt := 600000000, interval := 5, lastPolledAt := none
    mfaProof := .none }

/-- Two nodes, call `i` on node `i`. -/
def demoSys : DeviceSys (Fin 2) (Fin 2) where
  rep := .start { row := some demoCode, index := true, decision := none, consumed := none }
  call _ := .idle

def demoVerdict : DeviceVerdict := .approve "user-1" .proved

/-- The poll on node 1 writes before the approval on node 0. -/
theorem decision_final_approved : ∃ s : DeviceSys (Fin 2) (Fin 2), s.call 0 = .decided demoVerdict ∧
    s.rep.current.row = some (demoVerdict.apply demoCode) ∧ s.OneDecision ∧ s.Final := by
  have h0 : Reachable Init (LabelledWith (Step (id : Fin 2 → Fin 2)) Careful) demoSys :=
    .start ⟨⟨demoCode, rfl, rfl⟩, rfl⟩
  have h1 := h0.take (.poll (t := 1) 0 rfl rfl (by decide) rfl)
  have h2 := h1.take (.undecided (t := 1) rfl rfl rfl)
  have h3 := h2.next ⟨.touch 1, fun _ _ _ _ => ⟨demoCode, rfl, rfl⟩, .touch (t := 1) rfl⟩
  have h4 := h3.take (.find (t := 0) demoVerdict rfl rfl)
  have h5 := h4.take (.load (t := 0) 0 rfl rfl (by decide) rfl)
  have h6 := h5.take (.claim (t := 0) rfl rfl)
  have h7 := h6.take (.write (t := 0) rfl)
  have h8 := h7.take (.ok (t := 0) rfl)
  exact ⟨_, rfl, rfl, decision_final h8⟩

/-- The code is approved on node 0, and `Ok` is returned. Node 1 has applied none of it: a poll there
reads `Pending` and no marker, and writes `Pending` back. -/
theorem decision_lost : ∃ s : DeviceSys (Fin 2) (Fin 2),
    Reachable Init (LabelledWith (Step id) fun _ _ => True) s ∧ ¬s.Final := by
  have h0 : Reachable Init (LabelledWith (Step (id : Fin 2 → Fin 2)) fun _ _ => True) demoSys :=
    .start ⟨⟨demoCode, rfl, rfl⟩, rfl⟩
  have h1 := h0.take (.find (t := 0) demoVerdict rfl rfl)
  have h2 := h1.take (.load (t := 0) 0 rfl rfl (by decide) rfl)
  have h3 := h2.take (.claim (t := 0) rfl rfl)
  have h4 := h3.take (.write (t := 0) rfl)
  have h5 := h4.take (.ok (t := 0) rfl)
  have h6 := h5.take (.poll (t := 1) 0 rfl rfl (by decide) rfl)
  have h7 := h6.take (.undecided (t := 1) rfl rfl rfl)
  have h8 := h7.take (.touch (t := 1) rfl)
  exact ⟨_, h8, fun hfinal => (hfinal 0 _ rfl _ rfl).1 rfl⟩

end

end DeviceSys

end Hearth.Identity
