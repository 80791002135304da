import Hearth.Base.Run
import Mathlib.Order.Nat

/-!
# Owed bumps of the control epoch

A control is a row in the replicated log and then an increment of the control epoch.
The increment may fail on its own: the writer then owes a bump, and the bump thread
makes it up (`pay_owed_bumps`). A node that becomes the leader makes one bump on its
own. A bump that is refused as `NotLeader` is dropped, for the next leader to make.

`proposeWithResponse` routes a write: it is offered to the node's own Raft, then
forwarded to the leader. It also ends as `NotLeader` when the known leader cannot be
reached and no other is found in time, with that leader still in place
(`owed_bump_dropped`). `controls_announced`: otherwise every control row is announced.
-/

namespace Hearth.Identity

open Base List Function

/-! ## Routing a write -/

/-- `propose_local`. -/
inductive LocalProposal
  | committed
  | notLeader (hint : Option Nat)
  | failed

inductive ForwardAttempt
  /-- Committed by the leader; `await_applied` on this node may time out. -/
  | committed (appliedHere : Bool)
  /-- Not sent, or refused by a node that is not the leader and may name another. -/
  | retryable (named : Option Nat)
  | failed

/-- What a round of the routing loop meets. -/
structure RoutingRound where
  proposed : LocalProposal
  /-- The leader that `await_leader` learns of before the deadline. -/
  awaited : Option Nat
  forwarded : ForwardAttempt

inductive ProposeOutcome
  | committed
  | notLeader
  | failed
  deriving DecidableEq

/-- `MAX_ROUTING_ROUNDS`. -/
def maxRoutingRounds : Nat := 4

/-- The loop of `propose_with_response`; `rounds` is indexed by the rounds that are left. -/
def routeWrite (self : Nat) (forwarding : Bool) (rounds : Nat → RoutingRound) :
    (left : Nat) → (forwards : Nat) → (refusedBy named : Option Nat) → ProposeOutcome
  | 0, _, _, _ => .notLeader
  | left + 1, forwards, refusedBy, named =>
    match (rounds left).proposed with
    | .committed => .committed
    | .failed => .failed
    | .notLeader hint =>
      if forwarding then
        let other := fun leader => decide (some leader ≠ refusedBy)
        match ((named.or hint).filter other).or ((rounds left).awaited.filter other) with
        | none => .notLeader
        | some leader =>
          if leader = self then routeWrite self forwarding rounds left forwards refusedBy none
          else
            match (rounds left).forwarded with
            | .committed appliedHere => if appliedHere then .committed else .failed
            | .retryable next =>
              if forwards + 1 < 2 then routeWrite self forwarding rounds left (forwards + 1)
                (some leader) next
              else .notLeader
            | .failed => .failed
      else .notLeader

def proposeWithResponse (self : Nat) (forwarding : Bool) (rounds : Nat → RoutingRound) :
    ProposeOutcome :=
  routeWrite self forwarding rounds maxRoutingRounds 0 none none

/-! ## The cluster -/

/-- The entries of the log that matter here. -/
inductive LogEntry
  | row
  | increment
  deriving DecidableEq

/-- A call of `publish_control`, at the place of its row in the log. -/
inductive PublishCall
  | idle
  | written (node place : Nat)
  /-- The bump has failed and is not owed yet. -/
  | failed (node place : Nat)

/-- A run of `pay_owed_bumps`: what it found owed, and whether it took the election bump. -/
inductive PayCall
  | idle
  | taken (owed : Nat) (election : Bool)
  | made (owed : Nat)

structure BumpNode where
  /-- `owed_bumps` is its length; the places are those of the rows it is owed for. -/
  owed : List Nat
  electionBumpDue : Bool
  pay : PayCall
  /-- The entries of the log that the node has applied. -/
  seen : Nat
  /-- The highest epoch handed to `signal`. -/
  signalled : Nat

structure BumpCluster where
  log : List LogEntry
  calls : Nat → PublishCall
  nodes : Nat → BumpNode
  /-- Increments whose outcome is unknown to their caller and that may still commit. -/
  unknown : Nat

/-- The control epoch after the first `i` entries. -/
def epochAt (log : List LogEntry) (i : Nat) : Nat := (log.take i).count .increment

namespace BumpCluster

variable (s : BumpCluster)

def append (e : LogEntry) : BumpCluster := { s with log := s.log ++ [e] }

def setCall (id : Nat) (call : PublishCall) : BumpCluster :=
  { s with calls := update s.calls id call }

def setNode (n : Nat) (node : BumpNode) : BumpCluster := { s with nodes := update s.nodes n node }

/-- An increment that failed otherwise than as `NotLeader` may still commit. -/
def noteOutcome (outcome : ProposeOutcome) : BumpCluster :=
  if outcome = .failed then { s with unknown := s.unknown + 1 } else s

end BumpCluster

namespace BumpNode

variable (x : BumpNode)

/-- Loads what is owed and takes the election bump. -/
def beginPay : BumpNode :=
  { x with electionBumpDue := false, pay := .taken x.owed.length x.electionBumpDue }

/-- `settle_owed`, and the end of the call. -/
def settle (owed : Nat) : BumpNode := { x with owed := x.owed.drop owed, pay := .idle }

/-- `ElectionBumpGuard` puts a taken election bump back. -/
def restore (election : Bool) : BumpNode :=
  { x with electionBumpDue := x.electionBumpDue || election, pay := .idle }

/-- The next entry of the log; `on_replicated_put` of the epoch row signals it. -/
def applyEntry (log : List LogEntry) : BumpNode :=
  { x with
    seen := x.seen + 1
    signalled := if log[x.seen]? = some .increment
      then max x.signalled (epochAt log (x.seen + 1)) else x.signalled }

/-- The bump of an election is due, or taken and not made yet. -/
def ElectionPending : Prop := x.electionBumpDue = true ∨ ∃ owed, x.pay = .taken owed true

end BumpNode

inductive BumpEvent
  | write (id node : Nat)
  | bump (id : Nat)
  | bumpFails (id : Nat)
  | owe (id : Nat)
  | elected (n : Nat)
  | payBegins (n : Nat)
  | payMakes (n : Nat)
  | paySettles (n : Nat)
  | payRefused (n : Nat)
  | payFails (n : Nat)
  | lateCommit
  | applyEntry (n : Nat)

namespace BumpCluster

inductive Step (forwarding : Bool) : BumpEvent → BumpCluster → BumpCluster → Prop
  | write {s id n} : s.calls id = .idle →
      Step forwarding (.write id n) s ((s.append .row).setCall id (.written n s.log.length))
  | bump {s id n place} (rounds : Nat → RoutingRound) : s.calls id = .written n place →
      proposeWithResponse n forwarding rounds = .committed →
      Step forwarding (.bump id) s ((s.append .increment).setCall id .idle)
  | bumpFails {s id n place} (rounds : Nat → RoutingRound) : s.calls id = .written n place →
      proposeWithResponse n forwarding rounds ≠ .committed →
      Step forwarding (.bumpFails id) s
        ((s.noteOutcome (proposeWithResponse n forwarding rounds)).setCall id (.failed n place))
  | owe {s id n place} : s.calls id = .failed n place → Step forwarding (.owe id) s
        ((s.setCall id .idle).setNode n { s.nodes n with owed := (s.nodes n).owed ++ [place] })
  | elected {s n} :
      Step forwarding (.elected n) s (s.setNode n { s.nodes n with electionBumpDue := true })
  | payBegins {s n} : (s.nodes n).pay = .idle →
      (s.nodes n).owed ≠ [] ∨ (s.nodes n).electionBumpDue = true →
      Step forwarding (.payBegins n) s (s.setNode n (s.nodes n).beginPay)
  | payMakes {s n owed election} (rounds : Nat → RoutingRound) :
      (s.nodes n).pay = .taken owed election →
      proposeWithResponse n forwarding rounds = .committed →
      Step forwarding (.payMakes n) s
      ((s.append .increment).setNode n { s.nodes n with pay := .made owed })
  | paySettles {s n owed} : (s.nodes n).pay = .made owed →
      Step forwarding (.paySettles n) s (s.setNode n ((s.nodes n).settle owed))
  | payRefused {s n owed election} (rounds : Nat → RoutingRound) :
      (s.nodes n).pay = .taken owed election →
      proposeWithResponse n forwarding rounds = .notLeader →
      Step forwarding (.payRefused n) s (s.setNode n ((s.nodes n).settle owed))
  | payFails {s n owed election} (rounds : Nat → RoutingRound) :
      (s.nodes n).pay = .taken owed election → proposeWithResponse n forwarding rounds = .failed →
      Step forwarding (.payFails n) s
      ((s.noteOutcome .failed).setNode n ((s.nodes n).restore election))
  | lateCommit {s} : 0 < s.unknown →
      Step forwarding .lateCommit s { s.append .increment with unknown := s.unknown - 1 }
  | applyEntry {s n} : (s.nodes n).seen < s.log.length →
      Step forwarding (.applyEntry n) s (s.setNode n ((s.nodes n).applyEntry s.log))

def start : BumpCluster where
  log := []
  calls _ := .idle
  nodes _ := { owed := [], electionBumpDue := false, pay := .idle, seen := 0, signalled := 0 }
  unknown := 0

variable (s : BumpCluster)

/-- No bump is owed, due or in flight. -/
def Quiet : Prop :=
  (∀ id, s.calls id = .idle) ∧
    ∀ n, (s.nodes n).owed = [] ∧ (s.nodes n).electionBumpDue = false ∧ (s.nodes n).pay = .idle

def Followed (place : Nat) : Prop := ∃ later > place, s.log[later]? = some .increment

/-- Every row is followed by an increment, and a node that has applied the log was told of it. -/
def Announced : Prop :=
  ∀ place : Nat, s.log[place]? = some .row →
    s.Followed place ∧ ∀ n, (s.nodes n).seen = s.log.length →
      epochAt s.log place < (s.nodes n).signalled

/-- A bump is refused as `NotLeader` while another node has an election bump to make. -/
def RefusedForElection : BumpEvent → BumpCluster → Prop
  | .payRefused n, s => ∃ m, m ≠ n ∧ (s.nodes m).ElectionPending
  | _, _ => True

/-! ## Runs -/

end BumpCluster

/-- What the node owes apart from what the increment of a running call has made up. -/
def BumpNode.owing (x : BumpNode) : List Nat :=
  match x.pay with
  | .made owed => x.owed.drop owed
  | .idle | .taken .. => x.owed

open BumpNode (owing)

/-- A running call found no more owed than is owed. -/
def BumpNode.Sound (x : BumpNode) : Prop :=
  match x.pay with
  | .made owed | .taken owed _ => owed ≤ x.owed.length
  | .idle => True

namespace BumpCluster

/-- A bump for the row at `place` is still to come. -/
def Carried (s : BumpCluster) (place : Nat) : Prop :=
  (∃ id n, s.calls id = .written n place ∨ s.calls id = .failed n place) ∨
    (∃ n, place ∈ (s.nodes n).owing) ∨ ∃ n, (s.nodes n).ElectionPending

structure Inv (s : BumpCluster) : Prop where
  sound : ∀ n, (s.nodes n).Sound
  rows : ∀ place : Nat, s.log[place]? = some .row → s.Followed place ∨ s.Carried place
  seen : ∀ n, (s.nodes n).seen ≤ s.log.length
  told : ∀ n, (s.nodes n).signalled = epochAt s.log (s.nodes n).seen

section

variable {s : BumpCluster} {id n place : Nat} {e : LogEntry} {log : List LogEntry} {x : BumpNode}

theorem epochAt_mono (log : List LogEntry) {i j} (h : i ≤ j) : epochAt log i ≤ epochAt log j :=
  (take_sublist_take_left h).count_le _

theorem epochAt_succ {i} (h : log[i]? = some e) :
    epochAt log (i + 1) = epochAt log i + if e = .increment then 1 else 0 := by
  obtain ⟨hi, rfl⟩ := List.getElem?_eq_some_iff.1 h
  rw [epochAt, take_succ_eq_append_getElem hi, count_append, count_singleton]
  simp [epochAt]

theorem Followed.append (h : s.Followed place) : (s.append e).Followed place := by
  obtain ⟨later, hlt, hlater⟩ := h
  obtain ⟨hlen, -⟩ := List.getElem?_eq_some_iff.1 hlater
  exact ⟨later, hlt, (getElem?_append_left hlen).trans hlater⟩

theorem Carried.setCall {call} (h : s.Carried place)
    (hcall : ∀ n, s.calls id = .written n place ∨ s.calls id = .failed n place →
      call = .written n place ∨ call = .failed n place) : (s.setCall id call).Carried place := by
  refine h.imp_left fun ⟨id', n, hid'⟩ => ⟨id', n, ?_⟩
  exact forall_move (show (s.setCall id call).calls = update s.calls id call from rfl) (hcall n)
    (fun _ _ h => h)
    id' hid'

theorem Carried.setNode (h : s.Carried place) (howing : ∀ p ∈ (s.nodes n).owing, p ∈ x.owing)
    (helection : (s.nodes n).ElectionPending → x.ElectionPending) :
    (s.setNode n x).Carried place := by
  have hnodes : (s.setNode n x).nodes = update s.nodes n x := rfl
  exact h.imp_right (.imp (exists_move (P := fun y => place ∈ y.owing) hnodes (howing _))
    (exists_move hnodes helection))

theorem followed_append (h : (s.append .increment).log[place]? = some .row) :
    (s.append .increment).Followed place := by
  have hlast : (s.append .increment).log[s.log.length]? = some .increment := getElem?_concat_length
  obtain ⟨hlt, -⟩ := List.getElem?_eq_some_iff.1 h
  rcases lt_or_eq_of_le (Nat.le_of_lt_succ (hlt.trans_eq length_append)) with hlt | rfl
  · exact ⟨s.log.length, hlt, hlast⟩
  · exact nomatch hlast.symm.trans h

theorem length_append (s : BumpCluster) (e : LogEntry) :
    (s.append e).log.length = s.log.length + 1 :=
  List.length_append

theorem Inv.seen_append (I : s.Inv) (n : Nat) : (s.nodes n).seen ≤ (s.append e).log.length := by
  rw [length_append]
  exact (I.seen n).trans (Nat.le_succ _)

theorem Inv.told_append (I : s.Inv) (n : Nat) :
    (s.nodes n).signalled = epochAt (s.append e).log (s.nodes n).seen := by
  rw [I.told]
  exact congrArg (count _) (take_append_of_le_length (I.seen n)).symm

variable {s' : BumpCluster} {outcome : ProposeOutcome}

theorem Inv.setNode (I : s.Inv) (hlog : s'.log = s.log)
    (hnodes : s'.nodes = update s.nodes n x) (hsound : x.Sound) (hseen : x.seen ≤ s.log.length)
    (htold : x.signalled = epochAt s.log x.seen)
    (hcarried : ∀ place : Nat, s.log[place]? = some .row → s.Carried place → s'.Followed place ∨
      s'.Carried place) :
    s'.Inv := by
  refine ⟨?_, fun place hrow => ?_, ?_, ?_⟩
  · exact forall_move hnodes hsound fun m _ => I.sound m
  · rw [hlog] at hrow
    refine (I.rows _ hrow).elim (fun h => .inl ?_) (hcarried _ hrow)
    rw [Followed, hlog]
    exact h
  · rw [hlog]
    exact forall_move hnodes hseen fun m _ => I.seen m
  · rw [hlog]
    exact forall_move hnodes htold fun m _ => I.told m

theorem Inv.increment (I : s.Inv) : (s.append .increment).Inv :=
  ⟨I.sound, fun _ hrow => .inl (followed_append hrow), I.seen_append, I.told_append⟩

theorem noteOutcome_calls : (s.noteOutcome outcome).calls = s.calls := by
  unfold noteOutcome
  split <;> rfl

theorem Inv.noteOutcome (I : s.Inv) : (s.noteOutcome outcome).Inv := by
  unfold BumpCluster.noteOutcome
  split
  · exact { I with }
  · exact I

/-- A new debt is behind those that a running call has found. -/
theorem mem_owing_concat (h : x.Sound) :
    place ∈ ({ x with owed := x.owed ++ [place] } : BumpNode).owing := by
  unfold owing BumpNode.Sound at *
  cases hpay : x.pay with
  | idle | taken => exact mem_append_right _ (mem_singleton_self _)
  | made owed =>
    rw [hpay] at h
    change place ∈ (x.owed ++ [place]).drop owed
    rw [drop_append_of_le_length h]
    exact mem_append_right _ (mem_singleton_self _)

theorem owing_concat {p} (h : p ∈ x.owing) :
    p ∈ ({ x with owed := x.owed ++ [place] } : BumpNode).owing := by
  unfold owing at *
  cases hpay : x.pay with
  | idle | taken =>
    rw [hpay] at h
    exact mem_append_left _ h
  | made owed =>
    rw [hpay] at h
    change p ∈ (x.owed ++ [place]).drop owed
    rw [drop_append]
    exact mem_append_left _ h

theorem sound_concat (h : x.Sound) : ({ x with owed := x.owed ++ [place] } : BumpNode).Sound := by
  unfold BumpNode.Sound at *
  cases hpay : x.pay with
  | idle => trivial
  | made owed | taken owed =>
    rw [hpay] at h
    rw [List.length_append]
    exact h.trans (Nat.le_add_right ..)

theorem inv_owe (I : s.Inv) (hid : s.calls id = .failed n place) :
    ((s.setCall id .idle).setNode n
      { s.nodes n with owed := (s.nodes n).owed ++ [place] }).Inv := by
  refine I.setNode rfl rfl (sound_concat (I.sound n)) (I.seen n) (I.told n) fun place' _ h =>
    .inr ?_
  by_cases hplace : place' = place
  · subst hplace
    refine .inr (.inl ⟨n, ?_⟩)
    rw [show ((s.setCall id .idle).setNode n _).nodes n = _ from update_self ..]
    exact mem_owing_concat (I.sound n)
  · refine .setNode (h.setCall fun m hm => ?_) (fun p => owing_concat) fun h => h
    rw [hid] at hm
    rcases hm with hm | hm <;> cases hm
    exact absurd rfl hplace

theorem told_applyEntry (htold : x.signalled = epochAt log x.seen)
    (hseen : x.seen < log.length) : (x.applyEntry log).signalled = epochAt log (x.seen + 1) := by
  have hentry : log[x.seen]? = some (log.get ⟨x.seen, hseen⟩) := getElem?_eq_getElem hseen
  have hnext := epochAt_succ hentry
  dsimp only [BumpNode.applyEntry]
  split
  case isTrue h =>
    rw [htold]
    exact max_eq_right (epochAt_mono log (Nat.le_succ _))
  case isFalse h =>
    rw [htold, hnext, if_neg fun heq : log.get ⟨x.seen, hseen⟩ = .increment =>
      h (hentry.trans (congrArg some heq))]
    rfl

theorem inv_step {forwarding ev} (I : s.Inv) (hguard : RefusedForElection ev s)
    (h : Step forwarding ev s s') : s'.Inv := by
  cases h with
  | @write _ id n hid =>
    refine ⟨I.sound, fun place hrow => ?_, I.seen_append, I.told_append⟩
    obtain ⟨hlt, -⟩ := List.getElem?_eq_some_iff.1 hrow
    rcases lt_or_eq_of_le (Nat.le_of_lt_succ (hlt.trans_eq (length_append s .row))) with hlt | rfl
    · refine (I.rows _ ((getElem?_append_left hlt).symm.trans hrow)).imp .append fun h => ?_
      refine .setCall h fun m hm => ?_
      rw [show (s.append .row).calls id = .idle from hid] at hm
      rcases hm with hm | hm <;> cases hm
    · exact .inr (.inl ⟨id, n, .inl (update_self ..)⟩)
  | bump rounds hid _ =>
      exact ⟨I.sound, fun _ hrow => .inl (followed_append hrow), I.seen_append, I.told_append⟩
  | @bumpFails _ id n place rounds hid _ =>
    have J : (s.noteOutcome (proposeWithResponse n forwarding rounds)).Inv := I.noteOutcome
    refine ⟨J.sound, fun place' hrow => (J.rows _ hrow).imp_right fun h => h.setCall fun m hm => ?_,
      J.seen, J.told⟩
    rw [noteOutcome_calls, hid] at hm
    rcases hm with hm | hm <;> cases hm
    exact .inr rfl
  | owe hid => exact inv_owe I hid
  | @elected _ n =>
    exact I.setNode rfl rfl (I.sound n) (I.seen n) (I.told n) fun _ _ h =>
      .inr (h.setNode (fun _ hp => hp) fun _ => .inl rfl)
  | @payBegins _ n hpay _ =>
    refine I.setNode rfl rfl (le_rfl) (I.seen n) (I.told n) fun place _ h => .inr ?_
    refine h.setNode (fun p hp => ?_) fun hel => ?_
    · rw [owing, hpay] at hp
      exact hp
    · rcases hel with hdue | ⟨owed, htaken⟩
      · exact .inr ⟨_, by rw [BumpNode.beginPay, hdue]⟩
      · exact nomatch hpay.symm.trans htaken
  | @payMakes _ n owed election rounds hpay _ =>
    refine I.increment.setNode rfl rfl ?_ (I.seen_append n) (I.told_append n) fun place hrow _ =>
      .inl (followed_append hrow)
    have hsound := I.sound n
    rw [BumpNode.Sound, hpay] at hsound
    exact hsound
  | @paySettles _ n owed hpay =>
    refine I.setNode rfl rfl trivial (I.seen n) (I.told n) fun place _ h =>
      .inr (h.setNode (fun p hp => ?_) fun hel => ?_)
    · rw [owing, hpay] at hp
      exact hp
    · rcases hel with hdue | ⟨owed', htaken⟩
      · exact .inl hdue
      · exact nomatch hpay.symm.trans htaken
  | @payRefused _ n owed election rounds hpay _ =>
    obtain ⟨m, hne, hel⟩ := hguard
    refine I.setNode rfl rfl trivial (I.seen n) (I.told n) fun place _ _ =>
      .inr (.inr (.inr ⟨m, ?_⟩))
    rw [show (s.setNode n _).nodes m = _ from update_of_ne hne ..]
    exact hel
  | @payFails _ n owed election rounds hpay _ =>
    have J : (s.noteOutcome .failed).Inv := I.noteOutcome
    refine J.setNode rfl rfl trivial (I.seen n) (I.told n) fun place _ h =>
      .inr (h.setNode (fun p hp => ?_) fun hel => ?_)
    · rw [show (s.noteOutcome .failed).nodes = s.nodes from rfl, owing, hpay] at hp
      exact hp
    · rcases hel with hdue | ⟨owed', htaken⟩
      · exact .inl (Bool.or_eq_true_iff.2 (.inl hdue))
      · cases hpay.symm.trans htaken
        exact .inl (Bool.or_true _)
  | lateCommit _ => exact { I.increment with }
  | @applyEntry _ n hseen =>
    exact I.setNode rfl rfl (I.sound n) hseen (told_applyEntry (I.told n) hseen)
      fun _ _ h => .inr (h.setNode (fun _ hp => hp) fun h => h)

theorem inv_start : start.Inv where
  sound _ := trivial
  rows _ hrow := nomatch hrow
  seen _ := le_rfl
  told _ := rfl

theorem Quiet.not_carried (hquiet : s.Quiet) : ¬s.Carried place := by
  rintro (⟨id, n, hid⟩ | ⟨n, hn⟩ | ⟨n, hn⟩)
  · rw [hquiet.1 id] at hid
    rcases hid with hid | hid <;> cases hid
  · obtain ⟨howed, -, hpay⟩ := hquiet.2 n
    rw [owing, hpay, howed] at hn
    cases hn
  · obtain ⟨-, hdue, hpay⟩ := hquiet.2 n
    rcases hn with hn | ⟨owed, hn⟩
    · exact nomatch hdue.symm.trans hn
    · exact nomatch hpay.symm.trans hn

/-- A node that has applied the log knows an epoch after that of the row. -/
theorem Inv.told_of_followed (I : s.Inv) (h : s.Followed place)
    (hseen : (s.nodes n).seen = s.log.length) :
    epochAt s.log place < (s.nodes n).signalled := by
  obtain ⟨later, hlt, hlater⟩ := h
  obtain ⟨hlen, -⟩ := List.getElem?_eq_some_iff.1 hlater
  calc epochAt s.log place ≤ epochAt s.log later := epochAt_mono _ hlt.le
    _ < epochAt s.log (later + 1) := by rw [epochAt_succ hlater]; exact Nat.lt_succ_self _
    _ ≤ epochAt s.log s.log.length := epochAt_mono _ hlen
    _ = (s.nodes n).signalled := by rw [I.told n, hseen]

end

/-- If a bump is refused as `NotLeader` only while another node has an election bump to make, then
every control row is announced whenever no bump is owed, due or in flight. -/
theorem controls_announced {forwarding : Bool} {s : BumpCluster}
    (h : Reachable (· = start) (LabelledWith (Step forwarding) RefusedForElection) s)
    (hquiet : s.Quiet) :
    s.Announced := by
  have I : s.Inv := h.preserves (· ▸ inv_start) inv_step
  intro place hrow
  have hfoll : s.Followed place := (I.rows _ hrow).resolve_right hquiet.not_carried
  exact ⟨hfoll, fun n => I.told_of_followed hfoll⟩

/-- Node 1 leads and cannot be reached: the forward is not sent, and no other leader is found. -/
def leaderUnreachable : Nat → RoutingRound := fun _ => ⟨.notLeader (some 1), none, .retryable none⟩

/-- The node leads. -/
def leading : Nat → RoutingRound := fun _ => ⟨.committed, none, .failed⟩

/-- The bump that node 2 drops is made by node 3, which was elected before. -/
theorem controls_announced_election : ∃ s : BumpCluster, s.log = [.row, .increment] ∧ s.Quiet ∧
    s.Announced := by
  have h0 : Reachable (· = start) (LabelledWith (Step true) RefusedForElection) start := .start rfl
  have h1 := h0.next ⟨.write 0 2, trivial, .write rfl⟩
  have h2 := h1.next ⟨.bumpFails 0, trivial, .bumpFails leaderUnreachable rfl nofun⟩
  have h3 := h2.next ⟨.owe 0, trivial, .owe rfl⟩
  have h4 := h3.next ⟨.payBegins 2, trivial, .payBegins rfl (.inl nofun)⟩
  have h5 := h4.next ⟨.elected 3, trivial, .elected⟩
  have h6 := h5.next ⟨.payRefused 2, ⟨3, nofun, .inl rfl⟩, .payRefused leaderUnreachable rfl rfl⟩
  have h7 := h6.next ⟨.payBegins 3, trivial, .payBegins rfl (.inr rfl)⟩
  have h8 := h7.next ⟨.payMakes 3, trivial, .payMakes leading rfl rfl⟩
  have h9 := h8.next ⟨.paySettles 3, trivial, .paySettles rfl⟩
  obtain ⟨s, hs, hlog, hquiet⟩ : ∃ s : BumpCluster,
      Reachable (· = start) (LabelledWith (Step true) RefusedForElection) s ∧
        s.log = [.row, .increment] ∧ s.Quiet := by
    refine ⟨_, h9, rfl, fun id => ?_, fun n => ?_⟩
    · cases id <;> rfl
    · match n with
      | 0 | 1 | 2 | 3 | n + 4 => exact ⟨rfl, rfl, rfl⟩
  exact ⟨s, hlog, hquiet, controls_announced hs hquiet⟩

/-- Node 2 writes a row while node 1 leads, and then cannot reach it. The bump is owed, refused as
`NotLeader` once more and dropped; node 1 still leads, and no increment follows the row. -/
theorem owed_bump_dropped : ∃ s : BumpCluster,
    Reachable (· = start) (LabelledWith (Step true) fun _ _ => True) s ∧ s.log = [.row] ∧ s.Quiet ∧
    ¬s.Announced := by
  have h0 : Reachable (· = start) (LabelledWith (Step true) fun _ _ => True) start := .start rfl
  have h1 := h0.next ⟨.write 0 2, trivial, .write rfl⟩
  have h2 := h1.next ⟨.bumpFails 0, trivial, .bumpFails leaderUnreachable rfl nofun⟩
  have h3 := h2.next ⟨.owe 0, trivial, .owe rfl⟩
  have h4 := h3.next ⟨.payBegins 2, trivial, .payBegins rfl (.inl nofun)⟩
  have h5 := h4.next ⟨.payRefused 2, trivial, .payRefused leaderUnreachable rfl rfl⟩
  obtain ⟨s, hs, hlog, hquiet⟩ : ∃ s : BumpCluster,
      Reachable (· = start) (LabelledWith (Step true) fun _ _ => True) s ∧ s.log = [.row] ∧
        s.Quiet := by
    refine ⟨_, h5, rfl, fun id => ?_, fun n => ?_⟩
    · cases id <;> rfl
    · match n with
      | 0 | 1 | 2 | n + 3 => exact ⟨rfl, rfl, rfl⟩
  refine ⟨s, hs, hlog, hquiet, fun hann => ?_⟩
  obtain ⟨⟨later, hlt, hlater⟩, -⟩ := hann 0 (by rw [hlog]; rfl)
  rw [hlog] at hlater
  obtain ⟨hlen, -⟩ := List.getElem?_eq_some_iff.1 hlater
  exact absurd hlt (not_lt.2 (Nat.le_of_lt_succ hlen))

end BumpCluster

end Hearth.Identity
