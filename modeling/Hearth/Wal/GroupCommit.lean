import Mathlib
import Hearth.Base.Run

/-!
# The looping-leader group commit

The queue, the commit watermark and the threads that use them, one step per
critical section of the group mutex or of the signal mutex. A thread is one
call of `append_applying` (or of `enqueue_entry` and then `await_entry_durable`);
the payload of a record is any type `P`. `leaders_ok`: at most one thread leads, and
`leader_active` says whether one does.
-/

namespace Hearth.Wal

open Base Function

/-! ## Shared state and its critical sections -/

/-- A single writer's entry waiting to be committed by the group leader. -/
structure GroupSlot (P : Type) where
  plaintext : P
  ticket : Nat
  deriving DecidableEq, Repr

/-- Shared group-commit queue and leader flag. -/
structure GroupState (P : Type) where
  pending : List (GroupSlot P)
  leaderActive : Bool
  nextTicket : Nat
  deriving DecidableEq, Repr

/-- Commit watermark broadcast to every waiting writer. -/
structure CommitSignal where
  completed : Nat
  failedFrom : Option (Nat × String)
  leaderVacant : Bool
  deriving DecidableEq, Repr

/-- Most batches one leader commits before it hands leadership over. -/
def maxLeaderBatches : Nat := 16

def fencedMsg : String := "WAL fenced after write fault — all subsequent writes rejected"

namespace GroupState

variable {P : Type} (gs : GroupState P)

/-- The slot the next enqueue of `plaintext` will push. -/
def nextSlot (plaintext : P) : GroupSlot P := { plaintext := plaintext, ticket := gs.nextTicket }

/-- `enqueue_slot` after its `apply` has succeeded: the new queue, and whether the
caller must lead. -/
def enqueueSlot (plaintext : P) : GroupState P × Bool :=
  ({ pending := gs.pending ++ [gs.nextSlot plaintext], leaderActive := true,
     nextTicket := gs.nextTicket + 1 }, !gs.leaderActive)

/-- What a leader finds when it takes the group mutex at the top of its loop. -/
inductive Drained (P : Type)
  | idle
  | handOver
  | batch (b : List (GroupSlot P))

/-- The drain section of `lead_group_commit`, after `committed` batches. -/
def drain (committed : Nat) : GroupState P × Drained P :=
  if gs.pending.isEmpty then ({ gs with leaderActive := false }, .idle)
  else if maxLeaderBatches ≤ committed then ({ gs with leaderActive := false }, .handOver)
  else ({ gs with pending := [] }, .batch gs.pending)

/-- The claim section of `await_ticket_or_lead`. -/
def claim : GroupState P × Bool :=
  if gs.leaderActive || gs.pending.isEmpty then (gs, false)
  else ({ gs with leaderActive := true }, true)

end GroupState

namespace CommitSignal

variable (sig : CommitSignal)

/-- `failed_from` after a batch that starts at `first` ended with `err`: only the first
failure ever is kept. -/
def noteFailure (first : Nat) : Option String → Option (Nat × String)
  | some msg => sig.failedFrom.or (some (first, msg))
  | none => sig.failedFrom

/-- The publish section at the end of `commit_batch`: the watermark moves to the batch's
last ticket. -/
def publish {P : Type} (sig : CommitSignal) (batch : List (GroupSlot P)) (err : Option String) :
    CommitSignal :=
  match batch.head?, batch.getLast? with
  | some first, some last =>
    { sig with
      failedFrom := sig.noteFailure first.ticket err
      completed := max sig.completed last.ticket }
  | _, _ => sig

/-- `announce_leader_vacancy`. -/
def announceLeaderVacancy : CommitSignal := { sig with leaderVacant := true }

/-- The verdict of `await_ticket_or_lead` once the watermark covers `ticket`. -/
def verdict (ticket : Nat) : Except String Unit :=
  match sig.failedFrom with
  | some (start, msg) => if start ≤ ticket then .error msg else .ok ()
  | none => .ok ()

end CommitSignal

/-! ## Threads and runs -/

/-- Where a thread is between two critical sections. A thread that has enqueued carries
its slot. -/
inductive Pc (P : Type)
  -- before the fence check
  | start
  -- past the fence check, about to enter `enqueue_slot`
  | unfenced
  -- at the top of the loop of `lead_group_commit`
  | leading (slot : GroupSlot P) (committed : Nat)
  -- inside `commit_batch`, before its I/O
  | committing (slot : GroupSlot P) (committed : Nat) (batch : List (GroupSlot P))
  -- inside `commit_batch`, I/O done, before the publish section
  | publishing (slot : GroupSlot P) (committed : Nat) (batch : List (GroupSlot P))
      (err : Option String)
  -- gave up leadership, about to run `announce_leader_vacancy`
  | steppedDown (slot : GroupSlot P)
  -- in the signal section of `await_ticket_or_lead`
  | awaiting (slot : GroupSlot P)
  -- consumed the vacancy flag, about to run the claim section
  | claiming (slot : GroupSlot P)
  -- returned; `none` when nothing was enqueued
  | returned (slot : Option (GroupSlot P)) (result : Except String Unit)

namespace Pc

variable {P : Type}

/-- The thread holds the leader role. -/
def leads : Pc P → Bool
  | leading .. | committing .. | publishing .. => true
  | _ => false

def slot? : Pc P → Option (GroupSlot P)
  | start | unfenced => none
  | leading x _ | committing x _ _ | publishing x _ _ _
  | steppedDown x | awaiting x | claiming x => some x
  | returned x _ => x

/-- The thread has stepped down or consumed the vacancy flag, and has not run its next step. -/
def handsOver : Pc P → Bool
  | steppedDown _ | claiming _ => true
  | _ => false

end Pc

/-- The queue, the signal, the fence and the threads. The last three fields are history:
the batches drained, those whose I/O has run (with the error, if any) and those published. -/
structure Sys (T P : Type) where
  group : GroupState P
  signal : CommitSignal
  fenced : Bool
  pc : T → Pc P
  drained : List (List (GroupSlot P))
  committed : List (List (GroupSlot P) × Option String)
  published : List (List (GroupSlot P) × Option String)

namespace Sys

variable {T P : Type} [DecidableEq T]

/-- A freshly opened WAL: empty queue, tickets from 1. -/
def init : Sys T P where
  group := { pending := [], leaderActive := false, nextTicket := 1 }
  signal := { completed := 0, failedFrom := none, leaderVacant := false }
  fenced := false
  pc := fun _ => .start
  drained := []
  committed := []
  published := []

variable (s : Sys T P)

section

variable (t : T)

/-- Move thread `t` to `c`. -/
def goto (c : Pc P) : Sys T P := { s with pc := update s.pc t c }

/-- `enqueue_slot` by `t`. -/
def enqueue (p : P) : Sys T P :=
  let x := s.group.nextSlot p
  { s with group := (s.group.enqueueSlot p).1 }.goto t
    (if (s.group.enqueueSlot p).2 then .leading x 0 else .awaiting x)

variable (x : GroupSlot P)

variable (c : Nat)

/-- One turn of the drain section by the leader `t`. -/
def drain : Sys T P :=
  match s.group.drain c with
  | (gs, .idle) => { s with group := gs }.goto t (.awaiting x)
  | (gs, .handOver) => { s with group := gs }.goto t (.steppedDown x)
  | (gs, .batch b) =>
    { s with group := gs, drained := s.drained ++ [b] }.goto t (.committing x c b)

/-- The I/O of `commit_batch` ends with `err`; an error engages the fence. -/
def commit (b : List (GroupSlot P)) (err : Option String) : Sys T P :=
  { s with
    fenced := s.fenced || err.isSome
    committed := s.committed ++ [(b, err)] }.goto t (.publishing x c b err)

/-- The publish section; the leader then loops. -/
def publish (b : List (GroupSlot P)) (err : Option String) : Sys T P :=
  { s with
    signal := s.signal.publish b err
    published := s.published ++ [(b, err)] }.goto t (.leading x (c + 1))

/-- `announce_leader_vacancy`, after which the former leader awaits its ticket. -/
def announce : Sys T P := { s with signal := s.signal.announceLeaderVacancy }.goto t (.awaiting x)

/-- The signal section of `await_ticket_or_lead`, once its wait loop has ended. -/
def observe : Sys T P :=
  if x.ticket ≤ s.signal.completed then s.goto t (.returned (some x) (s.signal.verdict x.ticket))
  else { s with signal := { s.signal with leaderVacant := false } }.goto t (.claiming x)

/-- The claim section of `await_ticket_or_lead`. -/
def claim : Sys T P :=
  { s with group := s.group.claim.1 }.goto t (if s.group.claim.2 then .leading x 0 else .awaiting x)

end

theorem drain_cases (s : Sys T P) (t : T) (x : GroupSlot P) (c : Nat) :
    (s.group.pending = [] ∧ s.drain t x c =
      { s with group := { s.group with leaderActive := false } }.goto t (.awaiting x)) ∨
    (s.drain t x c =
      { s with group := { s.group with leaderActive := false } }.goto t (.steppedDown x)) ∨
    (s.group.pending ≠ [] ∧ s.drain t x c = { s with
        group := { s.group with pending := [] }
        drained := s.drained ++ [s.group.pending] }.goto t (.committing x c s.group.pending)) := by
  unfold drain GroupState.drain
  by_cases hp : s.group.pending = []
  · exact .inl ⟨hp, by simp [hp]⟩
  · by_cases hm : maxLeaderBatches ≤ c
    · exact .inr (.inl (by simp [hp, hm]))
    · exact .inr (.inr ⟨hp, by simp [hp, hm]⟩)

theorem claim_cases (s : Sys T P) (t : T) (x : GroupSlot P) :
    ((s.group.leaderActive = true ∨ s.group.pending = []) ∧ s.claim t x = s.goto t (.awaiting x)) ∨
    (s.group.leaderActive = false ∧ s.claim t x =
      { s with group := { s.group with leaderActive := true } }.goto t (.leading x 0)) := by
  unfold claim GroupState.claim
  by_cases hc : s.group.leaderActive = true ∨ s.group.pending = []
  · exact .inl ⟨hc, by simp [hc]⟩
  · rw [not_or] at hc
    exact .inr ⟨by simpa using hc.1, by simp [hc.1, hc.2]⟩

/-- One critical section of one thread. -/
inductive Step : Sys T P → Sys T P → Prop
  | refuse {s t} : s.pc t = .start → s.fenced = true →
      Step s (s.goto t (.returned none (.error fencedMsg)))
  | passFence {s t} : s.pc t = .start → s.fenced = false → Step s (s.goto t .unfenced)
  | applyFailed {s t} (msg : String) : s.pc t = .unfenced →
      Step s (s.goto t (.returned none (.error msg)))
  | enqueue {s t} (p : P) : s.pc t = .unfenced → Step s (s.enqueue t p)
  | drain {s t x c} : s.pc t = .leading x c → Step s (s.drain t x c)
  | commit {s t x c b} (err : Option String) : s.pc t = .committing x c b → Step s
      (s.commit t x c b err)
  | publish {s t x c b err} : s.pc t = .publishing x c b err → Step s (s.publish t x c b err)
  | announce {s t x} : s.pc t = .steppedDown x → Step s (s.announce t x)
  | observe {s t x} : s.pc t = .awaiting x →
      (x.ticket ≤ s.signal.completed ∨ s.signal.leaderVacant = true) → Step s (s.observe t x)
  | claim {s t x} : s.pc t = .claiming x → Step s (s.claim t x)

/-! ## Who leads -/

section

variable (s : Sys T P) (t : T) (c : Pc P)

@[simp] theorem goto_group : (s.goto t c).group = s.group := rfl
@[simp] theorem goto_fenced : (s.goto t c).fenced = s.fenced := rfl
@[simp] theorem goto_drained : (s.goto t c).drained = s.drained := rfl
@[simp] theorem goto_committed : (s.goto t c).committed = s.committed := rfl
@[simp] theorem goto_published : (s.goto t c).published = s.published := rfl
@[simp] theorem goto_pc : (s.goto t c).pc = update s.pc t c := rfl

end

/-- At most one thread leads, and the flag says whether one does. -/
structure LeadersOk (s : Sys T P) : Prop where
  unique : ∀ t u, (s.pc t).leads = true → (s.pc u).leads = true → t = u
  active : s.group.leaderActive = true ↔ ∃ t, (s.pc t).leads = true

omit [DecidableEq T] in
theorem LeadersOk.not_active {s : Sys T P} (h : LeadersOk s) (hf : s.group.leaderActive = false)
    (t : T) : (s.pc t).leads = false := by
  cases hl : (s.pc t).leads with
  | false => rfl
  | true =>
    have := h.active.2 ⟨t, hl⟩
    rw [hf] at this
    cases this

/-- A step that moves one thread keeps `LeadersOk` when the thread keeps its role, or takes
it while the flag is down, or gives it up and lowers the flag. -/
theorem LeadersOk.move {s s' : Sys T P} {t : T} {c : Pc P} (h : LeadersOk s)
    (hpc : s'.pc = update s.pc t c)
    (hrole : (c.leads = (s.pc t).leads ∧ s'.group.leaderActive = s.group.leaderActive) ∨
      (c.leads = true ∧ s.group.leaderActive = false ∧ s'.group.leaderActive = true) ∨
      (c.leads = false ∧ (s.pc t).leads = true ∧ s'.group.leaderActive = false)) : LeadersOk s' := by
  rcases hrole with ⟨hc, ha⟩ | ⟨hc, hold, hnew⟩ | ⟨hc, hlead, hnew⟩
  · have hsame : ∀ u, (s'.pc u).leads = (s.pc u).leads := forall_move hpc hc fun _ _ => rfl
    refine ⟨fun u v hu hv => h.unique u v (hsame u ▸ hu) (hsame v ▸ hv), ?_⟩
    rw [ha, h.active]
    simp only [hsame]
  · have honly : ∀ u, (s'.pc u).leads = true → u = t :=
      forall_move hpc (fun _ => rfl) fun u _ hu => nomatch (h.not_active hold u).symm.trans hu
    refine ⟨fun u v hu hv => (honly u hu).trans (honly v hv).symm, ?_⟩
    rw [hnew]
    exact ⟨fun _ => ⟨t, by rw [hpc, update_self, hc]⟩, fun _ => rfl⟩
  · have hnone : ∀ u, (s'.pc u).leads = false := by
      refine forall_move hpc hc fun u hu => ?_
      cases hl : (s.pc u).leads with
      | false => rfl
      | true => exact absurd (h.unique u t hl hlead) hu
    refine ⟨fun u v hu _ => ?_, ?_⟩
    · rw [hnone u] at hu
      cases hu
    · rw [hnew]
      simp [hnone]

omit [DecidableEq T] in
theorem leadersOk_init : LeadersOk (init : Sys T P) := by
  refine ⟨fun t u ht _ => ?_, ?_⟩
  · cases ht
  · simp [init, Pc.leads]

theorem leadersOk_step {s s' : Sys T P} (h : LeadersOk s) (hst : Step s s') : LeadersOk s' := by
  cases hst with
  | refuse hpc _ | passFence hpc _ | applyFailed _ hpc | commit _ hpc | publish hpc | announce hpc =>
    exact h.move rfl (.inl ⟨by rw [hpc]; rfl, rfl⟩)
  | @enqueue t p hpc =>
    cases ha : s.group.leaderActive with
    | false => exact h.move rfl (.inr (.inl ⟨by simp [GroupState.enqueueSlot, ha, Pc.leads], ha, rfl⟩))
    | true =>
      refine h.move rfl (.inl ⟨?_, by rw [ha]; rfl⟩)
      rw [hpc]
      simp [GroupState.enqueueSlot, ha, Pc.leads]
  | @drain t x c hpc =>
    have hl : (s.pc t).leads = true := by rw [hpc]; rfl
    rcases s.drain_cases t x c with ⟨_, hd⟩ | hd | ⟨_, hd⟩ <;> rw [hd]
    · exact h.move rfl (.inr (.inr ⟨rfl, hl, rfl⟩))
    · exact h.move rfl (.inr (.inr ⟨rfl, hl, rfl⟩))
    · exact h.move rfl (.inl ⟨by rw [hl]; rfl, rfl⟩)
  | observe hpc _ =>
    unfold observe
    split_ifs <;> exact h.move rfl (.inl ⟨by rw [hpc]; rfl, rfl⟩)
  | @claim t x hpc =>
    rcases s.claim_cases t x with ⟨_, hd⟩ | ⟨ha, hd⟩ <;> rw [hd]
    · exact h.move rfl (.inl ⟨by rw [hpc]; rfl, rfl⟩)
    · exact h.move rfl (.inr (.inl ⟨rfl, ha, rfl⟩))

theorem leaders_ok {s : Sys T P} (h : Reachable (· = init) Step s) : LeadersOk s :=
  h.invariant (fun _ h0 => h0 ▸ leadersOk_init) fun _ _ _ hi hst => leadersOk_step hi hst

end Sys

end Hearth.Wal
