import Hearth.Wal.GroupCommit

/-!
# Safety of the group commit

Three more invariants of `Sys.Step`, and what they give together (`group_commit_safe`).

1. `tickets_ok`: tickets are issued in queue order and drained from the front.
2. `watermark_ok`: `completed` and `failed_from` describe the published batches.
3. `vacancy_ok`: a queued ticket always has someone who will commit it.
-/

namespace Hearth.Wal.Sys

open Base List Function CommitSignal Prod GroupState

variable {T P : Type} {c : Pc P} {t : T} {s s' : Sys T P} {b : List (GroupSlot P)} {x : GroupSlot P}
  {err : Option String}

/-! ## Tickets -/

/-- Every slot ever enqueued, in ticket order. -/
def issued (s : Sys T P) : List (GroupSlot P) := s.drained.flatten ++ s.group.pending

/-- Tickets are `1, 2, …` in queue order, batches are not empty, and a thread's slot is
one of those issued. -/
structure TicketsOk (s : Sys T P) : Prop where
  tickets : s.issued.map (·.ticket) = range' 1 s.issued.length
  next : s.group.nextTicket = s.issued.length + 1
  nonempty : ∀ b ∈ s.drained, b ≠ []
  slots : ∀ t x, (s.pc t).slot? = some x → x ∈ s.issued

theorem ticketsOk_init : TicketsOk (init : Sys T P) where
  tickets := rfl
  next := rfl
  nonempty := by simp [init]
  slots := by simp [init, Pc.slot?]

/-- The batch drained after `pre` holds the tickets right above those of `pre`. -/
theorem TicketsOk.batch (h : TicketsOk s) {pre post} (hd : s.drained = pre ++ b :: post) :
    b.map (·.ticket) = range' (pre.flatten.length + 1) b.length := by
  have hi : s.issued = pre.flatten ++ (b ++ (post.flatten ++ s.group.pending)) := by
    simp [issued, hd]
  have ht := h.tickets
  rw [hi, length_append, length_append, ← range'_append_1, map_append,
    map_append, ← range'_append_1] at ht
  have h1 := append_inj_right ht (by rw [length_map, length_range'])
  rw [Nat.add_comm 1] at h1
  exact append_inj_left h1 (by rw [length_map, length_range'])

/-! ## The watermark -/

/-- No batch is between its drain and its publication. -/
def Settled (s : Sys T P) : Prop := s.drained = s.committed.map fst ∧ s.published = s.committed

/-- How far the newest batch has come, by the leader's position. -/
def Stage (s : Sys T P) : Pc P → Prop
  | .leading _ _ => s.Settled
  | .committing _ _ b => s.drained = s.committed.map fst ++ [b] ∧ s.published = s.committed
  | .publishing _ _ b e =>
    s.drained = s.committed.map fst ∧ s.committed = s.published ++ [(b, e)]
  | _ => True

theorem stage_of_not_leads (h : c.leads = false) : s.Stage c := by
  cases c with
  | leading | committing | publishing => cases h
  | _ => trivial

/-- `completed` counts the slots of the published batches, `failed_from` lies at or below
every ticket that failed, and a thread that returned `Ok` is below both. -/
structure WatermarkOk (s : Sys T P) : Prop where
  stage : ∀ t, s.Stage (s.pc t)
  rest : s.group.leaderActive = false → s.Settled
  completed : s.signal.completed = (s.published.map fst).flatten.length
  failed : ∀ b e, (b, some e) ∈ s.published →
    ∃ start msg, s.signal.failedFrom = some (start, msg) ∧ ∀ x ∈ b, start ≤ x.ticket
  failedLe : ∀ start msg, s.signal.failedFrom = some (start, msg) → start ≤ s.signal.completed
  acked : ∀ t o, s.pc t = .returned o (.ok ()) → ∃ x, o = some x ∧ x.ticket ≤ s.signal.completed ∧
    ∀ start msg, s.signal.failedFrom = some (start, msg) → x.ticket < start

theorem WatermarkOk.stageAt (h : WatermarkOk s) (hpc : s.pc t = c) : s.Stage c := hpc ▸ h.stage t

theorem watermarkOk_init : WatermarkOk (init : Sys T P) where
  stage := fun _ => trivial
  rest := fun _ => ⟨rfl, rfl⟩
  completed := rfl
  failed := by simp [init]
  failedLe := by simp [init]
  acked := by simp [init]

theorem LeadersOk.settled (hl : LeadersOk s) (hlead : (s.pc t).leads = true) (hidle : s.group.leaderActive = false) :
    s'.Settled :=
  nomatch hidle.symm.trans (hl.active.2 ⟨t, hlead⟩)

theorem publish_signal (sig : CommitSignal) (err : Option String)
    (hb : b ≠ []) (ht : b.map (·.ticket) = range' (sig.completed + 1) b.length) :
    (sig.publish b err).completed = sig.completed + b.length ∧
    (sig.publish b err).failedFrom = sig.noteFailure (sig.completed + 1) err := by
  have hlen : 0 < b.length := length_pos_iff.2 hb
  have hhead : (b.head hb).ticket = sig.completed + 1 := by
    have := congrArg head? ht
    rw [head?_map, head?_eq_some_head hb] at this
    simpa [head?_range', Nat.pos_iff_ne_zero.1 hlen] using this
  have hlast : (b.getLast hb).ticket = sig.completed + b.length := by
    have := congrArg getLast? ht
    rw [getLast?_map, getLast?_eq_some_getLast hb, getLast?_range'] at this
    simp only [Option.map_some, Nat.pos_iff_ne_zero.1 hlen, if_false] at this
    have := Option.some.inj this
    omega
  unfold CommitSignal.publish
  rw [head?_eq_some_head hb, getLast?_eq_some_getLast hb]
  exact ⟨by simp only [hlast]; omega, by simp [hhead]⟩

/-! ## Steps -/

variable [DecidableEq T]

/-- A step that issues nothing and moves one thread without giving it a slot keeps
`TicketsOk`. -/
theorem TicketsOk.move (h : TicketsOk s) (hpc : s'.pc = update s.pc t c) (hi : s'.issued = s.issued)
    (hn : s'.group.nextTicket = s.group.nextTicket) (hb : ∀ b ∈ s'.drained, b ≠ [])
    (hc : ∀ x, c.slot? = some x → x ∈ s.issued) : TicketsOk s' where
  tickets := by rw [hi]; exact h.tickets
  next := by rw [hi, hn]; exact h.next
  nonempty := hb
  slots := by
    rw [hi]
    exact forall_move hpc hc fun u _ => h.slots u

theorem ticketsOk_enqueue (h : TicketsOk s) (t : T) (p : P) : TicketsOk (s.enqueue t p) := by
  have hi : (s.enqueue t p).issued = s.issued ++ [s.group.nextSlot p] := by
    simp [issued, enqueue, enqueueSlot]
  refine ⟨?_, ?_, h.nonempty, ?_⟩
  · rw [hi, map_append, h.tickets, length_append, length_singleton, range'_1_concat]
    simp [nextSlot, h.next, Nat.add_comm]
  · rw [hi, length_append, length_singleton, ← h.next]
    rfl
  · intro u x hu
    rw [hi, mem_append]
    unfold enqueue at hu
    rw [goto_pc, update_apply] at hu
    split at hu
    · split at hu <;> exact .inr (by simpa [Pc.slot?, eq_comm] using hu)
    · exact .inl (h.slots u x hu)

theorem ticketsOk_step (h : TicketsOk s) (hst : Step s s') : TicketsOk s' := by
  -- outside `enqueue` a thread keeps the slot it has
  have keep : ∀ {t : T} {c : Pc P}, c.slot? = (s.pc t).slot? → ∀ x, c.slot? = some x → x ∈ s.issued :=
    fun {t c} hc x hx => h.slots t x (hc ▸ hx)
  cases hst with
  | refuse hpc _ | passFence hpc _ | applyFailed _ hpc | commit _ hpc | publish hpc | announce hpc =>
    exact h.move rfl rfl rfl h.nonempty (keep (by rw [hpc]; rfl))
  | enqueue p _ => exact ticketsOk_enqueue h _ p
  | @drain t x c hpc =>
    have hx : ∀ y, some x = some y → y ∈ s.issued := keep (c := .awaiting x) (by rw [hpc]; rfl)
    rcases s.drain_cases t x c with ⟨_, hd⟩ | hd | ⟨hp, hd⟩ <;> rw [hd]
    · exact h.move rfl rfl rfl h.nonempty hx
    · exact h.move rfl rfl rfl h.nonempty hx
    · refine h.move rfl (by simp [issued]) rfl ?_ hx
      exact forall_mem_append.2 ⟨h.nonempty, forall_mem_singleton.2 hp⟩
  | observe hpc _ =>
    unfold observe
    split_ifs <;> exact h.move rfl rfl rfl h.nonempty (keep (by rw [hpc]; rfl))
  | @claim t x hpc =>
    rcases s.claim_cases t x with ⟨_, hd⟩ | ⟨_, hd⟩ <;> rw [hd] <;>
      exact h.move rfl rfl rfl h.nonempty (keep (by rw [hpc]; rfl))

theorem tickets_ok (h : Reachable (· = init) Step s) : TicketsOk s :=
  h.invariant (fun _ h0 => h0 ▸ ticketsOk_init) fun _ _ _ hi hst => ticketsOk_step hi hst

/-- A step that moves one thread and leaves the batches and the watermark alone. -/
theorem WatermarkOk.move (h : WatermarkOk s) (hpc : s'.pc = update s.pc t c)
    (hhist : s'.drained = s.drained ∧ s'.committed = s.committed ∧ s'.published = s.published)
    (hsig : s'.signal.completed = s.signal.completed ∧ s'.signal.failedFrom = s.signal.failedFrom)
    (hstage : s.Stage c) (hrest : s'.group.leaderActive = false → s.Settled)
    (hack : ∀ o, c = .returned o (.ok ()) → ∃ x, o = some x ∧ x.ticket ≤ s.signal.completed ∧
      ∀ start msg, s.signal.failedFrom = some (start, msg) → x.ticket < start) : WatermarkOk s' := by
  obtain ⟨hd, hc, hp⟩ := hhist
  obtain ⟨hcomp, hfail⟩ := hsig
  have hset : s.Settled → s'.Settled := by
    intro hs
    rwa [Settled, hd, hc, hp]
  have hkeep : ∀ d, s.Stage d → s'.Stage d := by
    intro d hs
    cases d with
    | leading => exact hset hs
    | committing | publishing =>
      simp only [Stage, hd, hc, hp] at hs ⊢
      exact hs
    | _ => trivial
  refine ⟨?_, fun hf => hset (hrest hf), ?_, ?_, ?_, ?_⟩
  · exact forall_move hpc (hkeep c hstage) fun u _ => hkeep _ (h.stage u)
  · rw [hcomp, hp]
    exact h.completed
  · rw [hp, hfail]
    exact h.failed
  · rw [hfail, hcomp]
    exact h.failedLe
  · rw [hcomp, hfail]
    exact forall_move hpc hack fun u _ => h.acked u

theorem stage_update (hl : LeadersOk s)
    (hlead : (s.pc t).leads = true) (hpc : s'.pc = update s.pc t c) (hc : s'.Stage c) :
    ∀ u, s'.Stage (s'.pc u) := by
  refine forall_move hpc hc fun u hu => stage_of_not_leads ?_
  cases hlu : (s.pc u).leads with
  | false => rfl
  | true => exact absurd (hl.unique u t hlu hlead) hu

theorem watermarkOk_drain {c} (hl : LeadersOk s)
    (h : WatermarkOk s) (hpc : s.pc t = .leading x c) : WatermarkOk (s.drain t x c) := by
  have hset : s.Settled := h.stageAt hpc
  rcases s.drain_cases t x c with ⟨_, hd⟩ | hd | ⟨_, hd⟩ <;> rw [hd]
  · exact h.move rfl ⟨rfl, rfl, rfl⟩ ⟨rfl, rfl⟩ trivial (fun _ => hset) nofun
  · exact h.move rfl ⟨rfl, rfl, rfl⟩ ⟨rfl, rfl⟩ trivial (fun _ => hset) nofun
  · have hlead : (s.pc t).leads = true := by rw [hpc]; rfl
    exact ⟨stage_update hl hlead rfl ⟨by simp [hset.1], hset.2⟩, hl.settled hlead, h.completed, h.failed,
      h.failedLe, forall_move (goto_pc ..) nofun fun u _ => h.acked u⟩

theorem watermarkOk_commit {c} (hl : LeadersOk s) (h : WatermarkOk s)
    (hpc : s.pc t = .committing x c b) : WatermarkOk (s.commit t x c b err) := by
  have hlead : (s.pc t).leads = true := by rw [hpc]; rfl
  obtain ⟨hd, hp⟩ := h.stageAt hpc
  refine ⟨stage_update hl hlead rfl ⟨?_, ?_⟩, hl.settled hlead, h.completed, h.failed, h.failedLe, ?_⟩
  · simp [commit, hd]
  · simp [commit, hp]
  · exact forall_move (goto_pc ..) nofun fun u _ => h.acked u

theorem watermarkOk_publish {c} (hl : LeadersOk s) (ht : TicketsOk s)
    (h : WatermarkOk s) (hpc : s.pc t = .publishing x c b err) :
    WatermarkOk (s.publish t x c b err) := by
  have hlead : (s.pc t).leads = true := by rw [hpc]; rfl
  obtain ⟨hd, hc⟩ := h.stageAt hpc
  have hd' := hd
  rw [hc, map_append] at hd'
  have hb : b ≠ [] := ht.nonempty b (by rw [hd']; simp)
  -- it holds exactly the tickets above the watermark
  have htb : b.map (·.ticket) = range' (s.signal.completed + 1) b.length := by
    rw [h.completed]
    exact ht.batch hd'
  obtain ⟨hcomp, hfail⟩ := publish_signal _ err hb htb
  have habove : ∀ y ∈ b, s.signal.completed + 1 ≤ y.ticket := by
    intro y hy
    have hmem : y.ticket ∈ b.map (·.ticket) := mem_map_of_mem hy
    rw [htb, mem_range'_1] at hmem
    exact hmem.1
  -- a recorded failure is either an old one or starts right above the old watermark
  have hcases : ∀ start msg, (s.signal.publish b err).failedFrom = some (start, msg) →
      s.signal.failedFrom = some (start, msg) ∨ start = s.signal.completed + 1 := by
    intro start msg hf
    rw [hfail] at hf
    cases err with
    | none => exact .inl hf
    | some m =>
      cases ho : s.signal.failedFrom with
      | none =>
        simp only [noteFailure, ho, Option.none_or, Option.some.injEq, Prod.mk.injEq] at hf
        exact .inr hf.1.symm
      | some f =>
        simp only [noteFailure, ho] at hf
        exact .inl hf
  refine ⟨stage_update hl hlead rfl ⟨hd, hc.symm⟩, hl.settled hlead, ?_, ?_, ?_, ?_⟩
  · show (s.signal.publish b err).completed = ((s.published ++ [(b, err)]).map fst).flatten.length
    rw [hcomp, h.completed]
    simp
  · intro b' e hmem
    show ∃ start msg, (s.signal.publish b err).failedFrom = some (start, msg) ∧ _
    rw [hfail]
    rcases mem_append.1 hmem with hold | hnew
    · obtain ⟨start, msg, hf, hle⟩ := h.failed b' e hold
      refine ⟨start, msg, ?_, hle⟩
      cases err with
      | none => exact hf
      | some m => simp [noteFailure, hf]
    · obtain ⟨rfl, rfl⟩ := Prod.mk.inj (mem_singleton.1 hnew)
      cases ho : s.signal.failedFrom with
      | none => exact ⟨_, e, by simp [noteFailure, ho], habove⟩
      | some f =>
        refine ⟨f.1, f.2, by simp [noteFailure, ho], fun y hy => ?_⟩
        have h1 := h.failedLe f.1 f.2 ho
        have h2 := habove y hy
        omega
  · intro start msg hf
    show start ≤ (s.signal.publish b err).completed
    have hlen : 0 < b.length := length_pos_iff.2 hb
    rcases hcases _ msg hf with ho | hs
    · have := h.failedLe _ msg ho
      omega
    · omega
  · refine forall_move (goto_pc ..) nofun fun u _ o hu => ?_
    obtain ⟨y, rfl, hle, hlt⟩ := h.acked u o hu
    refine ⟨y, rfl, ?_, fun start msg hf => ?_⟩
    · show y.ticket ≤ (s.signal.publish b err).completed
      omega
    · rcases hcases _ msg hf with ho | hs
      · exact hlt _ msg ho
      · omega

theorem watermarkOk_observe (h : WatermarkOk s) : WatermarkOk (s.observe t x) := by
  unfold observe
  split_ifs with hle
  · refine h.move rfl ⟨rfl, rfl, rfl⟩ ⟨rfl, rfl⟩ trivial h.rest ?_
    intro o ho
    obtain ⟨rfl, hv⟩ : some x = o ∧ s.signal.verdict x.ticket = .ok () := by simpa using ho
    refine ⟨x, rfl, hle, fun start msg hf => ?_⟩
    simp only [verdict, hf] at hv
    split at hv
    · cases hv
    · omega
  · exact h.move rfl ⟨rfl, rfl, rfl⟩ ⟨rfl, rfl⟩ trivial h.rest nofun

theorem watermarkOk_step (hl : LeadersOk s) (ht : TicketsOk s) (h : WatermarkOk s)
    (hst : Step s s') : WatermarkOk s' := by
  cases hst with
  | refuse | applyFailed =>
    exact h.move rfl ⟨rfl, rfl, rfl⟩ ⟨rfl, rfl⟩ trivial h.rest (fun _ hx => by simp at hx)
  | passFence | announce =>
    exact h.move rfl ⟨rfl, rfl, rfl⟩ ⟨rfl, rfl⟩ trivial h.rest (by rintro _ ⟨⟩)
  | @enqueue t p hpc =>
    refine h.move rfl ⟨rfl, rfl, rfl⟩ ⟨rfl, rfl⟩ ?_ (by rintro ⟨⟩) ?_
    · cases ha : s.group.leaderActive with
      | false => simpa [enqueueSlot, ha, Stage] using h.rest ha
      | true => simp [enqueueSlot, ha, Stage]
    · intro x hx
      split at hx <;> cases hx
  | drain hpc => exact watermarkOk_drain hl h hpc
  | commit _ hpc => exact watermarkOk_commit hl h hpc
  | publish hpc => exact watermarkOk_publish hl ht h hpc
  | observe => exact watermarkOk_observe h
  | @claim t x hpc =>
    rcases s.claim_cases t x with ⟨_, hd⟩ | ⟨ha, hd⟩ <;> rw [hd]
    · exact h.move rfl ⟨rfl, rfl, rfl⟩ ⟨rfl, rfl⟩ trivial h.rest (by rintro _ ⟨⟩)
    · exact h.move rfl ⟨rfl, rfl, rfl⟩ ⟨rfl, rfl⟩ (h.rest ha) (by rintro ⟨⟩) (by rintro _ ⟨⟩)

theorem watermark_ok (h : Reachable (· = init) Step s) : WatermarkOk s :=
  h.invariant (fun _ h0 => h0 ▸ watermarkOk_init) fun _ _ hr hi hst =>
    watermarkOk_step (leaders_ok hr) (tickets_ok hr) hi hst

/-! ## Queued tickets are not orphaned -/

/-- Someone will see to the queue: a leader, the vacancy flag, or a thread about to announce
the vacancy or to claim it. -/
def VacancyOk (s : Sys T P) : Prop :=
  s.group.pending ≠ [] → s.group.leaderActive = true ∨ s.signal.leaderVacant = true ∨
    ∃ t, (s.pc t).handsOver = true

/-- A step by a thread outside the hand-over that keeps queue, flag and leader. -/
theorem VacancyOk.move (h : VacancyOk s)
    (hpc : s'.pc = update s.pc t c) (ht : (s.pc t).handsOver = false)
    (hg : s'.group = s.group) (hv : s'.signal.leaderVacant = s.signal.leaderVacant) : VacancyOk s' := by
  intro hp
  rw [hg] at hp ⊢
  rw [hv]
  rcases h hp with ha | hvac | hh
  · exact .inl ha
  · exact .inr (.inl hvac)
  · obtain ⟨u, hu⟩ := hh
    refine .inr (.inr ⟨u, ?_⟩)
    rw [hpc, update_of_ne]
    · exact hu
    · rintro rfl
      rw [ht] at hu
      cases hu

theorem vacancyOk_step (h : VacancyOk s) (hst : Step s s') : VacancyOk s' := by
  cases hst with
  | refuse hpc _ | passFence hpc _ | applyFailed _ hpc | commit _ hpc =>
    exact h.move rfl (by rw [hpc]; rfl) rfl rfl
  | enqueue => exact fun _ => .inl rfl
  | @drain t x c hpc =>
    rcases s.drain_cases t x c with ⟨hp, hd⟩ | hd | ⟨_, hd⟩ <;> rw [hd]
    · exact absurd hp
    · exact fun _ => .inr (.inr ⟨t, by simp [Pc.handsOver]⟩)
    · exact absurd rfl
  | @publish t x c b err hpc =>
    refine h.move rfl (by rw [hpc]; rfl) rfl ?_
    show (s.signal.publish b err).leaderVacant = _
    unfold CommitSignal.publish
    split <;> rfl
  | announce => exact fun _ => .inr (.inl rfl)
  | @observe t x hpc _ =>
    unfold observe
    split_ifs
    · exact h.move rfl (by rw [hpc]; rfl) rfl rfl
    · exact fun _ => .inr (.inr ⟨t, by simp [Pc.handsOver]⟩)
  | @claim t x hpc =>
    rcases s.claim_cases t x with ⟨hc, hd⟩ | ⟨_, hd⟩ <;> rw [hd]
    · rcases hc with ha | hp
      · exact fun _ => .inl ha
      · exact absurd hp
    · exact fun _ => .inl rfl

theorem vacancy_ok (h : Reachable (· = init) Step s) : VacancyOk s := by
  refine h.invariant (fun _ h0 => ?_) fun _ _ _ hi hst => vacancyOk_step hi hst
  subst h0
  exact absurd rfl

/-! ## Safety -/

/-- The batches whose write and sync succeeded. -/
def Synced (s : Sys T P) (b : List (GroupSlot P)) : Prop := (b, none) ∈ s.committed

def Failed (s : Sys T P) (b : List (GroupSlot P)) : Prop := ∃ e, (b, some e) ∈ s.committed

section

omit [DecidableEq T]

/-- At most the newest batch has not been committed, and at most the newest committed one
has not been published. -/
theorem WatermarkOk.pipeline (hl : LeadersOk s) (h : WatermarkOk s) :
    (∃ new, s.drained = s.committed.map fst ++ new) ∧
    (s.committed = s.published ∨ ∃ o, s.committed = s.published ++ [o]) := by
  cases ha : s.group.leaderActive with
  | false =>
    obtain ⟨hd, hp⟩ := h.rest ha
    exact ⟨⟨[], by rw [append_nil]; exact hd⟩, .inl hp.symm⟩
  | true =>
    obtain ⟨t, ht⟩ := hl.active.1 ha
    have hs := h.stage t
    cases hpc : s.pc t with
    | leading =>
      rw [hpc] at hs
      exact ⟨⟨[], by rw [append_nil]; exact hs.1⟩, .inl hs.2.symm⟩
    | committing x c b =>
      rw [hpc] at hs
      exact ⟨⟨[b], hs.1⟩, .inl hs.2.symm⟩
    | publishing x c b e =>
      rw [hpc] at hs
      exact ⟨⟨[], by rw [append_nil]; exact hs.1⟩, .inr ⟨(b, e), hs.2⟩⟩
    | _ =>
      rw [hpc] at ht
      cases ht

section

variable (hl : LeadersOk s) (ht : TicketsOk s) (h : WatermarkOk s)

include hl ht h

theorem mem_published (hx : x ∈ s.issued) (hle : x.ticket ≤ s.signal.completed) :
    ∃ b e, (b, e) ∈ s.published ∧ x ∈ b := by
  obtain ⟨post, hd⟩ : ∃ post, s.drained = s.published.map fst ++ post := by
    obtain ⟨⟨new, hd⟩, hc | ⟨o, hc⟩⟩ := h.pipeline hl
    · exact ⟨new, by rw [hd, hc]⟩
    · exact ⟨o.1 :: new, by rw [hd, hc]; simp⟩
  have hsplit : s.issued = (s.published.map fst).flatten ++ (post.flatten ++ s.group.pending) := by
    simp [issued, hd]
  have htk := ht.tickets
  rw [hsplit, map_append, length_append, ← range'_append_1] at htk
  have hrest := append_inj_right htk (by rw [length_map, length_range'])
  rw [hsplit, mem_append] at hx
  rcases hx with hx | hx
  · obtain ⟨b, hb, hxb⟩ := mem_flatten.1 hx
    obtain ⟨⟨b', e⟩, hmem, rfl⟩ := mem_map.1 hb
    exact ⟨b', e, hmem, hxb⟩
  · have hmem : x.ticket ∈ map (·.ticket) (post.flatten ++ s.group.pending) :=
      mem_map_of_mem hx
    rw [hrest, mem_range'_1] at hmem
    rw [h.completed] at hle
    omega

/-- Every ticket of a failed batch lies above the ticket of a writer that returned `Ok`. -/
theorem acked_below_failed (hpc : s.pc t = .returned (some x) (.ok ()))
    (hb : s.Failed b) {y} (hy : y ∈ b) : x.ticket < y.ticket := by
  obtain ⟨x', hx', hle, hlt⟩ := h.acked t _ hpc
  cases hx'
  obtain ⟨e, hmem⟩ := hb
  obtain ⟨⟨new, hd⟩, hpub⟩ := h.pipeline hl
  have hcase : (b, some e) ∈ s.published ∨ s.committed = s.published ++ [(b, some e)] := by
    rcases hpub with hc | ⟨o, hc⟩
    · exact .inl (hc ▸ hmem)
    · rw [hc] at hmem
      rcases mem_append.1 hmem with hm | hm
      · exact .inl hm
      · rw [mem_singleton.1 hm]
        exact .inr hc
  rcases hcase with hp | hc
  · obtain ⟨start, msg, hf, hge⟩ := h.failed b e hp
    exact lt_of_lt_of_le (hlt _ msg hf) (hge y hy)
  · -- not yet published: its tickets are the ones above the watermark
    rw [hc, map_append, append_assoc] at hd
    have htb := ht.batch hd
    have hmem' : y.ticket ∈ b.map (·.ticket) := mem_map_of_mem hy
    rw [htb, mem_range'_1, ← h.completed] at hmem'
    omega

/-- A writer returns `Ok` only for a slot whose batch was written and synced. -/
theorem acked_synced {o} (hpc : s.pc t = .returned o (.ok ())) :
    ∃ x, o = some x ∧ ∃ b, s.Synced b ∧ x ∈ b := by
  obtain ⟨x, rfl, hle, _⟩ := h.acked t o hpc
  obtain ⟨b, e, hmem, hxb⟩ := mem_published hl ht h (ht.slots t x (by rw [hpc]; rfl)) hle
  have hcom : (b, e) ∈ s.committed := by
    rcases (h.pipeline hl).2 with hc | ⟨o, hc⟩
    · exact hc ▸ hmem
    · rw [hc]
      exact mem_append_left _ hmem
  cases e with
  | none => exact ⟨x, rfl, b, hcom, hxb⟩
  | some e => exact absurd (acked_below_failed hl ht h hpc ⟨e, hcom⟩ hxb) (lt_irrefl _)

end

/-- The slots of the batches that were written and synced, in ticket order. -/
def syncedSlots (s : Sys T P) : List (GroupSlot P) :=
  (s.committed.filterMap fun o => if o.2 = none then some o.1 else none).flatten

theorem mem_syncedSlots : x ∈ s.syncedSlots ↔ ∃ b, s.Synced b ∧ x ∈ b := by
  simp only [syncedSlots, mem_flatten, mem_filterMap]
  constructor
  · rintro ⟨b, ⟨⟨b', e⟩, hmem, hb⟩, hx⟩
    cases e with
    | none =>
      cases hb
      exact ⟨b', hmem, hx⟩
    | some e => cases hb
  · rintro ⟨b, hmem, hx⟩
    exact ⟨b, ⟨(b, none), hmem, rfl⟩, hx⟩

theorem syncedSlots_sublist (hl : LeadersOk s) (h : WatermarkOk s) :
    s.syncedSlots.Sublist s.issued := by
  obtain ⟨⟨new, hd⟩, -⟩ := h.pipeline hl
  have hsub : ∀ l : List (List (GroupSlot P) × Option String),
      (l.filterMap fun o => if o.2 = none then some o.1 else none).flatten.Sublist
        (l.map fst).flatten := by
    intro l
    induction l with
    | nil => exact .refl _
    | cons o l ih =>
      obtain ⟨b, e⟩ := o
      cases e with
      | none => exact (List.Sublist.refl b).append ih
      | some e => exact ih.trans (sublist_append_right b _)
  rw [issued, hd, flatten_append]
  exact (hsub _).trans ((sublist_append_left _ _).trans (sublist_append_left _ _))

/-- Only one batch is being committed. -/
theorem LeadersOk.committing_unique (h : LeadersOk s) {u : T} {y c d b'}
    (ht : s.pc t = .committing x c b) (hu : s.pc u = .committing y d b') : b = b' := by
  have htu : t = u := h.unique t u (by rw [ht]; rfl) (by rw [hu]; rfl)
  rw [htu, hu] at ht
  cases ht
  rfl

end

/-- A thread inside `commit_batch` stays there until its I/O has ended. -/
theorem committing_stays (hst : Step s s') (hc : s'.committed = s.committed) {c}
    (ht : s.pc t = .committing x c b) : s'.pc t = .committing x c b := by
  have keep : ∀ {u : T} {d d' : Pc P}, s.pc u = d → (∀ x c b, d ≠ .committing x c b) →
      update s.pc u d' t = .committing x c b := by
    intro u d d' hu hne
    rw [update_of_ne]
    · exact ht
    · rintro rfl
      rw [ht] at hu
      exact hne x c b hu.symm
  cases hst with
  | refuse hpc _ | passFence hpc _ | applyFailed _ hpc | enqueue _ hpc | publish hpc
  | announce hpc => exact keep hpc (by simp)
  | @drain u y d hpc =>
    rcases s.drain_cases u y d with ⟨_, hd⟩ | hd | ⟨_, hd⟩ <;> rw [hd] <;> exact keep hpc (by simp)
  | commit err hpc =>
    have := congrArg length hc
    simp [commit] at this
  | @observe u y hpc _ =>
    unfold observe
    split_ifs <;> exact keep hpc (by simp)
  | @claim u y hpc =>
    rcases s.claim_cases u y with ⟨_, hd⟩ | ⟨_, hd⟩ <;> rw [hd] <;> exact keep hpc (by simp)

/-- Only the end of a batch's I/O adds to the outcomes and touches the fence. -/
theorem committed_step (hst : Step s s') : s'.committed = s.committed ∧ s'.fenced = s.fenced ∨
    ∃ t x c b err, s' = s.commit t x c b err := by
  cases hst with
  | commit err _ => exact .inr ⟨_, _, _, _, err, rfl⟩
  | @drain t x c _ =>
    rcases s.drain_cases t x c with ⟨_, hd⟩ | hd | ⟨_, hd⟩ <;> rw [hd] <;> exact .inl ⟨rfl, rfl⟩
  | observe _ _ =>
    unfold observe
    split_ifs <;> exact .inl ⟨rfl, rfl⟩
  | @claim t x _ =>
    rcases s.claim_cases t x with ⟨_, hd⟩ | ⟨_, hd⟩ <;> rw [hd] <;> exact .inl ⟨rfl, rfl⟩
  | _ => exact .inl ⟨rfl, rfl⟩

theorem fenced_stays (hst : Step s s') (hc : s'.committed = s.committed) : s'.fenced = s.fenced := by
  rcases committed_step hst with h | ⟨t, x, c, b, err, rfl⟩
  · exact h.2
  · have := congrArg length hc
    simp [commit] at this

/-- What the protocol guarantees in one state. -/
structure Safe (s : Sys T P) : Prop where
  oneLeader : ∀ t u, (s.pc t).leads = true → (s.pc u).leads = true → t = u
  contiguous : ∀ pre b post, s.drained = pre ++ b :: post →
    b ≠ [] ∧ b.map (·.ticket) = range' (pre.flatten.length + 1) b.length
  acked : ∀ t o, s.pc t = .returned o (.ok ()) → ∃ x, o = some x ∧
    (∃ b, s.Synced b ∧ x ∈ b) ∧ ∀ b, s.Failed b → ∀ y ∈ b, x.ticket < y.ticket
  notOrphaned : s.group.pending ≠ [] → (∃ t, (s.pc t).leads = true) ∨
    s.signal.leaderVacant = true ∨ ∃ t, (s.pc t).handsOver = true

/-- Safety of the group commit over every interleaving of any number of writers: one leader,
contiguous batches, `Ok` only after a sync that covers the slot and only below every failure,
and no orphaned ticket. -/
theorem group_commit_safe {s : Sys T P} (h : Reachable (· = init) Step s) : Safe s := by
  have hl := leaders_ok h
  have ht := tickets_ok h
  have hw := watermark_ok h
  refine ⟨hl.unique, fun pre b post hd => ⟨ht.nonempty b (by rw [hd]; simp), ht.batch hd⟩,
    fun t o hpc => ?_, fun hp => (vacancy_ok h hp).imp_left hl.active.1⟩
  obtain ⟨x, rfl, hsync⟩ := acked_synced hl ht hw hpc
  exact ⟨x, rfl, hsync, fun b hb y => acked_below_failed hl ht hw hpc hb⟩

/-- The leader commits its own slot and fails on the slot of a second writer. It returns `Ok` while a
third writer, which passed the fence before, leads. -/
theorem group_commit_safe_three_writers : ∃ s : Sys (Fin 3) Nat, Reachable (· = init) Step s ∧
    s.pc 0 = .returned (some ⟨7, 1⟩) (.ok ()) ∧ s.Failed [⟨8, 2⟩] ∧
    s.group.pending = [⟨9, 3⟩] ∧ (s.pc 2).leads = true ∧ Safe s := by
  have h0 : Reachable (· = init) Step (init : Sys (Fin 3) Nat) := .start rfl
  have h1 := h0.next (.passFence (t := 0) rfl rfl)
  have h2 := h1.next (.passFence (t := 1) rfl rfl)
  have h3 := h2.next (.passFence (t := 2) rfl rfl)
  have h4 := h3.next (.enqueue (t := 0) 7 rfl)
  have h5 := h4.next (.drain (t := 0) rfl)
  have h6 := h5.next (.enqueue (t := 1) 8 rfl)
  have h7 := h6.next (.commit (t := 0) none rfl)
  have h8 := h7.next (.publish (t := 0) rfl)
  have h9 := h8.next (.drain (t := 0) rfl)
  have h10 := h9.next (.commit (t := 0) (some "no space left") rfl)
  have h11 := h10.next (.publish (t := 0) rfl)
  have h12 := h11.next (.drain (t := 0) rfl)
  have h13 := h12.next (.enqueue (t := 2) 9 rfl)
  have h14 := h13.next (.observe (t := 0) rfl (.inl (by decide)))
  exact ⟨_, h14, rfl, ⟨_, mem_cons_of_mem _ mem_cons_self⟩, rfl, rfl, group_commit_safe h14⟩

end Hearth.Wal.Sys
