import Hearth.Wal.GroupSafety

/-!
# Every queued writer can return

`writer_can_return`: whatever has happened so far, the threads that have enqueued can bring
each other to their returns. No vacancy of the leader role goes unseen.
-/

namespace Hearth.Wal.Sys

open Base List Function Relation Prod

variable {T P : Type} [DecidableEq T] {s s' r : Sys T P} {t u : T} {x y : GroupSlot P} {c : Nat}
  {b : List (GroupSlot P)} {pc old : Pc P}

/-- A step of a thread that has enqueued. -/
def Joined (s s' : Sys T P) : Prop := Step s s' ∧ ∀ t, (s.pc t).slot? = none → s'.pc t = s.pc t

def CanReturn (s : Sys T P) (t : T) (x : GroupSlot P) : Prop :=
  ∃ s', ReflTransGen Joined s s' ∧ ∃ result, s'.pc t = .returned (some x) result

/-- `t` waits for its ticket, unless it is the thread `u` that is to move. -/
def WaitsOn (s : Sys T P) (t u : T) (x : GroupSlot P) : Prop :=
  (s.pc t).slot? = some x ∧ (t ≠ u → s.pc t = .awaiting x)

section

omit [DecidableEq T]

theorem waitsOn_of_awaiting (hpc : s.pc t = .awaiting x) : WaitsOn s t u x :=
  ⟨by rw [hpc]; rfl, fun _ => hpc⟩

theorem WaitsOn.awaiting (h : WaitsOn s t u x) (hu : s.pc u = .awaiting y) : s.pc t = .awaiting x := by
  obtain rfl | hne := eq_or_ne t u
  · have hslot := h.1
    rw [hu] at hslot ⊢
    exact congrArg _ (Option.some.inj hslot)
  · exact h.2 hne

end

/-- With nothing queued and everything published, the watermark covers every ticket. -/
theorem covered_of_settled (h : Reachable (· = init) Step s) (hs : s.Settled)
    (hp : s.group.pending = []) (hpc : s.pc t = .awaiting x) : x.ticket ≤ s.signal.completed := by
  have ht := tickets_ok h
  have hmem : x.ticket ∈ s.issued.map (·.ticket) := mem_map_of_mem (ht.slots t x (by rw [hpc]; rfl))
  have hall : s.issued = (s.published.map fst).flatten := by
    rw [issued, hp, append_nil, hs.1, hs.2]
  rw [ht.tickets, mem_range'_1, hall, ← (watermark_ok h).completed] at hmem
  omega

section

variable (h : Reachable (· = init) Step s)

include h

/-- One move of `u`, and what `t` can do after it. -/
theorem CanReturn.step (hw : WaitsOn s t u x) (hst : Step s r) (hr : r = s'.goto u pc)
    (hsame : s'.pc = s.pc) (hu : s.pc u = old) (hold : old.slot? = some y) (hnew : pc.slot? = some y)
    (k : Reachable (· = init) Step (s'.goto u pc) → WaitsOn (s'.goto u pc) t u x →
      CanReturn (s'.goto u pc) t x) : CanReturn s t x := by
  subst hr
  have hw' : WaitsOn (s'.goto u pc) t u x := by
    obtain rfl | hne := eq_or_ne t u
    · refine ⟨?_, fun hne => (hne rfl).elim⟩
      rw [goto_pc, update_self, hnew, ← hold, ← hu]
      exact hw.1
    · rw [WaitsOn, goto_pc, update_of_ne hne, hsame]
      exact hw
  obtain ⟨s'', hrun, hret⟩ := k (h.next hst) hw'
  refine ⟨s'', .head ⟨hst, fun v hv => ?_⟩ hrun, hret⟩
  rw [goto_pc, update_of_ne, hsame]
  rintro rfl
  rw [hu, hold] at hv
  cases hv

theorem canReturn_of_covered (hpc : s.pc t = .awaiting x) (hle : x.ticket ≤ s.signal.completed) :
    CanReturn s t x :=
  .step h (waitsOn_of_awaiting hpc) (.observe hpc (.inl hle)) (if_pos hle) rfl hpc rfl rfl
    fun _ _ => ⟨_, .refl, _, update_self ..⟩

/-- A leader that finds the queue empty has published everything. -/
theorem canReturn_of_idle (hw : WaitsOn s t u x) (hu : s.pc u = .leading y c)
    (hp : s.group.pending = []) : CanReturn s t x := by
  have hdrain : s.drain u y c =
      { s with group := { s.group with leaderActive := false } }.goto u (.awaiting y) := by
    simp [drain, GroupState.drain, hp]
  refine .step h hw (.drain hu) hdrain rfl hu rfl rfl fun hr hw => ?_
  have hpc := hw.awaiting (update_self ..)
  exact canReturn_of_covered hr hpc (covered_of_settled hr ((watermark_ok h).stageAt hu) hp hpc)

theorem canReturn_of_publishing {err} (hw : WaitsOn s t u x) (hu : s.pc u = .publishing y c b err)
    (k : ∀ s' : Sys T P, Reachable (· = init) Step s' → WaitsOn s' t u x →
      s'.pc u = .leading y (c + 1) → s'.group = s.group → CanReturn s' t x) : CanReturn s t x :=
  .step h hw (.publish hu) rfl rfl hu rfl rfl fun hr hw => k _ hr hw (update_self ..) rfl

theorem canReturn_of_committing (hw : WaitsOn s t u x) (hu : s.pc u = .committing y c b)
    (k : ∀ s' : Sys T P, Reachable (· = init) Step s' → WaitsOn s' t u x →
      s'.pc u = .leading y (c + 1) → s'.group = s.group → CanReturn s' t x) : CanReturn s t x :=
  .step h hw (.commit none hu) rfl rfl hu rfl rfl fun hr hw =>
    canReturn_of_publishing hr hw (update_self ..) k

theorem canReturn_of_batch (hw : WaitsOn s t u x) (hu : s.pc u = .leading y c)
    (hp : s.group.pending ≠ []) (hc : ¬ maxLeaderBatches ≤ c) : CanReturn s t x := by
  have hdrain : s.drain u y c = { s with
      group := { s.group with pending := [] }
      drained := s.drained ++ [s.group.pending] }.goto u (.committing y c s.group.pending) := by
    simp [drain, GroupState.drain, hp, hc]
  refine .step h hw (.drain hu) hdrain rfl hu rfl rfl fun hr hw => ?_
  refine canReturn_of_committing hr hw (update_self ..) fun s' hr hw hu hg => ?_
  exact canReturn_of_idle hr hw hu (congrArg GroupState.pending hg)

theorem canReturn_of_claim (hw : WaitsOn s t u x) (hu : s.pc u = .claiming y)
    (ha : s.group.leaderActive = false) (hp : s.group.pending ≠ []) : CanReturn s t x := by
  have hclaim : s.claim u y =
      { s with group := { s.group with leaderActive := true } }.goto u (.leading y 0) := by
    simp [claim, GroupState.claim, ha, hp]
  refine .step h hw (.claim hu) hclaim rfl hu rfl rfl fun hr hw => ?_
  exact canReturn_of_batch hr hw (update_self ..) hp (by decide)

/-- A waiter that finds the leader role vacant takes it, and commits what is queued. -/
theorem canReturn_of_vacant (hpc : s.pc t = .awaiting x) (hv : s.signal.leaderVacant = true)
    (ha : s.group.leaderActive = false) (hp : s.group.pending ≠ []) : CanReturn s t x := by
  by_cases hle : x.ticket ≤ s.signal.completed
  · exact canReturn_of_covered h hpc hle
  · refine .step h (waitsOn_of_awaiting hpc) (.observe hpc (.inr hv)) (if_neg hle) rfl hpc rfl rfl fun hr hw => ?_
    exact canReturn_of_claim hr hw (update_self ..) ha hp

theorem canReturn_of_leading (hw : WaitsOn s t u x) (hu : s.pc u = .leading y c) : CanReturn s t x := by
  by_cases hp : s.group.pending = []
  · exact canReturn_of_idle h hw hu hp
  by_cases hc : maxLeaderBatches ≤ c
  · have hdrain : s.drain u y c =
        { s with group := { s.group with leaderActive := false } }.goto u (.steppedDown y) := by
      simp [drain, GroupState.drain, hp, hc]
    refine .step h hw (.drain hu) hdrain rfl hu rfl rfl fun hr hw => ?_
    refine .step hr hw (.announce (update_self ..)) rfl rfl (update_self ..) rfl rfl fun hr hw => ?_
    exact canReturn_of_vacant hr (hw.awaiting (update_self ..)) rfl rfl hp
  · exact canReturn_of_batch h hw hu hp hc

theorem canReturn_of_leads (hw : WaitsOn s t u x) (hu : (s.pc u).leads = true) : CanReturn s t x := by
  cases hpc : s.pc u with
  | leading => exact canReturn_of_leading h hw hpc
  | committing => exact canReturn_of_committing h hw hpc fun _ hr hw hu _ => canReturn_of_leading hr hw hu
  | publishing => exact canReturn_of_publishing h hw hpc fun _ hr hw hu _ => canReturn_of_leading hr hw hu
  | _ => rw [hpc] at hu; cases hu

/-- A waiter whose queue has a leader, or a vacancy that can be seen. -/
theorem canReturn_of_seen (hpc : s.pc t = .awaiting x) (hseen : s.group.pending ≠ [] →
      s.group.leaderActive = true ∨ s.signal.leaderVacant = true) : CanReturn s t x := by
  cases ha : s.group.leaderActive with
  | true =>
    obtain ⟨u, hu⟩ := (leaders_ok h).active.1 ha
    exact canReturn_of_leads h (waitsOn_of_awaiting hpc) hu
  | false =>
    by_cases hp : s.group.pending = []
    · exact canReturn_of_covered h hpc (covered_of_settled h ((watermark_ok h).rest ha) hp hpc)
    · exact canReturn_of_vacant h hpc ((hseen hp).resolve_left (by simp [ha])) ha hp

theorem canReturn_of_handsOver (hw : WaitsOn s t u x) (hu : (s.pc u).handsOver = true) :
    CanReturn s t x := by
  cases hpc : s.pc u with
  | steppedDown y =>
    refine .step h hw (.announce hpc) rfl rfl hpc rfl rfl fun hr hw => ?_
    exact canReturn_of_seen hr (hw.awaiting (update_self ..)) fun _ => .inr rfl
  | claiming y =>
    obtain ⟨hact, hclaim⟩ | ⟨-, hclaim⟩ := claim_cases s u y
    · refine .step h hw (.claim hpc) hclaim rfl hpc rfl rfl fun hr hw => ?_
      exact canReturn_of_seen hr (hw.awaiting (update_self ..)) fun hp => .inl (hact.resolve_right hp)
    · refine .step h hw (.claim hpc) hclaim rfl hpc rfl rfl fun hr hw => ?_
      exact canReturn_of_leading hr hw (update_self ..)
  | _ => rw [hpc] at hu; cases hu

end

/-- Every writer that has enqueued can be brought to its return, by steps of the threads that have
enqueued alone. -/
theorem writer_can_return (h : Reachable (· = init) Step s) (hx : (s.pc t).slot? = some x) :
    CanReturn s t x := by
  have hself : WaitsOn s t t x := ⟨hx, fun hne => (hne rfl).elim⟩
  cases hpc : s.pc t with
  | start | unfenced => rw [hpc] at hx; cases hx
  | leading | committing | publishing => exact canReturn_of_leads h hself (by rw [hpc]; rfl)
  | steppedDown | claiming => exact canReturn_of_handsOver h hself (by rw [hpc]; rfl)
  | returned => exact ⟨s, .refl, _, hpc.trans (by rw [hpc] at hx; cases hx; rfl)⟩
  | awaiting y =>
    obtain rfl : y = x := by rw [hpc] at hx; exact Option.some.inj hx
    by_cases hhand : ∃ u, (s.pc u).handsOver = true
    · obtain ⟨u, hu⟩ := hhand
      exact canReturn_of_handsOver h (waitsOn_of_awaiting hpc) hu
    · refine canReturn_of_seen h hpc fun hp => ?_
      obtain hact | hv | hu := vacancy_ok h hp
      · exact .inl hact
      · exact .inr hv
      · exact absurd hu hhand

/-- A writer has queued its slot while another commits. -/
theorem writer_can_return_queued : ∃ s : Sys (Fin 2) Nat, Reachable (· = init) Step s ∧
    s.pc 0 = .committing ⟨7, 1⟩ 0 [⟨7, 1⟩] ∧ s.pc 1 = .awaiting ⟨8, 2⟩ ∧
    CanReturn s 1 ⟨8, 2⟩ := by
  have h0 : Reachable (· = init) Step (init : Sys (Fin 2) Nat) := .start rfl
  have h1 := h0.next (.passFence (t := 0) rfl rfl)
  have h2 := h1.next (.enqueue (t := 0) 7 rfl)
  have h3 := h2.next (.drain (t := 0) rfl)
  have h4 := h3.next (.passFence (t := 1) rfl rfl)
  have h5 := h4.next (.enqueue (t := 1) 8 rfl)
  exact ⟨_, h5, rfl, rfl, writer_can_return h5 rfl⟩

end Hearth.Wal.Sys
