import Hearth.Base.Bytes
import Hearth.Base.Retained
import Hearth.Base.Run

/-!
# The session-version feed

A bump raises a session's version, takes the next sequence number and appends a
delta to a feed from which old deltas are deleted. A relying party starts from a
snapshot, then reads the deltas after its position, and takes a new snapshot when
the feed no longer reaches back to it.

`bump` is a series of storage operations: read the version, read the sequence,
scan the feed, delete its old deltas one by one, put the three rows in a batch.
`list_deltas` reads the sequence, scans the feed for its first delta and scans it
again for the page; `snapshot` reads the sequence, then the versions.

`feed_complete`: in an `Orderly` run a relying party that has caught up rejects all
that the bumps have revoked. `feed_misses_bump`: two bumps that take one number
leave one delta.
-/

namespace Hearth.Identity

open Base List Function Option

variable {S T : Type}

structure SvDeltaEntry (S : Type) where
  seq : Nat
  sessionId : S
  minSv : Nat
  bumpedAt : Int

/-- The `ssv:` rows of a realm. -/
structure SvStore (S : Type) where
  version : S → Option Nat
  /-- In the order of their keys, the zero-padded `seq`. -/
  deltas : List (SvDeltaEntry S)
  seq : Option Nat

namespace SvStore

variable (x : SvStore S)

/-- The version of a session that is not tracked is 1. -/
def getVersion (sessionId : S) : Nat := (x.version sessionId).getD 1

def currentSeq : Nat := x.seq.getD 0

def nextSeq : Nat := x.currentSeq + 1

def deleteDelta (seq : Nat) : SvStore S :=
  { x with deltas := deleteNumbered SvDeltaEntry.seq seq x.deltas }

/-- The batch at the end of `bump`. -/
def putBump [DecidableEq S] (x : SvStore S) (delta : SvDeltaEntry S) : SvStore S where
  version := update x.version delta.sessionId (some delta.minSv)
  deltas := putNumbered SvDeltaEntry.seq delta x.deltas
  seq := some delta.seq

end SvStore

/-- Deltas recorded before it are deleted. -/
def cutoff (nowSecs : Int) (retentionSecs : Nat) : Int :=
    saturateI64 (nowSecs - asI64 retentionSecs)

/-- The first delta in the feed is after the one that follows `since`. -/
def positionGone (since : Nat) (firstEntries : List (SvDeltaEntry S)) : Bool :=
  match firstEntries with
  | [] => false
  | first :: _ => decide (since + 1 < first.seq)

/-- The deltas after `since`. -/
def entriesAfter (since : Nat) (deltas : List (SvDeltaEntry S)) : List (SvDeltaEntry S) :=
  deltas.filter fun d => since + 1 ≤ d.seq

/-- `next_seq` and the deltas of a response. -/
def listPage (currentSeq since limit : Nat) (deltas : List (SvDeltaEntry S)) :
    Nat × List (SvDeltaEntry S) :=
  let page := (entriesAfter since deltas).take limit
  ((page.getLast?.map SvDeltaEntry.seq).getD currentSeq, page)

/-- What a call of `bump` carries to its next storage operation. -/
inductive BumpCall (S : Type)
  | idle
  | versioned (sessionId : S) (nowSecs : Int) (retentionSecs newVersion : Nat)
  | numbered (sessionId : S) (nowSecs : Int) (retentionSecs newVersion seq : Nat)
  | expiring (sessionId : S) (nowSecs : Int) (retentionSecs newVersion seq : Nat)
      (entries : List (SvDeltaEntry S))
  | ready (delta : SvDeltaEntry S)
  | done (sessionId : S) (version : Nat)
  | failed

def BumpCall.Running : BumpCall S → Prop
  | .idle | .done .. | .failed => False
  | .versioned .. | .numbered .. | .expiring .. | .ready .. => True

/-- What a running bump has read still holds. -/
def BumpCall.Fits (x : SvStore S) : BumpCall S → Prop
  | .idle | .done .. | .failed => True
  | .versioned sid _ _ new => new = x.getVersion sid + 1
  | .numbered sid _ _ new seq => new = x.getVersion sid + 1 ∧ seq = x.nextSeq
  | .expiring sid _ _ new seq entries => new = x.getVersion sid + 1 ∧ seq = x.nextSeq ∧
      entries = x.deltas
  | .ready d => d.minSv = x.getVersion d.sessionId + 1 ∧ d.seq = x.nextSeq

theorem BumpCall.fits_of_not_running {c : BumpCall S} {x : SvStore S} (h : ¬c.Running) :
    c.Fits x := by
  cases c with
  | idle | done | failed => trivial
  | versioned | numbered | expiring | ready => exact absurd trivial h

/-- Where the relying party stands. -/
inductive FeedPhase
  | fresh
  | snapshotting (currentSeq : Nat)
  | positioned (since : Nat)
  | polling (since currentSeq : Nat)
  | paging (since currentSeq : Nat)

inductive SvEvent (T : Type)
  | begin (t : T)
  | delete (t : T)
  | deleteFails (t : T)
  | other

/-- Bumps `T` and one relying party, with the minimum version it holds for each session. -/
structure SvSys (S T : Type) where
  store : SvStore S
  call : T → BumpCall S
  phase : FeedPhase
  minSv : S → Nat

/-- The relying party keeps the highest minimum it has read. -/
def applyDeltas [DecidableEq S] (minSv : S → Nat) : List (SvDeltaEntry S) → S → Nat
  | [] => minSv
  | d :: ds => applyDeltas (update minSv d.sessionId (max (minSv d.sessionId) d.minSv)) ds

theorem le_applyDeltas [DecidableEq S] (minSv : S → Nat) (ds : List (SvDeltaEntry S)) (sid : S) :
    minSv sid ≤ applyDeltas minSv ds sid := by
  induction ds generalizing minSv with
  | nil => exact le_rfl
  | cons d ds ih =>
    refine le_trans ?_ (ih _)
    exact forall_update (le_max_left ..) (fun _ _ => le_rfl) sid

theorem minSv_le_applyDeltas [DecidableEq S] {minSv : S → Nat} {ds} {d : SvDeltaEntry S}
    (hd : d ∈ ds) : d.minSv ≤ applyDeltas minSv ds d.sessionId := by
  induction ds generalizing minSv with
  | nil => cases hd
  | cons e ds ih =>
    rcases mem_cons.1 hd with rfl | hd
    · refine le_trans ?_ (le_applyDeltas _ ds _)
      rw [update_self]
      exact le_max_right ..
    · exact ih hd

namespace SvSys

def goto [DecidableEq T] (s : SvSys S T) (store : SvStore S) (t : T) (c : BumpCall S) : SvSys S T :=
  { s with store, call := update s.call t c }

inductive Step [DecidableEq S] [DecidableEq T] : SvEvent T → SvSys S T → SvSys S T → Prop
  | begin {s t} (sid : S) (now : Int) (retention : Nat) : s.call t = .idle →
      Step (.begin t) s (s.goto s.store t
        (.versioned sid now retention (s.store.getVersion sid + 1)))
  | number {s t sid now retention new} : s.call t = .versioned sid now retention new →
      Step .other s (s.goto s.store t (.numbered sid now retention new s.store.nextSeq))
  | scan {s t sid now retention new seq} : s.call t = .numbered sid now retention new seq →
      Step .other s (s.goto s.store t (.expiring sid now retention new seq s.store.deltas))
  | delete {s t sid now retention new seq d rest} : s.call t =
      .expiring sid now retention new seq (d :: rest) →
      d.bumpedAt < cutoff now retention →
      Step (.delete t) s (s.goto (s.store.deleteDelta d.seq) t
        (.expiring sid now retention new seq rest))
  /-- The result of the delete is dropped. -/
  | deleteFails {s t sid now retention new seq d rest} : s.call
      t = .expiring sid now retention new seq (d :: rest) →
      d.bumpedAt < cutoff now retention →
      Step (.deleteFails t) s (s.goto s.store t (.expiring sid now retention new seq rest))
  | expired {s t sid now retention new seq entries} :
      s.call t = .expiring sid now retention new seq entries →
      (∀ d ∈ entries.head?, cutoff now retention ≤ d.bumpedAt) →
      Step .other s (s.goto s.store t
        (.ready { seq, sessionId := sid, minSv := new, bumpedAt := now }))
  | put {s t d} : s.call t = .ready d →
      Step .other s (s.goto (s.store.putBump d) t (.done d.sessionId d.minSv))
  /-- The batch is written and the call fails all the same. -/
  | putFails {s t d} : s.call t = .ready d → Step .other s (s.goto (s.store.putBump d) t .failed)
  | fail {s t} : (s.call t).Running → Step .other s (s.goto s.store t .failed)
  | snapshotSeq {s} : s.phase = .fresh →
      Step .other s { s with phase := .snapshotting s.store.currentSeq }
  | snapshot {s seq} : s.phase = .snapshotting seq →
      Step .other s { s with phase := .positioned seq, minSv := s.store.getVersion }
  | pollNothing {s since} : s.phase = .positioned since → s.store.currentSeq ≤ since →
      Step .other s { s with phase := .positioned s.store.currentSeq }
  | poll {s since} : s.phase = .positioned since → since < s.store.currentSeq →
      Step .other s { s with phase := .polling since s.store.currentSeq }
  | gone {s since seq} : s.phase = .polling since seq →
      positionGone since s.store.deltas = true → Step .other s { s with phase := .fresh }
  | covered {s since seq} : s.phase = .polling since seq →
      positionGone since s.store.deltas = false →
      Step .other s { s with phase := .paging since seq }
  | page {s since seq} (limit : Nat) : s.phase = .paging since seq → 1 ≤ limit → Step .other s
        { s with
          phase := .positioned (listPage seq since limit s.store.deltas).1
          minSv := applyDeltas s.minSv (listPage seq since limit s.store.deltas).2 }
  /-- A read of the relying party's call fails. -/
  | pollFails {s since seq} : s.phase = .polling since seq ∨ s.phase = .paging since seq →
      Step .other s { s with phase := .positioned since }
  | snapshotFails {s seq} : s.phase = .snapshotting seq → Step .other s { s with phase := .fresh }

variable (s : SvSys S T)

/-- A realm without bumps. -/
def Init : Prop :=
  s.store = { version := fun _ => none, deltas := [], seq := none } ∧ s.call = (fun _ => .idle) ∧
    s.phase = .fresh

/-- The bumps have returned, and the relying party's position is the end of the feed. -/
def CaughtUp : Prop :=
  (∀ t, ¬(s.call t).Running) ∧ ∃ since, s.phase = .positioned since ∧ s.store.currentSeq ≤ since

/-- The relying party rejects what every bump that returned `Ok` has revoked. -/
def Complete : Prop := ∀ t sid version, s.call t = .done sid version → version ≤ s.minSv sid

/-- No bump starts while another runs; deltas are deleted oldest first, never the newest, and not
between the two scans of a page. -/
def Orderly : SvEvent T → SvSys S T → Prop
  | .begin _, s => ∀ u, ¬(s.call u).Running
  | .delete t, s => (∀ since seq, s.phase ≠ .paging since seq) ∧
      ∀ sid now retention new seq d rest,
      s.call t = .expiring sid now retention new seq (d :: rest) →
        d.seq < s.store.currentSeq
  | .deleteFails _, _ => False
  | .other, _ => True

/-! ## Runs -/

/-- The relying party has taken in every delta up to `since`. -/
def Seen (log : List (SvDeltaEntry S)) (s : SvSys S T) (since : Nat) : Prop :=
  since ≤ s.store.currentSeq ∧ ∀ d ∈ log, d.seq ≤ since → d.minSv ≤ s.minSv d.sessionId

/-- `old` are the deltas that have been deleted. -/
def Reads (old : List (SvDeltaEntry S)) (s : SvSys S T) : Prop :=
  match s.phase with
  | .fresh => True
  | .snapshotting seq => seq ≤ s.store.currentSeq
  | .positioned since => Seen (old ++ s.store.deltas) s since
  | .polling since seq => Seen (old ++ s.store.deltas) s since ∧ seq ≤ s.store.currentSeq
  | .paging since seq => Seen (old ++ s.store.deltas) s since ∧ seq ≤ s.store.currentSeq ∧
      ∀ d ∈ old, d.seq ≤ since

structure Inv (old : List (SvDeltaEntry S)) (s : SvSys S T) : Prop where
  ascending : Ascending SvDeltaEntry.seq (old ++ s.store.deltas)
  bounded : ∀ d ∈ old ++ s.store.deltas, d.seq ≤ s.store.currentSeq
  newest : s.store.currentSeq = 0 ∨ ∃ d ∈ old ++ s.store.deltas, d.seq = s.store.currentSeq
  retained : s.store.deltas = [] → old = []
  stored : ∀ d ∈ old ++ s.store.deltas, d.minSv ≤ s.store.getVersion d.sessionId
  acked : ∀ t sid version, s.call t = .done sid version →
    ∃ d ∈ old ++ s.store.deltas, d.sessionId = sid ∧ d.minSv = version
  single : ∀ t u, (s.call t).Running → (s.call u).Running → t = u
  fits : ∀ t, (s.call t).Fits s.store
  reads : Reads old s

section

variable {old : List (SvDeltaEntry S)} {s : SvSys S T} {t : T} {c : BumpCall S} {d : SvDeltaEntry S}
  {phase : FeedPhase} {minSv : S → Nat}

theorem call_goto [DecidableEq T] {store} : (s.goto store t c).call = update s.call t c := rfl

theorem Inv.fitsAt (h : s.Inv old) (ht : s.call t = c) : c.Fits s.store := ht ▸ h.fits t

/-- A bump goes on without a write. -/
theorem Inv.goto [DecidableEq T] (h : s.Inv old) (hfits : c.Fits s.store)
    (hdone : ∀ sid version, c ≠ .done sid version)
    (hrunning : c.Running → ∀ u, (s.call u).Running → u = t) : (s.goto s.store t c).Inv old where
  __ := h
  acked := forall_move call_goto (fun sid _ hc => absurd hc (hdone sid _)) fun u _ => h.acked u
  single := unique_move h.single call_goto hrunning
  fits := forall_move call_goto hfits fun u _ => h.fits u

/-- The relying party goes on. -/
theorem Inv.read (h : s.Inv old) (hreads : Reads old { s with phase, minSv }) :
    Inv old { s with phase, minSv } :=
  { h with reads := hreads }

/-- While a bump runs, it is the only one. -/
theorem Inv.running_eq [DecidableEq T] (h : s.Inv old) (ht : (s.call t).Running) {store} {u : T}
    (hu : ((s.goto store t c).call u).Running) : u = t :=
  forall_move call_goto (fun _ => rfl) (fun u _ hu => h.single u t hu ht) u hu

/-- If the first delta follows `since` or comes before, no deleted one is missing. -/
theorem covers_of_not_gone (h : s.Inv old) {since}
    (hgone : positionGone since s.store.deltas = false) :
    ∀ d ∈ old, d.seq ≤ since := by
  intro d hd
  cases hdelta : s.store.deltas with
  | nil =>
    rw [h.retained hdelta] at hd
    cases hd
  | cons first rest =>
    rw [hdelta] at hgone
    have hsort := h.ascending
    rw [hdelta] at hsort
    have hlt := (pairwise_append.1 hsort).2.2 d hd first mem_cons_self
    exact Nat.lt_succ_iff.1 (hlt.trans_le (not_lt.1 (of_decide_eq_false hgone)))

theorem nextSeq_le (h : s.Inv old) {since seq limit} (hseq : seq ≤ s.store.currentSeq) :
    (listPage seq since limit s.store.deltas).1 ≤ s.store.currentSeq := by
  unfold listPage
  cases hlast : ((entriesAfter since s.store.deltas).take limit).getLast? with
  | none =>
    simp only [hlast, map_none, getD_none]
    exact hseq
  | some last =>
    simp only [hlast, map_some, getD_some]
    have hmem := mem_of_mem_take (mem_of_getLast? hlast)
    exact h.bounded last (mem_append_right _ (mem_filter.1 hmem).1)

theorem inv_init (h : Init s) : s.Inv [] := by
  obtain ⟨hstore, hcall, hphase⟩ := h
  have hdelta : [] ++ s.store.deltas = [] := by rw [hstore]; rfl
  have hnone : ∀ d, d ∉ [] ++ s.store.deltas := fun d hd => by
    rw [hdelta] at hd
    cases hd
  constructor
  · rw [hdelta]
    exact .nil
  · exact fun d hd => absurd hd (hnone d)
  · exact .inl (by rw [hstore]; rfl)
  · exact fun _ => rfl
  · exact fun d hd => absurd hd (hnone d)
  · rw [hcall]
    nofun
  · rw [hcall]
    nofun
  · rw [hcall]
    exact fun _ => trivial
  · unfold Reads
    rw [hphase]
    trivial

end

section

variable [DecidableEq S] [DecidableEq T] {old : List (SvDeltaEntry S)} {s s' : SvSys S T} {t : T}
    {c : BumpCall S}
  {d : SvDeltaEntry S} {ev : SvEvent T}

theorem getVersion_le_putBump {x : SvStore S} (h : d.minSv = x.getVersion d.sessionId + 1)
    (sid : S) :
    x.getVersion sid ≤ (x.putBump d).getVersion sid := by
  by_cases hs : sid = d.sessionId
  · subst hs
    have hnew : (x.putBump d).getVersion d.sessionId = d.minSv := by
      simp [SvStore.getVersion, SvStore.putBump]
    rw [hnew, h]
    exact Nat.le_succ _
  · have hsame : (x.putBump d).getVersion sid = x.getVersion sid := by
      simp [SvStore.getVersion, SvStore.putBump, hs]
    exact hsame.ge

/-- A newer delta is ahead of every position. -/
theorem reads_put (hlt : s.store.currentSeq < d.seq)
    (hmem : ∀ {e}, e ∈ old ++ (s.store.putBump d).deltas ↔ e ∈ old ++ s.store.deltas ∨ e = d)
    (h : Reads old s) : Reads old (s.goto (s.store.putBump d) t c) := by
  have hseen : ∀ since, Seen (old ++ s.store.deltas) s since →
      Seen (old ++ (s.store.putBump d).deltas) (s.goto (s.store.putBump d) t c) since := by
    rintro since ⟨hle, hall⟩
    refine ⟨hle.trans hlt.le, fun e he hes => ?_⟩
    rcases hmem.1 he with he | rfl
    · exact hall e he hes
    · exact absurd (hes.trans hle) (not_le_of_gt hlt)
  show Reads old { s.goto (s.store.putBump d) t c with phase := s.phase }
  unfold Reads at h ⊢
  cases hphase : s.phase with
  | fresh => trivial
  | snapshotting seq =>
    rw [hphase] at h
    exact h.trans hlt.le
  | positioned since =>
    rw [hphase] at h
    exact hseen since h
  | polling since seq =>
    rw [hphase] at h
    exact ⟨hseen since h.1, h.2.trans hlt.le⟩
  | paging since seq =>
    rw [hphase] at h
    exact ⟨hseen since h.1, h.2.1.trans hlt.le, h.2.2⟩

theorem inv_put (h : s.Inv old) (ht : s.call t = .ready d) (hc : ¬c.Running)
    (hdone : ∀ sid version, c = .done sid version → sid = d.sessionId ∧ version = d.minSv) :
    (s.goto (s.store.putBump d) t c).Inv old := by
  have hrun : (s.call t).Running := by rw [ht]; trivial
  obtain ⟨hver, hseq⟩ := h.fitsAt ht
  have hlt : s.store.currentSeq < d.seq := by rw [hseq]; exact Nat.lt_succ_self _
  have hafter : ∀ e ∈ old ++ s.store.deltas, e.seq < d.seq :=
    fun e he => lt_of_le_of_lt (h.bounded e he) hlt
  have hdelta : (s.store.putBump d).deltas = s.store.deltas ++ [d] :=
    putNumbered_last fun e he => hafter e (mem_append_right _ he)
  have hlog : old ++ (s.store.putBump d).deltas = (old ++ s.store.deltas) ++ [d] := by
    rw [hdelta, append_assoc]
  have hmem : ∀ {e}, e ∈ old ++ (s.store.putBump d).deltas ↔ e ∈ old ++ s.store.deltas ∨ e = d :=
    fun {e} => by
    rw [hlog, mem_append, mem_singleton]
  have hnone : ∀ u, ¬((s.goto (s.store.putBump d) t c).call u).Running := by
    intro u hu
    rw [h.running_eq hrun hu] at hu
    exact hc ((update_self t c s.call) ▸ hu)
  constructor
  · show Ascending _ (old ++ (s.store.putBump d).deltas)
    rw [hlog]
    exact h.ascending.concat hafter
  · intro e he
    rcases hmem.1 he with he | rfl
    · exact (hafter e he).le
    · exact le_rfl
  · exact .inr ⟨d, hmem.2 (.inr rfl), rfl⟩
  · intro hnil
    exact absurd (hdelta.symm.trans hnil) (append_ne_nil_of_right_ne_nil _ (cons_ne_nil _ _))
  · intro e he
    rcases hmem.1 he with he | rfl
    · exact (h.stored e he).trans (getVersion_le_putBump hver _)
    · simp [goto, SvStore.getVersion, SvStore.putBump]
  · intro u sid version hu
    rcases update_cases hu with ⟨-, heq⟩ | hu
    · obtain ⟨rfl, rfl⟩ := hdone sid _ heq.symm
      exact ⟨d, hmem.2 (.inr rfl), rfl, rfl⟩
    · obtain ⟨e, he, heq⟩ := h.acked u sid _ hu
      exact ⟨e, hmem.2 (.inl he), heq⟩
  · exact fun u _ hu => absurd hu (hnone u)
  · exact fun u => BumpCall.fits_of_not_running (hnone u)
  · exact reads_put hlt hmem h.reads
omit [DecidableEq S] in
/-- The feed still holds what it held. -/
theorem reads_delete (hlog : (old ++ [d]) ++ (s.store.deleteDelta d.seq).deltas = old ++
    s.store.deltas)
    (hphase : ∀ since seq, s.phase ≠ .paging since seq) (h : Reads old s) :
    Reads (old ++ [d]) (s.goto (s.store.deleteDelta d.seq) t c) := by
  have hseen : ∀ since, Seen (old ++ s.store.deltas) s since →
      Seen ((old ++ [d]) ++ (s.store.deleteDelta d.seq).deltas)
        (s.goto (s.store.deleteDelta d.seq) t c) since :=
    fun since hs => ⟨hs.1, fun e he => hs.2 e (hlog ▸ he)⟩
  show Reads (old ++ [d]) { s.goto (s.store.deleteDelta d.seq) t c with phase := s.phase }
  unfold Reads at h ⊢
  cases hp : s.phase with
  | fresh => trivial
  | snapshotting =>
    rw [hp] at h
    exact h
  | positioned since =>
    rw [hp] at h
    exact hseen since h
  | polling since seq =>
    rw [hp] at h
    exact ⟨hseen since h.1, h.2⟩
  | paging since seq => exact absurd hp (hphase since seq)

omit [DecidableEq S] in
theorem inv_delete (h : s.Inv old) {sid : S} {now : Int} {retention new seq : Nat} {rest}
    (ht : s.call t = .expiring sid now retention new seq (d :: rest))
    (hphase : ∀ since seq, s.phase ≠ .paging since seq) (hnewer : d.seq < s.store.currentSeq) :
    (s.goto (s.store.deleteDelta d.seq) t (.expiring sid now retention new seq rest)).Inv
      (old ++ [d]) := by
  obtain ⟨hver, hseq, hents⟩ := h.fitsAt ht
  have hlog : (old ++ [d]) ++ rest = old ++ s.store.deltas := by
    rw [← hents, append_assoc, singleton_append]
  have hrest : (s.store.deleteDelta d.seq).deltas = rest := by
    show deleteNumbered _ _ s.store.deltas = rest
    rw [← hents]
    refine Ascending.deleteNumbered_head ?_
    rw [hents]
    exact (pairwise_append.1 h.ascending).2.1
  have hlog' : (old ++ [d]) ++ (s.store.deleteDelta d.seq).deltas = old ++
    s.store.deltas := by rw [hrest, hlog]
  have hrun : (s.call t).Running := by rw [ht]; trivial
  constructor
  · show Ascending _ ((old ++ [d]) ++ (s.store.deleteDelta d.seq).deltas)
    rw [hlog']
    exact h.ascending
  · exact fun e he => h.bounded e (hlog' ▸ he)
  · refine h.newest.imp_right fun ⟨e, he, heq⟩ => ⟨e, ?_, heq⟩
    exact hlog'.symm ▸ he
  · intro hnil
    -- the newest delta would be the one deleted
    have hempty : rest = [] := hrest.symm.trans hnil
    rcases h.newest with hzero | ⟨e, he, heq⟩
    · rw [hzero] at hnewer
      exact absurd hnewer (Nat.not_lt_zero _)
    · have hsort := h.ascending
      rw [← hlog, hempty, append_nil] at he hsort
      rcases mem_append.1 he with hold | hd
      · have hlt := (pairwise_append.1 hsort).2.2 e hold d (mem_singleton_self d)
        exact absurd (hnewer.trans_eq heq.symm) (not_lt_of_gt hlt)
      · rw [mem_singleton.1 hd] at heq
        exact absurd heq hnewer.ne
  · exact fun e he => h.stored e (hlog' ▸ he)
  · intro u sid' version hu
    rcases update_cases hu with ⟨-, heq⟩ | hu
    · cases heq
    · obtain ⟨e, he, heq⟩ := h.acked u sid' version hu
      exact ⟨e, hlog'.symm ▸ he, heq⟩
  · exact fun u v hu hv => (h.running_eq hrun hu).trans (h.running_eq hrun hv).symm
  · intro u
    by_cases hut : u = t
    · rw [hut, show (s.goto (s.store.deleteDelta d.seq) t _).call t = _ from update_self ..]
      exact ⟨hver, hseq, hrest.symm⟩
    · exact BumpCall.fits_of_not_running fun hu => hut (h.running_eq hrun hu)
  · exact reads_delete hlog' hphase h.reads

omit [DecidableEq T] in
/-- A page takes in everything up to its `next_seq`. -/
theorem seen_page (h : s.Inv old) {since seq limit : Nat} (hphase : s.phase = .paging since seq)
    (hlimit : 1 ≤ limit) (d : SvDeltaEntry S) (hd : d ∈ old ++ s.store.deltas)
    (hle : d.seq ≤ (listPage seq since limit s.store.deltas).1) :
    d.minSv ≤ applyDeltas s.minSv (listPage seq since limit s.store.deltas).2 d.sessionId := by
  have hreads := h.reads
  unfold Reads at hreads
  rw [hphase] at hreads
  obtain ⟨⟨-, hseen⟩, -, hcover⟩ := hreads
  rcases lt_or_ge since d.seq with hnew | hold
  · -- the delta is still in the feed, so it is one of the entries the page is cut from
    have hentry : d ∈ entriesAfter since s.store.deltas := by
      rcases mem_append.1 hd with hd | hd
      · exact absurd (hcover d hd) (not_le_of_gt hnew)
      · exact mem_filter.2 ⟨hd, decide_eq_true hnew⟩
    have hsort : Ascending SvDeltaEntry.seq (entriesAfter since s.store.deltas) :=
      (pairwise_append.1 h.ascending).2.1.filter _
    refine minSv_le_applyDeltas ?_
    unfold listPage at hle ⊢
    cases hlast : ((entriesAfter since s.store.deltas).take limit).getLast? with
    | none =>
      have hnil := take_eq_nil_iff.1 (getLast?_eq_none_iff.1 hlast)
      rcases hnil with hzero | hnil
      · exact absurd hlimit (by rw [hzero]; decide)
      · rw [hnil] at hentry
        cases hentry
    | some last =>
      simp only [hlast, map_some, getD_some] at hle
      exact hsort.mem_page hlast hentry hle
  · exact (hseen d hd hold).trans (le_applyDeltas _ _ _)

theorem inv_step (h : s.Inv old) (hc : Orderly ev s) (hst : Step ev s s') : ∃ old',
    s'.Inv old' := by
  have hreads := h.reads
  unfold Reads at hreads
  cases hst with
  | begin sid now retention ht =>
    exact ⟨old, h.goto rfl nofun fun _ u hu => absurd hu (hc u)⟩
  | @number _ t sid now retention new ht =>
    exact ⟨old, h.goto ⟨h.fitsAt ht, rfl⟩ nofun fun _ u hu => h.single u t hu (by rw [ht]; trivial)⟩
  | @scan _ t sid now retention new seq ht =>
    obtain ⟨hver, hseq⟩ := h.fitsAt ht
    exact ⟨old, h.goto ⟨hver, hseq, rfl⟩ nofun fun _ u hu => h.single u t hu (by rw [ht]; trivial)⟩
  | delete ht => exact ⟨_, inv_delete h ht hc.1 (hc.2 _ _ _ _ _ _ _ ht)⟩
  | deleteFails => exact hc.elim
  | @expired _ t sid now retention new seq entries ht =>
    obtain ⟨hver, hseq, -⟩ := h.fitsAt ht
    exact ⟨old, h.goto ⟨hver, hseq⟩ nofun fun _ u hu => h.single u t hu (by rw [ht]; trivial)⟩
  | put ht =>
    refine ⟨old, inv_put h ht not_false fun sid version heq => ?_⟩
    cases heq
    exact ⟨rfl, rfl⟩
  | putFails ht => exact ⟨old, inv_put h ht not_false nofun⟩
  | fail => exact ⟨old, h.goto trivial nofun nofun⟩
  | snapshotSeq => exact ⟨old, h.read le_rfl⟩
  | snapshot hphase =>
    rw [hphase] at hreads
    exact ⟨old, h.read ⟨hreads, fun d hd _ => h.stored d hd⟩⟩
  | pollNothing hphase hle =>
    rw [hphase] at hreads
    exact ⟨old, h.read ⟨le_rfl, fun d hd hds => hreads.2 d hd (hds.trans hle)⟩⟩
  | poll hphase =>
    rw [hphase] at hreads
    exact ⟨old, h.read ⟨hreads, le_rfl⟩⟩
  | gone | snapshotFails => exact ⟨old, h.read trivial⟩
  | covered hphase hgone =>
    rw [hphase] at hreads
    exact ⟨old, h.read ⟨hreads.1, hreads.2, covers_of_not_gone h hgone⟩⟩
  | page limit hphase hlimit =>
    rw [hphase] at hreads
    exact ⟨old, h.read ⟨nextSeq_le h hreads.2.1, seen_page h hphase hlimit⟩⟩
  | pollFails hphase =>
    rcases hphase with hphase | hphase <;> rw [hphase] at hreads
    · exact ⟨old, h.read hreads.1⟩
    · exact ⟨old, h.read hreads.1⟩

/-- In every orderly run, a relying party that has caught up holds, for every session, at least the
version of each bump that returned `Ok`. -/
theorem feed_complete (h : Reachable Init (LabelledWith Step Orderly) s) (hcaught : s.CaughtUp) :
    s.Complete := by
  obtain ⟨old, hinv⟩ : ∃ old, s.Inv old :=
    h.invariant (I := fun s => ∃ old, s.Inv old) (fun _ hs => ⟨[], inv_init hs⟩)
      fun _ _ _ ⟨_, ih⟩ ⟨_, hc, hst⟩ => inv_step ih hc hst
  obtain ⟨-, since, hphase, hle⟩ := hcaught
  have hreads := hinv.reads
  unfold Reads at hreads
  rw [hphase] at hreads
  intro t sid version ht
  obtain ⟨d, hd, rfl, rfl⟩ := hinv.acked t sid _ ht
  exact hreads.2 d hd ((hinv.bounded d hd).trans hle)

end

section

/-- Three bumps, of the sessions `false` and `true`. -/
abbrev DemoSys := SvSys Bool (Fin 3)

def demoSys : DemoSys where
  store := { version := fun _ => none, deltas := [], seq := none }
  call _ := .idle
  phase := .fresh
  minSv _ := 0

/-- The relying party reads the deltas of two bumps. The third one deletes the first delta, which has
expired by then, and the relying party goes on from where it was. -/
theorem feed_complete_serial : ∃ s : DemoSys, s.call 1 = .done true 2 ∧ s.call 2 = .done false 3 ∧
    s.store.deltas.map (·.seq) = [2, 3] ∧ s.phase = .positioned 3 ∧ s.Complete := by
  have h0 : Reachable Init (LabelledWith Step Orderly) demoSys := .start ⟨rfl, rfl, rfl⟩
  have h1 := h0.take (.snapshotSeq rfl)
  have h2 := h1.take (.snapshot rfl)
  have h3 := h2.next ⟨.begin 0, fun _ => not_false, .begin false 0 60 rfl⟩
  have h4 := h3.take (.number (t := 0) rfl)
  have h5 := h4.take (.scan (t := 0) rfl)
  have h6 := h5.take (.expired (t := 0) rfl nofun)
  have h7 := h6.take (.put (t := 0) rfl)
  have h8 := h7.next ⟨.begin 1, fun
    | 0 | 1 | 2 => not_false, .begin true 50 60 rfl⟩
  have h9 := h8.take (.number (t := 1) rfl)
  have h10 := h9.take (.scan (t := 1) rfl)
  have h11 := h10.take (.expired (t := 1) rfl (by decide))
  have h12 := h11.take (.put (t := 1) rfl)
  have h13 := h12.take (.poll rfl (by decide))
  have h14 := h13.take (.covered rfl rfl)
  have h15 := h14.take (.page 10 rfl (by decide))
  have h16 := h15.next ⟨.begin 2, fun
    | 0 | 1 | 2 => not_false, .begin false 100 60 rfl⟩
  have h17 := h16.take (.number (t := 2) rfl)
  have h18 := h17.take (.scan (t := 2) rfl)
  have h19 := h18.next ⟨.delete 2, ⟨nofun, fun _ _ _ _ _ _ _ hd => by cases hd; decide⟩,
    .delete rfl (by decide)⟩
  have h20 := h19.take (.expired (t := 2) rfl (by decide))
  have h21 := h20.take (.put (t := 2) rfl)
  have h22 := h21.take (.poll rfl (by decide))
  have h23 := h22.take (.covered rfl rfl)
  have h24 := h23.take (.page 10 rfl (by decide))
  refine ⟨_, rfl, rfl, rfl, rfl, feed_complete h24 ⟨fun
    | 0 | 1 | 2 => not_false, 3, rfl, le_rfl⟩⟩

/-- Both bumps read the sequence before either writes: the second delta takes the place of the
first. The relying party polls until there is nothing new, and keeps accepting the old version of
session `false`. -/
theorem feed_misses_bump : ∃ s : DemoSys, Reachable Init (LabelledWith Step fun _ _ => True) s ∧
    s.CaughtUp ∧
    ¬s.Complete := by
  have h0 : Reachable Init (LabelledWith Step fun _ _ => True) demoSys := .start ⟨rfl, rfl, rfl⟩
  have h1 := h0.take (.snapshotSeq rfl)
  have h2 := h1.take (.snapshot rfl)
  have h3 := h2.next ⟨.begin 0, trivial, .begin false 0 60 rfl⟩
  have h4 := h3.take (.number (t := 0) rfl)
  have h5 := h4.next ⟨.begin 1, trivial, .begin true 0 60 rfl⟩
  have h6 := h5.take (.number (t := 1) rfl)
  have h7 := h6.take (.scan (t := 0) rfl)
  have h8 := h7.take (.scan (t := 1) rfl)
  have h9 := h8.take (.expired (t := 0) rfl nofun)
  have h10 := h9.take (.expired (t := 1) rfl nofun)
  have h11 := h10.take (.put (t := 0) rfl)
  have h12 := h11.take (.put (t := 1) rfl)
  have h13 := h12.take (.poll rfl (by decide))
  have h14 := h13.take (.covered rfl rfl)
  have h15 := h14.take (.page 10 rfl (by decide))
  have h16 := h15.take (.pollNothing rfl (by decide))
  refine ⟨_, h16, ⟨fun
    | 0 | 1 | 2 => not_false, 1, rfl, le_rfl⟩, fun hcompl => ?_⟩
  exact absurd (hcompl 0 _ 2 rfl) (by decide)

end

end SvSys

end Hearth.Identity
