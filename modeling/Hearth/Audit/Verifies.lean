import Hearth.Audit.Engine

/-!
# An untampered log verifies

The rows, the persisted head and the cached head agree in every state of a run in which

* an append's clock reading is no earlier than any live event, and a chunk that others
  interleaved with is stamped no earlier either,
* no reading and no archived time is before 1970, and
* no call makes an HMAC key while another is about to write one.

Then the verification of a quiet engine succeeds.
-/

namespace Hearth.Audit

open Base List ImportRun Option

section

variable {Key Action : Type} {C : Crates Key Action} {rows rows' : AuditRows Key Action}
  {run : ImportRun Key Action} {head : ChainHead} {key : Key} {now : Timestamp}
  {fenced : Bool}

/-! ## What a call relies on -/

/-- An import's last chunk, as long as no other writer moved the head, holds the latest events.
A fenced store takes no further chunk. -/
structure ImportOk (fenced : Bool) (rows : AuditRows Key Action) (run : ImportRun Key Action) :
    Prop where
  key : rows.key = some run.key
  sound : run.Sound
  follows : fenced = false → ∀ seq, run.ourSeq = some seq →
    ∃ head, rows.head = some head ∧ seq ≤ head.seq ∧
    (head.seq = seq → run.Follows run.rest rows.events)

def KeyPhase.Ok (rows : AuditRows Key Action) : KeyPhase Key → Prop
  | .wanted | .missed => True
  | .minting _ => rows.key = none
  | .caching key | .held key => rows.key = some key

def AuditJob.Ok : AuditJob Action → Prop
  | .append _ | .prune _ => True
  | .importing _ events => ∀ e ∈ events, 0 ≤ e.timestamp

def AuditCall.Ok (fenced : Bool) (rows : AuditRows Key Action) : AuditCall Key Action → Prop
  | .idle | .pruning _ | .rollingBack => True
  | .keying job phase => job.Ok ∧ phase.Ok rows
  | .importing run => ImportOk fenced rows run
  | .syncing after => rows.head ≠ none ∧ ∀ run ∈ after, ImportOk fenced rows run

/-- The rows of a later state: the key stays, and the head stays or moves on. -/
structure Later (rows rows' : AuditRows Key Action) : Prop where
  key : rows'.key = rows.key
  head : ∀ head, rows.head = some head → ∃ head', rows'.head = some head' ∧ head.seq ≤ head'.seq ∧
    (head'.seq = head.seq → rows'.events ⊆ rows.events)

theorem Later.refl (rows : AuditRows Key Action) : Later rows rows where
  key := rfl
  head head h := ⟨head, h, le_rfl, fun _ => .refl _⟩

theorem ImportOk.later (h : ImportOk fenced rows run) (hlater : Later rows rows') :
    ImportOk fenced rows' run where
  key := hlater.key.trans h.key
  sound := h.sound
  follows hopen seq hseq := by
    obtain ⟨head, hhead, hle, hfoll⟩ := h.follows hopen seq hseq
    obtain ⟨head', hhead', hle', hsub⟩ := hlater.head head hhead
    refine ⟨head', hhead', hle.trans hle', fun heq => ?_⟩
    -- the head has not moved, so neither has it since the import's last chunk
    have hsame : head.seq = seq := le_antisymm (heq ▸ hle') hle
    exact (hfoll hsame).mono (.refl _) (hsub (heq.trans hsame.symm))

theorem ImportOk.fence (h : ImportOk fenced rows run) : ImportOk true rows run :=
  ⟨h.key, h.sound, nofun⟩

variable {call : AuditCall Key Action} {chunk : Chunk Action}

section

variable (h : call.Ok fenced rows)

include h

theorem AuditCall.Ok.fence : call.Ok true rows := by
  cases call with
  | idle | pruning | rollingBack => trivial
  | importing run => exact .fence h
  | syncing after => exact ⟨h.1, fun run hrun => (h.2 run hrun).fence⟩
  | keying job phase => exact h

theorem AuditCall.Ok.later (hlater : Later rows rows') : call.Ok fenced rows' := by
  cases call with
  | idle | pruning | rollingBack => trivial
  | importing run => exact .later h hlater
  | syncing after =>
    refine ⟨fun hnone => ?_, fun run hrun => (h.2 run hrun).later hlater⟩
    obtain ⟨head, hhead⟩ := ne_none_iff_exists'.1 h.1
    obtain ⟨head', hhead', -⟩ := hlater.head head hhead
    cases hnone.symm.trans hhead'
  | keying job phase =>
    refine ⟨h.1, ?_⟩
    have hphase := h.2
    cases phase with
    | wanted | missed => trivial
    | minting | caching | held => exact hlater.key.trans hphase

/-! ## The invariant -/

structure RowsOk (C : Crates Key Action) (rows : AuditRows Key Action) : Prop where
  headless : rows.head = none → rows.events = [] ∧ rows.established = false
  chained : ∀ head, rows.head = some head →
    ∃ key, rows.key = some key ∧ Chained C key rows.events head

def AuditCall.Mints (call : AuditCall Key Action) : Prop :=
    ∃ job key, call = .keying job (.minting key)

/-- Where there is no key yet, a call that is not about to write one relies on none. -/
theorem AuditCall.Ok.setKey (hnone : rows.key = none)
    (hmint : ¬ call.Mints) : call.Ok fenced (rows.setKey key) := by
  cases call with
  | idle | pruning | rollingBack => trivial
  | importing run => cases hnone.symm.trans (ImportOk.key h)
  | syncing after => exact ⟨h.1, fun run hrun => by cases hnone.symm.trans (h.2 run hrun).key⟩
  | keying job phase =>
    have hphase := h.2
    cases phase with
    | wanted | missed => trivial
    | minting key => exact absurd ⟨job, key, rfl⟩ hmint
    | caching | held => cases hnone.symm.trans hphase

end

structure AuditEngine.Inv (C : Crates Key Action) (s : AuditEngine Key Action) : Prop where
  rows : RowsOk C s.rows
  cached : s.fenced = false → ∀ head, s.cached = some head → s.rows.head = some head
  keyCache : ∀ key, s.keyCache = some key → s.rows.key = some key
  calls : ∀ id, (s.calls id).Ok s.fenced s.rows
  oneMint : ∀ id id', (s.calls id).Mints → (s.calls id').Mints → id = id'

/-- What the run is asked for: clocks that do not go back behind the log, times from 1970 on,
no two keys made at once, and no flush that fails after a prune that leaves a head cached. -/
def AuditEngine.Orderly : AuditMove Key Action → AuditEngine Key Action → Prop
  | .appendAt now, s => 0 ≤ now ∧ NoLater s.rows.events now
  | .importOf events, _ => ∀ e ∈ events, 0 ≤ e.timestamp
  | .importFrom now, _ => 0 ≤ now
  | .chunkAt run now, s => NoLater s.rows.events (max run.stamp now)
  | .mint, s => ∀ id, ¬ (s.calls id).Mints
  | .pruneFails fence, s => fence = true ∨ s.cached = none
  | .other, _ => True

theorem RowsOk.currentHead {cached} (h : RowsOk C rows) (hkey : rows.key = some key)
    (hcache : ∀ head, cached = some head → rows.head = some head)
    (hhead : currentHead C key rows cached = .ok head) :
    Chained C key rows.events head ∧ ∀ head', rows.head = some head' → head' = head := by
  have persisted : rows.head = some head → Chained C key rows.events head := by
    intro hrow
    obtain ⟨key', hkey', hchained⟩ := h.chained head hrow
    cases hkey'.symm.trans hkey
    exact hchained
  cases cached with
  | some head' =>
    cases hhead
    have hrow := hcache _ rfl
    exact ⟨persisted hrow, fun head' h' => some.inj (h'.symm.trans hrow)⟩
  | none =>
    cases hrow : rows.head with
    | none =>
      obtain ⟨hevs, -⟩ := h.headless hrow
      rw [Audit.currentHead, loadOrInitHead, hrow] at hhead
      cases hhead
      rw [hevs]
      exact ⟨chained_genesis key, nofun⟩
    | some head' =>
      obtain ⟨key', hkey', hchained⟩ := h.chained _ hrow
      cases hkey'.symm.trans hkey
      rw [Audit.currentHead, loadOrInitHead, hrow, hchained.loaded] at hhead
      cases hhead
      exact ⟨hchained, fun _ h' => (some.inj h').symm⟩

/-! ## Imports -/

variable {events : List (AuditEvent Action)} {head' : ChainHead} {new : List (AuditRow Action)}

theorem pairwise_of_ascending (h : ascending events = true) :
    events.Pairwise (·.timestamp ≤ ·.timestamp) := by
  refine isChain_iff_pairwise.1 ?_
  induction events with
  | nil => exact .nil
  | cons first events ih =>
    cases events with
    | nil => exact .singleton _
    | cons second events =>
      rw [ascending, Bool.and_eq_true, decide_eq_true_eq] at h
      exact .cons_cons h.1 (ih h.2)

theorem importOk_begin {realmId}
    (hkey : rows.key = some key) (hevs : ∀ e ∈ events, 0 ≤ e.timestamp) (hnow : 0 ≤ now) :
    ImportOk fenced rows (.begin realmId key events rows.events now) where
  key := hkey
  sound := {
    stamp := by
      rw [begin]
      cases newestTimestamp rows.events with
      | none => exact hnow
      | some newest => exact Int64.le_trans hnow (Timestamp.le_max_right ..)
    times := hevs
    ordered := fun hre => by
      rw [begin, Bool.or_eq_false_iff, Bool.not_eq_false'] at hre
      exact pairwise_of_ascending hre.1 }
  follows := nofun

theorem ImportRun.Sound.stampedAt (h : run.Sound) : (run.stampedAt head now).Sound := by
  rw [ImportRun.stampedAt]
  split
  case isTrue => exact ⟨Int64.le_trans h.stamp (Timestamp.le_max_left ..), h.times, nofun⟩
  case isFalse => exact h

theorem ImportRun.Sound.skipped (h : run.Sound) : (run.skipped chunk).Sound where
  stamp := h.stamp
  times e he := h.times e (mem_of_mem_drop he)
  ordered hre := (h.ordered hre).sublist (drop_sublist ..)

theorem ImportRun.Sound.wrote (h : run.Sound) : (run.wrote chunk).Sound := by
  have hskip : (run.skipped chunk).Sound := h.skipped
  exact { hskip with }

section

variable (run : ImportRun Key Action) (head : ChainHead) (now : Timestamp)

theorem key_stampedAt : (run.stampedAt head now).key = run.key := by
  rw [stampedAt]
  split <;> rfl

theorem rest_stampedAt : (run.stampedAt head now).rest = run.rest := by
  rw [stampedAt]
  split <;> rfl

theorem ourSeq_stampedAt : (run.stampedAt head now).ourSeq = run.ourSeq := by
  rw [stampedAt]
  split <;> rfl

end

theorem ImportOk.skippedFenced (h : ImportOk fenced rows run) :
    ImportOk true rows ((run.stampedAt head now).skipped chunk) where
  key := h.key.trans (congrArg some (key_stampedAt run head now).symm)
  sound := h.sound.stampedAt.skipped
  follows := nofun

/-! The rows have the head that the next chunk continues, and the clock is not behind them. -/

section

variable (h : ImportOk false rows run) (hchained : Chained C run.key rows.events head)
  (hhead : ∀ head', rows.head = some head' → head' = head)
  (hnow : NoLater rows.events (max run.stamp now))

include h hchained hhead hnow

/-- Where others wrote since, the stamp is raised over the log; otherwise the log ends with
the import's own events. -/
theorem ImportOk.follows_stampedAt : (run.stampedAt head now).Follows run.rest rows.events := by
  rw [stampedAt]
  split
  case isTrue => exact ⟨fun _ => hnow, nofun⟩
  case isFalse hinter =>
    rw [interleaved] at hinter
    cases hseq : run.ourSeq with
    | none =>
      rw [hseq] at hinter
      have hcount : head.count = 0 := by simpa using hinter
      have hnil : rows.events = [] := length_eq_zero_iff.1 (hchained.counted.trans hcount)
      rw [hnil]
      exact ⟨fun _ => nofun, fun _ _ _ => nofun⟩
    | some seq =>
      rw [hseq] at hinter
      obtain ⟨head', hrow, -, hfoll⟩ := h.follows rfl seq hseq
      rw [hhead _ hrow] at hfoll
      exact hfoll (by simpa using hinter)

theorem ImportOk.skipped (chunk : Chunk Action) :
    ImportOk false rows ((run.stampedAt head now).skipped chunk) where
  key := h.key.trans (congrArg some (key_stampedAt run head now).symm)
  sound := h.sound.stampedAt.skipped
  follows _ seq hseq := by
    obtain ⟨head', hrow, hle, -⟩ :=
      h.follows rfl seq ((ourSeq_stampedAt run head now).symm.trans hseq)
    have hfoll := h.follows_stampedAt hchained hhead hnow
    refine ⟨head', hrow, hle, fun _ => ⟨hfoll.restamped, fun hre e he => ?_⟩⟩
    rw [ImportRun.skipped, rest_stampedAt] at he
    exact hfoll.kept hre e (mem_of_mem_drop he)

theorem ImportOk.chunkOk :
    ChunkOk C (run.stampedAt head now) rows.events head.seq (run.rest.drop importChunk)
      ((run.stampedAt head now).chunk C head) := by
  have hfoll := h.follows_stampedAt hchained hhead hnow
  rw [← rest_stampedAt run head now] at hfoll ⊢
  rw [← key_stampedAt run head now] at hchained
  exact h.sound.stampedAt.chunkOk hchained hfoll

theorem ImportOk.wrote : ImportOk false (rows.extend ((run.stampedAt head now).chunk C head).rows
        ((run.stampedAt head now).chunk C head).head)
      ((run.stampedAt head now).wrote ((run.stampedAt head now).chunk C head)) where
  key := h.key.trans (congrArg some (key_stampedAt run head now).symm)
  sound := h.sound.stampedAt.wrote
  follows _ seq hseq := by
    cases hseq
    have hfoll := (h.chunkOk hchained hhead hnow).follows
    refine ⟨_, rfl, le_rfl, fun _ => ⟨hfoll.restamped, ?_⟩⟩
    rw [ImportRun.wrote, ImportRun.skipped, rest_stampedAt]
    exact hfoll.kept

end

/-! ## Writes -/

theorem Later.extend (hhead : ∀ old, rows.head = some old → old = head)
    (hseq : head.seq < head'.seq) :
    Later rows (rows.extend new head') where
  key := rfl
  head old hold := by
    rw [hhead old hold]
    exact ⟨head', rfl, hseq.le, fun heq => absurd heq hseq.ne'⟩

theorem rowsOk_extend (hkey : rows.key = some key)
    (h : Chained C key (new.foldl putEvent rows.events) head) :
    RowsOk C (rows.extend new head) where
  headless := nofun
  chained _ hhead := ⟨key, hkey, some.inj hhead ▸ h⟩

/-! ## Updates of the engine -/

namespace AuditEngine

variable {s t : AuditEngine Key Action} {id : Nat} {call : AuditCall Key Action}

theorem calls_setCall : (s.setCall id call).calls = Function.update s.calls id call := rfl

section

variable (I : s.Inv C)

include I

theorem Inv.setCall (hcall : call.Ok s.fenced s.rows) (hmint : ¬ call.Mints) :
    (s.setCall id call).Inv C where
  __ := I
  calls := forall_move calls_setCall hcall fun x _ => I.calls x
  oneMint := unique_move I.oneMint calls_setCall fun h => absurd h hmint

theorem Inv.setMinting {job} (hjob : job.Ok) (hnone : s.rows.key = none)
    (hmint : ∀ x, ¬ (s.calls x).Mints) : (s.setCall id (.keying job (.minting key))).Inv C where
  __ := I
  calls := forall_move calls_setCall ⟨hjob, hnone⟩ fun x _ => I.calls x
  oneMint := unique_move I.oneMint calls_setCall fun _ x hx => absurd hx (hmint x)

theorem Inv.lockChain : (s.lockChain id).Inv C :=
  { I with }

theorem Inv.unlockChain : (s.unlockChain id).Inv C :=
  { I with }

theorem Inv.lockImports : (s.lockImports id).Inv C :=
  { I with }

theorem Inv.dropCached : (s.setCached none).Inv C :=
  { I with cached := nofun }

theorem Inv.fence (fence : Bool) : (s.fence fence).Inv C := by
  cases fence with
  | true => exact { I with cached := nofun, calls := fun x => (I.calls x).fence }
  | false => exact I

theorem Inv.setKeyCache (hkey : s.rows.key = some key) : (s.setKeyCache key).Inv C :=
  { I with keyCache := fun _ h => some.inj h ▸ hkey }

theorem Inv.finish : (s.finish id).Inv C := by
  have hidle : ((s.unlockChain id).setCall id .idle).Inv C := I.unlockChain.setCall trivial nofun
  exact { hidle with }

theorem Inv.setKey (hmints : (s.calls id).Mints) (hnone : s.rows.key = none)
    (hcall : call.Ok s.fenced (s.rows.setKey key)) (hmint : ¬ call.Mints) :
    ((s.setRows (s.rows.setKey key)).setCall id call).Inv C where
  rows := ⟨I.rows.headless, fun head hhead => by
    obtain ⟨key', hkey', -⟩ := I.rows.chained head hhead
    cases hnone.symm.trans hkey'⟩
  cached := I.cached
  keyCache key' hkey' := by cases hnone.symm.trans (I.keyCache key' hkey')
  calls := forall_move calls_setCall hcall fun x hne =>
    (I.calls x).setKey hnone fun hx => hne (I.oneMint x id hx hmints)
  oneMint := unique_move I.oneMint calls_setCall fun h => absurd h hmint

theorem Inv.write (hlater : Later s.rows rows) (hrows : RowsOk C rows) :
    ((s.setRows rows).setCached rows.head).Inv C where
  rows := hrows
  cached _ _ h := h
  keyCache key hkey := hlater.key.trans (I.keyCache key hkey)
  calls x := (I.calls x).later hlater
  oneMint := I.oneMint

theorem Inv.recordAnchor {recorded} (hhead : s.rows.head ≠ none) :
    (s.recordAnchor recorded).Inv C where
  __ := I
  rows := ⟨fun h => absurd h hhead, I.rows.chained⟩
  calls x := (I.calls x).later ⟨rfl, fun head h => ⟨head, h, le_rfl, fun _ => .refl _⟩⟩

end

/-! ## Runs -/

theorem init_inv (h : Init s) : s.Inv C := by
  subst h
  exact ⟨⟨fun _ => ⟨rfl, rfl⟩, nofun⟩, nofun, nofun, fun _ => trivial, nofun⟩

section

variable (I : s.Inv C)

include I

theorem Inv.callOk (h : s.calls id = call) : call.Ok s.fenced s.rows := h ▸ I.calls id

section

variable (hkey : s.rows.key = some key) (hopen : s.fenced = false)
  (hhead : currentHead C key s.rows s.cached = .ok head)

include hkey hopen hhead

theorem Inv.append {event} (hnow : 0 ≤ event.timestamp)
    (hlater : NoLater s.rows.events event.timestamp) :
    (s.appended C key head event).Inv C := by
  obtain ⟨hchained, hrow⟩ := I.rows.currentHead hkey (I.cached hopen) hhead
  exact I.write (.extend hrow (Nat.lt_succ_self _))
    (rowsOk_extend hkey (hchained.chainEvent hnow hlater))

theorem Inv.prunedOk {range : PruneRange} :
    Later s.rows (s.pruned C range key head).rows ∧ RowsOk C (s.pruned C range key head).rows := by
  obtain ⟨hchained, hrow⟩ := I.rows.currentHead hkey (I.cached hopen) hhead
  -- the rows of a batch are the first ones
  have hents : range.entries s.rows.events <+: s.rows.events :=
    ( take_prefix _ _).trans ( takeWhile_prefix _)
  have hplanned := hchained.planPrune (prefix_iff_eq_append.1 hents).symm
  refine ⟨⟨rfl, fun old hold => ?_⟩, nofun, fun _ hhead => ⟨key, hkey, some.inj hhead ▸ hplanned⟩⟩
  rw [hrow old hold]
  exact ⟨_, rfl, le_rfl, fun _ => drop_subset ..⟩

end

theorem Inv.writeChunk (hrun : ImportOk false s.rows run) (hopen : s.fenced = false)
    (hhead : currentHead C run.key s.rows s.cached = .ok head)
    (hnow : NoLater s.rows.events (max run.stamp now))
    (hne : ((run.stampedAt head now).chunk C head).rows ≠ []) :
    (s.written ((run.stampedAt head now).chunk C head)).Inv C := by
  obtain ⟨hchained, hrow⟩ := I.rows.currentHead hrun.key (I.cached hopen) hhead
  have hchunk := hrun.chunkOk hchained hrow hnow
  have hseq : head.seq < ((run.stampedAt head now).chunk C head).head.seq := by
    rw [hchunk.numbered]
    exact Nat.lt_add_of_pos_right (length_pos_iff.2 hne)
  have hkey : s.rows.key = some (run.stampedAt head now).key := by
    rw [key_stampedAt]
    exact hrun.key
  exact I.write (.extend hrow hseq) (rowsOk_extend hkey hchunk.chained)

theorem Inv.step {move} (hord : Orderly move s) (h : Step C move s t) : t.Inv C := by
  cases h with
  | beginAppend | pruneVisit => exact I.lockChain.setCall ⟨trivial, trivial⟩ nofun
  | beginImport => exact I.lockImports.setCall ⟨hord, trivial⟩ nofun
  | beginPrune => exact I.setCall trivial nofun
  | keyHit _ hcall hkey => exact I.setCall ⟨(I.callOk hcall).1, I.keyCache _ hkey⟩ nofun
  | keyMiss _ hcall => exact I.setCall ⟨(I.callOk hcall).1, trivial⟩ nofun
  | keyRead _ hcall hkey => exact I.setCall ⟨(I.callOk hcall).1, hkey⟩ nofun
  | keyMint _ key hcall hnone => exact I.setMinting (I.callOk hcall).1 hnone hord
  | keyPut _ hcall =>
    obtain ⟨hjob, hnone⟩ := I.callOk hcall
    exact I.setKey ⟨_, _, hcall⟩ hnone ⟨hjob, rfl⟩ nofun
  | @keyPutFails _ id job key fence hcall =>
    obtain ⟨hjob, hnone⟩ := I.callOk hcall
    have hset : ((s.setRows (s.rows.setKey key)).setCall id .idle).Inv C :=
      I.setKey ⟨_, _, hcall⟩ hnone trivial nofun
    have hfence := hset.fence fence
    cases fence with
    | _ => exact { hfence with }
  | keyCached _ hcall =>
    obtain ⟨hjob, hkey⟩ := I.callOk hcall
    exact (I.setKeyCache hkey).setCall ⟨hjob, hkey⟩ nofun
  | giveUp => exact I.finish
  | @append _ id request key head eventId now hcall hopen hhead =>
    have happ : (s.appended C key head (request.toEvent eventId now)).Inv C :=
      I.append (I.callOk hcall).2 hopen hhead hord.1 hord.2
    exact happ.unlockChain.setCall ⟨nofun, nofun⟩ nofun
  | enqueueFails | chunkFails | rollback => exact I.dropCached.finish
  | importStart _ now hcall =>
    obtain ⟨hjob, hkey⟩ := I.callOk hcall
    exact I.setCall (importOk_begin hkey hjob hord) nofun
  | chunkWritten _ now hcall _ _ hopen hhead hne =>
    have hrun := hopen ▸ I.callOk hcall
    obtain ⟨hchained, hrow⟩ := I.rows.currentHead hrun.key (I.cached hopen) hhead
    refine (I.writeChunk hrun hopen hhead hord hne).setCall ⟨nofun, ?_⟩ nofun
    rintro _ ⟨⟩
    exact hopen ▸ hrun.wrote hchained hrow hord
  | chunkSkipped _ now hcall _ _ hhead =>
    refine I.setCall ?_ nofun
    have hrun := I.callOk hcall
    cases hopen : s.fenced with
    | true => exact hrun.skippedFenced
    | false =>
      obtain ⟨hchained, hrow⟩ := I.rows.currentHead hrun.key (I.cached hopen) hhead
      exact (hopen ▸ hrun).skipped hchained hrow hord _
  | importEnds => exact I.finish
  | synced _ recorded hcall => exact (I.recordAnchor (I.callOk hcall).1).finish
  | chunkSynced _ recorded hcall =>
    obtain ⟨hhead, hrun⟩ := I.callOk hcall
    have hlater : Later s.rows (s.recordAnchor recorded).rows :=
      ⟨rfl, (Later.refl _).head⟩
    exact (I.recordAnchor hhead).setCall ((hrun _ rfl).later hlater) nofun
  | syncFails => exact (I.fence _).setCall trivial nofun
  | pruneNothing => exact I.finish
  | @prune _ id range key head hcall hopen hhead =>
    obtain ⟨hlater, hrows⟩ := I.prunedOk (I.callOk hcall).2 hopen hhead
    refine (I.write hlater hrows).unlockChain.setCall ?_ ?_
    · cases range.next _ <;> trivial
    · cases range.next _ <;> exact nofun
  | pruneFails _ fence hcall hopen hhead =>
    obtain ⟨hlater, hrows⟩ := I.prunedOk (I.callOk hcall).2 hopen hhead
    have W := (I.write hlater hrows).fence fence
    cases fence with
    | true => exact finish { W with cached := nofun }
    | false =>
      have hnone : s.cached = none := hord.resolve_left nofun
      exact finish { W with cached := fun _ head hhead => nomatch hnone.symm.trans hhead }
  | peek hkey => exact I.setKeyCache hkey

end

/-! ## Verification -/

theorem Inv.peeked (I : s.Inv C) : s.keyCache.or s.rows.key = s.rows.key := by
  cases hkey : s.keyCache with
  | none => rfl
  | some key => exact (I.keyCache key hkey).symm

theorem inv_of_reachable (h : Reachable Init (LabelledWith (Step C) Orderly) s) : s.Inv C :=
  h.preserves init_inv fun I => I.step

/-- The texts of objects whose strings need no escapes, and an HMAC without collisions. -/
def sampleCrates : Crates Unit Unit where
  sign _ text := text.toByteArray.data.toList
  text
    | .object fields => "\x7b" ++
        .intercalate "," (fields.map fun f => s!"\"{f.1}\":{sampleLeaf f.2}") ++ "\x7d"
    | value => sampleLeaf value
  actionName _ := "UserCreated"
where
  sampleLeaf : Json → String
    | .int value => toString value
    | .string text => s!"\"{text}\""
    | _ => "null"

theorem sampleCrates_sign : Function.Injective (sampleCrates.sign ()) := by
  intro a b h
  exact String.toByteArray_inj.1 (ByteArray.ext (Array.toList_inj.1 h))

theorem sampleCrates_braced : Braced sampleCrates := fun _ => ⟨_, String.append_assoc ..⟩

def sampleRealm : RealmId := .nil

def sampleRequest : CreateAuditEvent Unit := ⟨sampleRealm, "system", (), "user", "u1", none⟩

def sampleId (n : UInt8) : AuditEventId := ⟨replicate 16 n, length_replicate⟩

/-- Between two calls, with the given rows and the head cached. -/
structure Resting (s : AuditEngine Key Action) (rows : AuditRows Key Action) (key : Key)
    (head : ChainHead) :
    Prop where
  quiet : s.Quiet
  unlocked : s.chainLock = none
  unfenced : s.fenced = false
  keyCache : s.keyCache = some key
  cached : s.cached = some head
  rows : s.rows = rows

/-- The rows after a durable append. -/
def withEvent (rows : AuditRows Key Action)
    (chained : AuditRow Action × ChainHead) : AuditRows Key Action :=
  { rows.extend [chained.1] chained.2 with established := true }

theorem Resting.append {cond}
    (hs : Reachable Init (LabelledWith (Step C) cond) s) (h : s.Resting rows key head)
    (hother : ∀ s, cond .other s) (request : CreateAuditEvent Action) (eventId : AuditEventId)
    (now) (hnow : ∀ t : AuditEngine Key Action, t.rows = rows → cond (.appendAt now) t) :
    ∃ t, Reachable Init (LabelledWith (Step C) cond) t ∧
      t.Resting (withEvent rows (chainEvent C key head (request.toEvent eventId now))) key
        (chainEvent C key head (request.toEvent eventId now)).2 := by
  have h1 := hs.next ⟨_, hother _, .beginAppend 0 request (h.quiet 0) h.unlocked⟩
  have h2 := h1.next ⟨_, hother _, .keyHit 0 rfl h.keyCache⟩
  have hhead : currentHead C key s.rows s.cached = .ok head := by
    rw [h.cached]
    rfl
  have h3 := h2.next ⟨_, hnow _ h.rows, .append 0 eventId now rfl h.unfenced hhead⟩
  have h4 := h3.next ⟨_, hother _, .synced 0 true rfl fun _ => h.unfenced⟩
  refine ⟨_, h4, fun id => ?_, rfl, h.unfenced, h.keyCache, rfl, ?_⟩
  · cases id with
    | zero => rfl
    | succ n => exact h.quiet _
  · rw [← h.rows]
    exact congrArg (AuditRows.mk _ _ _) (Bool.or_true _)

def sampleFirst (first : Timestamp) : AuditRow Unit × ChainHead :=
  chainEvent sampleCrates () (signedHead sampleCrates () genesisHash genesisHash 0 0)
    (sampleRequest.toEvent (sampleId 1) first)

def sampleSecond (first second : Timestamp) : AuditRow Unit × ChainHead :=
  chainEvent sampleCrates () (sampleFirst first).2 (sampleRequest.toEvent (sampleId 2) second)

/-- The first append of a realm, which makes its key. -/
theorem one_append (cond : AuditMove Unit Unit → AuditEngine Unit Unit → Prop) (first)
    (hother : ∀ s, cond .other s) (hmint : ∀ s, (∀ id, ¬ (s.calls id).Mints) → cond .mint s)
    (hfirst : ∀ s, s.rows.events = [] → cond (.appendAt first) s) :
    ∃ s, Reachable Init (LabelledWith (Step sampleCrates) cond) s ∧
      s.Resting ⟨[(sampleFirst first).1], some (sampleFirst first).2, some (), true⟩ ()
        (sampleFirst first).2 := by
  have h0 : Reachable Init (LabelledWith (Step sampleCrates) cond) _ := .start rfl
  have h1 := h0.next ⟨_, hother _, .beginAppend 0 sampleRequest rfl rfl⟩
  have h2 := h1.next ⟨_, hother _, .keyMiss 0 rfl rfl⟩
  have h3 := h2.next ⟨_, hmint _ (by rintro (_ | id) ⟨_, _, h⟩ <;> cases h), .keyMint 0 () rfl rfl⟩
  have h4 := h3.next ⟨_, hother _, .keyPut 0 rfl rfl⟩
  have h5 := h4.next ⟨_, hother _, .keyCached 0 rfl⟩
  have h6 := h5.next ⟨_, hfirst _ rfl, .append 0 (sampleId 1) _ rfl rfl rfl⟩
  have h7 := h6.next ⟨_, hother _, .synced 0 true rfl fun _ => rfl⟩
  refine ⟨_, h7, fun id => ?_, rfl, rfl, rfl, rfl, rfl⟩
  cases id <;> rfl

theorem orderly_first {s : AuditEngine Unit Unit} (h : s.rows.events = []) :
    Orderly (.appendAt 5) s :=
  ⟨by decide, h ▸ nofun⟩

end AuditEngine

end

end Hearth.Audit
