import Hearth.Audit.Chain

/-!
# Logs that agree with their head

`Chained` is what the head row says of the event rows: read in key order they form the
chain from its anchor to its last hash, and it counts them. An appended event, an imported
chunk and a prune keep it, as long as a written event is no earlier than any event there.
-/

namespace Hearth.Audit

open Base List

variable (a b : Timestamp)

theorem Timestamp.max_eq : max a b = if a ≤ b then b else a := rfl

theorem Timestamp.le_max_left : a ≤ max a b := by
  rw [max_eq]
  split
  case isTrue h => exact h
  case isFalse => exact Int64.le_refl a

theorem Timestamp.le_max_right : b ≤ max a b := by
  rw [max_eq]
  split
  case isTrue => exact Int64.le_refl b
  case isFalse h => exact (Int64.le_total a b).resolve_left h

/-- The text does not hold the character a JSON object starts with. -/
def Plain (hash : String) : Prop := '\x7b' ∉ hash.toList

section

variable {Key Action : Type} {C : Crates Key Action}

variable (key : Key)

theorem plain_computeHmacHash (prevHash : String) (event) :
    Plain (computeHmacHash C key prevHash event) :=
  notMem_hexEncode (by decide) _

theorem plain_genesisHash : Plain genesisHash := by
  rw [Plain]
  decide

/-- JSON objects are written with an opening brace. -/
def Braced (C : Crates Key Action) : Prop := ∀ fields, ∃ rest, C.text (.object fields) = "\x7b" ++ rest

/-- The text that is hashed tells where the hash before it ends. -/
theorem hashed_unique {p q e f} (hbraced : Braced C) (hp : Plain p)
    (hq : Plain q) (h : hashed C p e = hashed C q f) :
    p = q ∧ C.text (hashable C e) = C.text (hashable C f) := by
  obtain ⟨r, hr⟩ : ∃ r, C.text (hashable C e) = "\x7b" ++ r := hbraced _
  obtain ⟨s, hs⟩ : ∃ s, C.text (hashable C f) = "\x7b" ++ s := hbraced _
  rw [hashed, hashed, hr, hs, ← String.toList_inj] at h
  simp only [String.toList_append] at h
  obtain ⟨hpq, hrest⟩ := append_cons_unique hp hq h
  refine ⟨String.toList_injective hpq, ?_⟩
  rw [hr, hs, String.toList_injective hrest]

theorem genesisHash_ne (prevHash : String) (event) :
    genesisHash ≠ computeHmacHash C key prevHash event := by
  intro h
  have hmem : 'g' ∈ genesisHash.toList := by decide
  rw [h] at hmem
  exact notMem_hexEncode (by decide) _ hmem

theorem loadHead_signedHead (anchor lastHash : String) (seq count : Nat) :
    loadHead C key (some (signedHead C key anchor lastHash seq count)) =
      .ok (some (signedHead C key anchor lastHash seq count)) := by
  simp [loadHead, signedHead, computeHeadMac, hexDecode_hexEncode]

variable {row : AuditRow Action} {head : ChainHead} {key : Key}

/-- A row whose time and number are no less than any there goes to the end. -/
theorem putEvent_last {rows} (h : ∀ r ∈ rows, ¬ row.Before r) : putEvent rows row = rows ++ [row] := by
  induction rows with
  | nil => rfl
  | cons r rows ih =>
    rw [putEvent, orderedInsert, if_neg (h r mem_cons_self)]
    exact congrArg (r :: ·) (ih fun r' hr' => h r' (mem_cons_of_mem _ hr'))

/-! ## Agreement of rows and head -/

structure Chained (C : Crates Key Action) (key : Key) (rows : List (AuditRow Action))
    (head : ChainHead) : Prop where
  signed : head = signedHead C key head.anchor head.lastHash head.seq head.count
  walked : walkEvents C key head.anchor (rows.map (·.event)) = some head.lastHash
  counted : rows.length = head.count
  keyed : ∀ row ∈ rows, row.time = timestampBytes row.event.timestamp ∧ row.seq ≤ head.seq
  nonneg : ∀ row ∈ rows, 0 ≤ row.event.timestamp
  plain : Plain head.anchor

/-- No live event is later than the given time. -/
def NoLater (rows : List (AuditRow Action)) (now : Timestamp) : Prop :=
  ∀ row ∈ rows, row.event.timestamp ≤ now

theorem NoLater.putEvent {rows now}
    (h : NoLater rows now) (hrow : row.event.timestamp ≤ now) : NoLater (putEvent rows row) now := by
  intro r hr
  rw [Audit.putEvent, mem_orderedInsert] at hr
  obtain rfl | hr := hr
  · exact hrow
  · exact h r hr

theorem chained_genesis (key : Key) :
    Chained C key [] (signedHead C key genesisHash genesisHash 0 0) where
  signed := rfl
  walked := rfl
  counted := rfl
  keyed := nofun
  nonneg := nofun
  plain := plain_genesisHash

theorem Chained.loaded {rows}
    (h : Chained C key rows head) : loadHead C key (some head) = .ok (some head) := by
  rw [h.signed]
  exact loadHead_signedHead ..

theorem mapM_id {α : Type} {entries} {events : List α} :
    entries.mapM id = some events ↔ entries = events.map some := by
  induction entries generalizing events with
  | nil => cases events <;> simp
  | cons entry entries ih =>
    rw [mapM_cons]
    constructor
    · intro h
      obtain ⟨event, hentry, h⟩ := Option.bind_eq_some_iff.1 h
      obtain ⟨events, hents, h⟩ := Option.bind_eq_some_iff.1 h
      cases h
      rw [ih.1 hents]
      exact congrArg (· :: _) hentry
    · intro h
      cases events with
      | nil => cases h
      | cons event events =>
        rw [map_cons, cons.injEq] at h
        rw [h.1, ih.2 h.2]
        rfl

/-- With a head whose MAC matches, a log verifies if its rows decode and walk to the head. -/
theorem verifyIntegrity_iff {established : Bool}
    {entries} (hhead : loadHead C key (some head) = .ok (some head)) :
    verifyIntegrity C (some key) (some head) established entries = true ↔
      ∃ events, entries = events.map some ∧ walkEvents C key head.anchor events = some head.lastHash ∧
        events.length = head.count := by
  rw [verifyIntegrity, hhead]
  cases hents : entries.mapM id with
  | none =>
    refine ⟨nofun, fun ⟨events, heq, _⟩ => ?_⟩
    cases hents.symm.trans (mapM_id.2 heq)
  | some events =>
    rw [mapM_id.1 hents]
    constructor
    · intro h
      cases hwalk : walkEvents C key head.anchor events with
      | none => simp [hwalk] at h
      | some last =>
        simp only [hwalk, Bool.and_eq_true, beq_iff_eq] at h
        exact ⟨events, rfl, hwalk.trans (congrArg some h.2), h.1⟩
    · rintro ⟨events', heq, hwalk, hcount⟩
      obtain rfl := map_injective_iff.2 (Option.some_injective _) heq
      simp [hwalk, hcount]

/-! ## One event -/

theorem chainEvent_putEvent {rows event} (h : Chained C key rows head)
    (hlater : NoLater rows event.timestamp) :
    putEvent rows (chainEvent C key head event).1 = rows ++ [(chainEvent C key head event).1] := by
  refine putEvent_last fun r hr hbef => ?_
  obtain ⟨htime, hseq⟩ := h.keyed r hr
  have hle : r.time ≤ timestampBytes event.timestamp := by
    rw [htime]
    exact Int64.toUInt64_le (h.nonneg r hr) (hlater r hr)
  obtain hlt | ⟨-, hlt⟩ := hbef
  · exact absurd hlt (UInt64.not_lt.2 hle)
  · exact absurd (Nat.lt_of_succ_lt hlt) (not_lt.2 hseq)

/-- An event no earlier than any live one extends the chain. -/
theorem Chained.chainEvent {rows event} (h : Chained C key rows head) (hnow : 0 ≤ event.timestamp)
    (hlater : NoLater rows event.timestamp) :
    Chained C key (putEvent rows (chainEvent C key head event).1) (chainEvent C key head event).2 := by
  rw [chainEvent_putEvent h hlater]
  constructor
  case signed => rfl
  case walked =>
    rw [map_append]
    exact walk_concat.2 ⟨rfl, head.lastHash, h.walked, rfl⟩
  case counted =>
    rw [length_append, h.counted]
    rfl
  case keyed =>
    intro row hrow
    rw [mem_append, mem_singleton] at hrow
    obtain hrow | rfl := hrow
    · exact ⟨(h.keyed row hrow).1, (h.keyed row hrow).2.trans (Nat.le_succ _)⟩
    · exact ⟨rfl, le_rfl⟩
  case nonneg =>
    intro row hrow
    rw [mem_append, mem_singleton] at hrow
    obtain hrow | rfl := hrow
    · exact h.nonneg row hrow
    · exact hnow
  case plain => exact h.plain

/-! ## An imported chunk -/

/-- The archived events an import still reads, and its stamp, are at times a key can order. -/
structure ImportRun.Sound (run : ImportRun Key Action) : Prop where
  stamp : 0 ≤ run.stamp
  times : ∀ e ∈ run.rest, 0 ≤ e.timestamp
  ordered : run.restamp = false → run.rest.Pairwise (·.timestamp ≤ ·.timestamp)

/-- The times at which the import writes `rest` are no earlier than any live event. -/
structure ImportRun.Follows (run : ImportRun Key Action) (rest : List (AuditEvent Action))
    (rows : List (AuditRow Action)) : Prop where
  restamped : run.restamp = true → NoLater rows run.stamp
  kept : run.restamp = false → ∀ e ∈ rest, NoLater rows e.timestamp

theorem ImportRun.Follows.mono {run : ImportRun Key Action} {rest rest' : List (AuditEvent Action)}
    {rows rows' : List (AuditRow Action)} (h : run.Follows rest rows) (hrest : rest' ⊆ rest)
    (hrows : rows' ⊆ rows) : run.Follows rest' rows' where
  restamped hre row hrow := h.restamped hre row (hrows hrow)
  kept hre e he row hrow := h.kept hre e (hrest he) row (hrows hrow)

/-- A chunk under way over the log `rows`, with `rest` still to be read. -/
structure ChunkOk (C : Crates Key Action) (run : ImportRun Key Action) (rows : List (AuditRow Action))
    (start : Nat) (rest : List (AuditEvent Action)) (chunk : Chunk Action) : Prop where
  chained : Chained C run.key (chunk.rows.foldl putEvent rows) chunk.head
  follows : run.Follows rest (chunk.rows.foldl putEvent rows)
  numbered : chunk.head.seq = start + chunk.rows.length

variable {run : ImportRun Key Action} {rows : List (AuditRow Action)} {start : Nat}
  {rest : List (AuditEvent Action)} {chunk : Chunk Action} {source : AuditEvent Action}

def ImportRun.writtenAt (run : ImportRun Key Action) (source : AuditEvent Action) : Timestamp :=
  if run.restamp then run.stamp else source.timestamp

theorem ImportRun.Follows.writtenAt (h : run.Follows (source :: rest) rows) :
    NoLater rows (run.writtenAt source) := by
  rw [ImportRun.writtenAt]
  split
  case isTrue hre => exact h.restamped hre
  case isFalse hre => exact h.kept (Bool.eq_false_iff.2 hre) _ mem_cons_self

theorem ImportRun.Follows.putEvent (h : run.Follows (source :: rest) rows)
    (hrow : row.event.timestamp = run.writtenAt source)
    (hord : run.restamp = false → ∀ e ∈ rest, source.timestamp ≤ e.timestamp) :
    run.Follows rest (putEvent rows row) where
  restamped hre := by
    rw [ImportRun.writtenAt, if_pos hre] at hrow
    exact (h.restamped hre).putEvent (hrow ▸ Int64.le_refl _)
  kept hre e he := by
    rw [ImportRun.writtenAt, if_neg (Bool.eq_false_iff.1 hre)] at hrow
    exact (h.kept hre e (mem_cons_of_mem _ he)).putEvent (hrow ▸ hord hre e he)

theorem ChunkOk.importOne (h : ChunkOk C run rows start (source :: rest) chunk)
    (hstamp : 0 ≤ run.stamp) (htime : 0 ≤ source.timestamp)
    (hord : run.restamp = false → ∀ e ∈ rest, source.timestamp ≤ e.timestamp) :
    ChunkOk C run rows start rest (importOne C run chunk source) := by
  rw [Audit.importOne]
  split
  case isTrue =>
    exact { h with follows := h.follows.mono (subset_cons_self ..) (.refl _) }
  case isFalse =>
    have hnow : 0 ≤ run.writtenAt source := by
      rw [ImportRun.writtenAt]
      split
      case isTrue => exact hstamp
      case isFalse => exact htime
    refine ⟨?_, ?_, ?_⟩
    · rw [foldl_concat]
      exact h.chained.chainEvent hnow h.follows.writtenAt
    · rw [foldl_concat]
      exact h.follows.putEvent rfl hord
    · rw [length_append]
      exact congrArg (· + 1) h.numbered

/-- Reading a list of archived events keeps the chunk in agreement with its head. -/
theorem ChunkOk.foldl {sources}
    (h : ChunkOk C run rows start (sources ++ rest) chunk) (hstamp : 0 ≤ run.stamp)
    (htimes : ∀ e ∈ sources, 0 ≤ e.timestamp)
    (hord : run.restamp = false → (sources ++ rest).Pairwise (·.timestamp ≤ ·.timestamp)) :
    ChunkOk C run rows start rest (sources.foldl (Audit.importOne C run) chunk) := by
  induction sources generalizing chunk with
  | nil => exact h
  | cons source sources ih =>
    have hone := h.importOne hstamp (htimes _ mem_cons_self) fun hre =>
      (pairwise_cons.1 (hord hre)).1
    exact ih hone (fun e he => htimes e (mem_cons_of_mem _ he)) fun hre =>
      (pairwise_cons.1 (hord hre)).2

/-- A whole chunk, from a log whose events are no later than what is written. -/
theorem ImportRun.Sound.chunkOk (hrun : run.Sound)
    (h : Chained C run.key rows head) (hfoll : run.Follows run.rest rows) :
    ChunkOk C run rows head.seq (run.rest.drop importChunk) (run.chunk C head) := by
  have hcut : run.rest.take importChunk ++ run.rest.drop importChunk = run.rest :=
    take_append_drop ..
  refine .foldl ⟨h, ?_, rfl⟩ hrun.stamp (fun e he => hrun.times e (mem_of_mem_take he)) ?_
  · rw [hcut]
    exact hfoll
  · rw [hcut]
    exact hrun.ordered

/-! ## A prune -/

theorem walkEvents_pruned {pruned : List (AuditRow Action)} {anchor mid : String}
    (h : walkEvents C key anchor (pruned.map (·.event)) = some mid) :
    (pruned.getLast?.map (·.event.integrityHash)).getD anchor = mid := by
  obtain rfl | ⟨before, row, rfl⟩ := eq_nil_or_concat' pruned
  · exact Option.some.inj h
  · rw [map_append] at h
    obtain ⟨hlast, -⟩ := walk_concat.1 h
    rw [getLast?_concat]
    exact hlast

/-- Every hash a walk passes is free of what a JSON object starts with. -/
theorem plain_walkEvents {events anchor mid}
    (hanchor : Plain anchor) (h : walkEvents C key anchor events = some mid) : Plain mid := by
  obtain rfl | ⟨before, event, rfl⟩ := eq_nil_or_concat' events
  · cases h
    exact hanchor
  · obtain ⟨-, prev, -, rfl⟩ := walk_concat.1 h
    exact plain_computeHmacHash _ _ _

/-- A prune keeps the chain: the retained events chain from the last one it deleted. -/
theorem Chained.planPrune {rows pruned kept : List (AuditRow Action)}
    (h : Chained C key rows head) (hrows : rows = pruned ++ kept) :
    Chained C key kept (planPrune C key head pruned) := by
  subst hrows
  have hwalked := h.walked
  rw [map_append] at hwalked
  obtain ⟨mid, hprune, hkept⟩ := walk_append.1 hwalked
  have hcount : head.count - pruned.length = kept.length := by
    rw [← h.counted, length_append, Nat.add_sub_cancel_left]
  constructor
  case signed => rfl
  case walked =>
    simp only [Audit.planPrune, hcount, walkEvents_pruned hprune]
    split
    case isTrue hnil =>
      rw [length_eq_zero_iff.1 hnil]
      rfl
    case isFalse => exact hkept
  case counted => exact hcount.symm
  case keyed => exact fun r hr => h.keyed r (mem_append_right _ hr)
  case nonneg => exact fun r hr => h.nonneg r (mem_append_right _ hr)
  case plain =>
    simp only [Audit.planPrune, walkEvents_pruned hprune]
    exact plain_walkEvents h.plain hprune

end

end Hearth.Audit
