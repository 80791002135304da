import Hearth.Audit.Verifies

/-!
# Exchanged event rows

Whoever writes the event rows of a realm, but neither its head row nor its key, is found
out by the verification unless the rows say what the log said. The hash of an event covers
all of it but one difference: metadata that is JSON `null` and metadata that is absent are
hashed alike. So rows verify exactly if they are the log's up to that.
-/

namespace Hearth.Audit

open Base List AuditEvent

section

variable {Key Action : Type} {C : Crates Key Action} {key : Key} {head : ChainHead}
  {rows : List (AuditRow Action)} {log events : List (AuditEvent Action)}

/-- The event with absent metadata written as `null`. -/
def AuditEvent.nulled (event : AuditEvent Action) : AuditEvent Action :=
  { event with metadata := some (event.metadata.getD .null) }

/-- What is trusted of HMAC, JSON texts and action names in one reading of `events` where the
log was `log`: no two different texts share a tag, and no two different values a text. -/
structure Ideal (C : Crates Key Action) (key : Key) (anchor : String)
    (log events : List (AuditEvent Action)) : Prop where
  tags : ∀ x ∈ links integrityHash anchor log, ∀ y ∈ links integrityHash anchor events,
    C.sign key (hashed C x.1 x.2) = C.sign key (hashed C y.1 y.2) →
      hashed C x.1 x.2 = hashed C y.1 y.2
  texts : ∀ e ∈ log, ∀ f ∈ events,
    C.text (hashable C e) = C.text (hashable C f) → hashable C e = hashable C f
  names : Function.Injective C.actionName
  braced : Braced C

/-- It covers everything else. -/
theorem nulled_of_hashable (hnames : Function.Injective C.actionName) {e f}
    (h : hashable C e = hashable C f) (htag : e.integrityHash = f.integrityHash) : e.nulled = f.nulled := by
  simp only [hashable, Json.object.injEq, cons.injEq, Prod.mk.injEq, Json.string.injEq,
    Json.int.injEq, true_and, and_true] at h
  obtain ⟨haction, hactor, hid, hmeta, hrealm, hres, hkind, htime⟩ := h
  obtain ⟨⟨eid, _⟩, ⟨erealm, _⟩, _, _, _, _, _, _, _⟩ := e
  obtain ⟨⟨fid, _⟩, ⟨frealm, _⟩, _, _, _, _, _, _, _⟩ := f
  obtain rfl : eid = fid := hyphenated_injective hid
  obtain rfl : erealm = frealm := hyphenated_injective hrealm
  simp only [nulled, mk.injEq]
  exact ⟨trivial, trivial, hactor, hnames haction, hkind, hres, Int64.toInt_inj.1 htime,
    congrArg some hmeta, htag⟩

/-! ## What verifies -/

/-- Events that are the log's up to `null` metadata walk like the log. -/
theorem walkEvents_of_nulled {anchor} (h : events.map (·.nulled) = log.map (·.nulled)) :
    walkEvents C key anchor events = walkEvents C key anchor log := by
  have hsame : Forall₂ (fun e f => e.nulled = f.nulled) events log := by
    rw [← forall₂_eq_eq_eq, forall₂_map_left_iff, forall₂_map_right_iff] at h
    exact h
  refine walk_congr (fun e f => e.nulled = f.nulled) ?_ ?_
  · intro prev e f hef
    -- the hash does not tell `null` from absent metadata
    have hhashable : hashable C e = hashable C f :=
      show hashable C e.nulled = hashable C f.nulled by rw [hef]
    rw [computeHmacHash, computeHmacHash, hashed, hashed, hhashable]
  · exact hsame.imp fun e f hef => ⟨hef, congrArg (·.integrityHash) hef⟩

/-- Events that walk from the anchor to the head, as many as the log has, are the log's up to
`null` metadata. -/
theorem Chained.nulled_of_walk (h : Chained C key rows head)
    (hideal : Ideal C key head.anchor (rows.map (·.event)) events)
    (hwalk : walkEvents C key head.anchor events = some head.lastHash)
    (hcount : events.length = head.count) :
    events.map (·.nulled) = (rows.map (·.event)).map (·.nulled) := by
  have hplain : ∀ prev event, Plain (computeHmacHash C key prev event) := plain_computeHmacHash key
  have hlinks := links_of_walk h.plain hplain h.walked
  have hlinks' := links_of_walk h.plain hplain hwalk
  have hlen : (rows.map (·.event)).length = events.length := by
    rw [length_map, h.counted, hcount]
  have hsame := walk_unique (fun e f => hashable C e = hashable C f) h.walked hwalk hlen
    fun x hx y hy htags => by
      have hhashed := hideal.tags x hx y hy (hexEncode_injective htags)
      obtain ⟨hprev, htext⟩ := hashed_unique hideal.braced (hlinks x hx).1 (hlinks' y hy).1 hhashed
      exact ⟨hprev, hideal.texts _ (hlinks x hx).2 _ (hlinks' y hy).2 htext⟩
  rw [← forall₂_eq_eq_eq, forall₂_map_left_iff, forall₂_map_right_iff]
  refine hsame.flip.imp fun f e hef => ?_
  exact (nulled_of_hashable hideal.names hef.1 hef.2).symm

/-! ## Detection -/

namespace AuditEngine

variable {s : AuditEngine Key Action} {entries : List (Option (AuditEvent Action))}

/-- A verification after the event rows were exchanged for rows that decode to `entries`. -/
def verifyRows (C : Crates Key Action) (s : AuditEngine Key Action)
    (entries : List (Option (AuditEvent Action))) : Bool :=
  verifyIntegrity C (s.keyCache.or s.rows.key) s.rows.head s.rows.established entries

/-- The rows differ from the log, and only in metadata that is `null` in one and absent in the
other. -/
def NullSwapped (log : List (AuditEvent Action)) (entries : List (Option (AuditEvent Action))) : Prop :=
  entries ≠ log.map some ∧ ∃ events : List (AuditEvent Action),
    entries = events.map some ∧ events.map (·.nulled) = log.map (·.nulled)

/-- What is trusted in a reading of the exchanged rows. -/
def Trusted (C : Crates Key Action) (s : AuditEngine Key Action)
    (entries : List (Option (AuditEvent Action))) : Prop :=
  ∀ key head (events : List (AuditEvent Action)), s.rows.key = some key → s.rows.head = some head →
    entries = events.map some → Ideal C key head.anchor s.log events

/-- The log verifies, and what differs from it in `null` metadata only. -/
theorem Inv.verifyRows_of_nulled (I : s.Inv C) (h : events.map (·.nulled) = s.log.map (·.nulled)) :
    s.verifyRows C (events.map some) = true := by
  rw [verifyRows, I.peeked]
  cases hhead : s.rows.head with
  | none =>
    obtain ⟨hevs, hanchor⟩ := I.rows.headless hhead
    rw [log, hevs] at h
    obtain rfl := map_eq_nil_iff.1 h
    rw [hanchor]
    cases s.rows.key <;> rfl
  | some head =>
    obtain ⟨key, hkey, hchain⟩ := I.rows.chained head hhead
    have hcount : events.length = head.count := by
      rw [← hchain.counted, ← length_map, h, length_map, log, length_map]
    rw [hkey, verifyIntegrity_iff hchain.loaded]
    exact ⟨events, rfl, (walkEvents_of_nulled h).trans hchain.walked, hcount⟩

/-- Nothing else does. -/
theorem Inv.nulled_of_verifyRows (I : s.Inv C) (htrust : Trusted C s entries)
    (h : s.verifyRows C entries = true) :
    ∃ events : List (AuditEvent Action), entries = events.map some ∧
      events.map (·.nulled) = s.log.map (·.nulled) := by
  rw [verifyRows, I.peeked] at h
  cases hhead : s.rows.head with
  | none =>
    obtain ⟨hevs, -⟩ := I.rows.headless hhead
    have hempty : entries.isEmpty = true := by
      rw [hhead] at h
      cases hkey : s.rows.key with
      | none =>
        rw [hkey, verifyIntegrity, Bool.and_eq_true] at h
        exact h.1
      | some key =>
        rw [hkey, verifyIntegrity, loadHead, Bool.and_eq_true] at h
        exact h.1
    refine ⟨[], isEmpty_iff.1 hempty, ?_⟩
    rw [log, hevs]
    rfl
  | some head =>
    obtain ⟨key, hkey, hchain⟩ := I.rows.chained head hhead
    rw [hkey, hhead, verifyIntegrity_iff hchain.loaded] at h
    obtain ⟨events, hents, hwalk, hcount⟩ := h
    exact ⟨events, hents, hchain.nulled_of_walk (htrust key head _ hkey hhead hents) hwalk hcount⟩

/-- In an orderly run, exchanged rows that verify are the log's rows exactly if they do not
differ from it in `null` metadata only. -/
theorem exchanged_rows_detected_iff (h : Reachable Init (LabelledWith (Step C) Orderly) s) (_ : s.Quiet)
    (htrusted : Trusted C s entries) :
    (s.verifyRows C entries = true → entries = s.log.map some) ↔ ¬ NullSwapped s.log entries := by
  have I : s.Inv C := inv_of_reachable h
  constructor
  · rintro hdet ⟨hne, events, rfl, hnulled⟩
    exact hne (hdet (I.verifyRows_of_nulled hnulled))
  · intro hswapped hverify
    by_contra hne
    exact hswapped ⟨hne, I.nulled_of_verifyRows htrusted hverify⟩

/-- The event of `one_append` with metadata `null`, which it was written without. -/
def sampleSwapped : AuditEvent Unit := (sampleFirst 5).1.event.nulled

theorem sampleSwapped_ne : sampleSwapped ≠ (sampleFirst 5).1.event :=
  fun h => Option.some_ne_none _ (congrArg (·.metadata) h)

theorem one_event_log : ∃ s, Reachable Init (LabelledWith (Step sampleCrates) Orderly) s ∧ s.Quiet ∧
    s.log = [(sampleFirst 5).1.event] := by
  obtain ⟨s, hs, hrest⟩ := one_append Orderly 5 (fun _ => trivial) (fun _ h => h) fun _ => orderly_first
  refine ⟨s, hs, hrest.quiet, ?_⟩
  rw [log, hrest.rows]
  rfl

theorem exchanged_rows_detected_iff_one : ∃ s : AuditEngine Unit Unit, Trusted sampleCrates s [some sampleSwapped] ∧
    ((s.verifyRows sampleCrates [some sampleSwapped] = true → [some sampleSwapped] = s.log.map some) ↔
      ¬ NullSwapped s.log [some sampleSwapped]) := by
  obtain ⟨s, hs, hquiet, hlog⟩ := one_event_log
  have htrust : Trusted sampleCrates s [some sampleSwapped] := by
    intro key head events _ _ hevs
    obtain rfl : [sampleSwapped] = events := map_injective_iff.2 (Option.some_injective _) hevs
    rw [hlog]
    refine ⟨fun x _ y _ h => sampleCrates_sign h, ?_, fun _ _ _ => rfl, sampleCrates_braced⟩
    simp only [mem_singleton]
    rintro e rfl f rfl -
    rfl
  exact ⟨s, htrust, exchanged_rows_detected_iff hs hquiet htrust⟩

/-- The row of an event without metadata is exchanged for one with metadata `null`. -/
theorem null_metadata_undetected : ∃ (s : AuditEngine Unit Unit) (entries : List (Option (AuditEvent Unit))),
    Reachable Init (LabelledWith (Step sampleCrates) Orderly) s ∧ s.Quiet ∧
      s.verifyRows sampleCrates entries = true ∧ entries ≠ s.log.map some := by
  obtain ⟨s, hs, hquiet, hlog⟩ := one_event_log
  refine ⟨s, [sampleSwapped].map some, hs, hquiet, ?_, ?_⟩
  · refine (inv_of_reachable hs).verifyRows_of_nulled ?_
    rw [hlog]
    rfl
  · rw [hlog]
    intro h
    obtain ⟨heq, -⟩ := cons.inj h
    exact sampleSwapped_ne (Option.some.inj heq)

end AuditEngine

end

end Hearth.Audit
