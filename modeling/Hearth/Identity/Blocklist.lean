import Hearth.Identity.Control

/-!
# The DPoP blocklist and its rows

`block_dpop_jkt` and `unblock_dpop_jkt` write a row of one realm and change one
blocklist, which has no realms. A reload rebuilds it from the rows of all realms.

Results:
1. `blocklist_follows_rows`: with no call or reload in flight the blocklist is the
   thumbprints of the rows, if each change is applied while the rows still say so.
2. `unblock_in_one_realm`: an unblock in one realm takes a thumbprint off the list
   that another realm blocks.
-/

namespace Hearth.Identity

open Base ControlRows

namespace ControlNode

/-- The calls that block and unblock, and the reloads. -/
def BlocklistEvent : ControlEvent → Prop
  | .write _ (.blockJkt ..) | .write _ (.unblockJkt ..)
  | .bump _ | .bumpFails _ | .apply .. | .signal
  | .readEpoch | .record | .scanRealms _ | .scanNext | .scanFails | .publish => True
  | .write .. | .begin _ | .replicatedRow _ | .replicatedBump _ => False

def Quiet (s : ControlNode) : Prop := (∀ id, s.calls id = .idle) ∧ s.reload = .idle

/-- The thumbprints on the list are those with a row in some realm. -/
def FollowsRows (s : ControlNode) : Prop :=
  ∀ jkt, (s.caches (.blockedJkt jkt)).isSome = true ↔ ∃ realm, (realm, jkt) ∈ s.rows.blockedJkt

/-- A block is in a realm that a reload reads, and a change is applied while the rows still say the
same: no realm blocks the thumbprint that an unblock takes off the list, and some realm blocks the
one that a block puts on it. -/
def BlocklistGuard : ControlEvent → ControlNode → Prop
  | .write _ (.blockJkt realm _), s => realm ∈ s.rows.realmIds
  | .apply id _, s => s.AppliesCurrent id
  | _, _ => True

end ControlNode

/-! ## Runs -/

namespace ControlNode

/-- A control of `x` has its row and not yet its change. -/
def Pending (s : ControlNode) (x : Subject) : Prop :=
  ∃ id w, (s.calls id).work = some w ∧ w.control.op.subject = x

/-- A scan has not yet seen a row of `jkt`, and none that it has passed; or it has seen one. -/
def ScannedJkt (rows : ControlRows) (found : Caches) (todo : List ScanStep) (jkt : String) : Prop :=
  found (.blockedJkt jkt) = none ∧ (∀ row ∈ rows.blockedJkt, row.2 = jkt → .blockedJkts row.1 ∈ todo) ∨
    found (.blockedJkt jkt) = some () ∧ ∃ row ∈ rows.blockedJkt, row.2 = jkt

/-- The list, and what a reload would make of it, agree with the rows. -/
structure FollowsAt (s : ControlNode) (jkt : String) : Prop where
  entry : s.caches (.blockedJkt jkt) = s.rows.current (.blockedJkt jkt)
  replayed : s.recording = true → Touches s.journal (.blockedJkt jkt) →
    ∀ m, replay m s.journal (.blockedJkt jkt) = s.rows.current (.blockedJkt jkt)
  scanned : ∀ epoch now found todo, s.reload = .scanning epoch now found todo →
    ¬Touches s.journal (.blockedJkt jkt) → ScannedJkt s.rows found todo jkt

structure BlocklistInv (s : ControlNode) : Prop where
  listed : ∀ row ∈ s.rows.blockedJkt, row.1 ∈ s.rows.realmIds
  records : s.RecordsScan
  follows : ∀ jkt, ¬s.Pending (.blockedJkt jkt) → s.FollowsAt jkt

section

variable {s s' : ControlNode} {id : Nat} {call : ControlCall} {x : Subject} {jkt : String}

theorem Pending.setCall (h : s.Pending x) (hwork : ∀ w, (s.calls id).work = some w → call.work = some w) :
    (s.setCall id call).Pending x := by
  obtain ⟨id', w, hw, hx⟩ := h
  rcases update_cases (rfl : (s.setCall id call).calls id' = _) with ⟨rfl, hcall⟩ | hcall
  · exact ⟨id', w, by rw [hcall, hwork w hw], hx⟩
  · exact ⟨id', w, by rw [← hcall, hw], hx⟩

/-- A call goes on and keeps its control. -/
theorem BlocklistInv.setCall (I : s.BlocklistInv) (hwork : ∀ w, (s.calls id).work = some w → call.work = some w) :
    (s.setCall id call).BlocklistInv where
  __ := I
  follows jkt hp := { I.follows jkt fun h => hp (h.setCall hwork) with }

end

section

variable {s s' : ControlNode} {id : Nat} {jkt : String} {rows : ControlRows} {now : Int}
  {found : Caches} {shard : RealmId → String → Nat}

theorem ScannedJkt.scan {y todo}
    (h : ScannedJkt rows found (y :: todo) jkt) : ScannedJkt rows (rows.scan now found y) todo jkt := by
  cases y with
  | revokedJtis realm =>
    refine h.imp_left fun ⟨hnone, htodo⟩ => ⟨hnone, fun row hrow hj => ?_⟩
    exact (List.mem_cons.1 (htodo row hrow hj)).resolve_left nofun
  | blockedJkts realm =>
    by_cases hmem : (realm, jkt) ∈ rows.blockedJkt
    · exact .inr ⟨if_pos hmem, (realm, jkt), hmem, rfl⟩
    · have hsame : rows.scan now found (.blockedJkts realm) (.blockedJkt jkt) = found (.blockedJkt jkt) :=
        if_neg hmem
      refine h.imp (fun ⟨hnone, htodo⟩ => ⟨hsame.trans hnone, fun row hrow hj => ?_⟩)
        fun ⟨hsome, hrow⟩ => ⟨hsame.trans hsome, hrow⟩
      refine (List.mem_cons.1 (htodo row hrow hj)).resolve_left fun heq => hmem ?_
      cases heq
      subst hj
      exact hrow

theorem ScannedJkt.eq_current (h : ScannedJkt rows found [] jkt) :
    found (.blockedJkt jkt) = rows.current (.blockedJkt jkt) := by
  rcases h with ⟨hnone, htodo⟩ | ⟨hsome, hrow⟩
  · rw [hnone, current_blockedJkt_eq_none.2 fun row hrow hj => nomatch htodo row hrow hj]
  · rw [hsome, current_blockedJkt_eq_some.2 hrow]

theorem blocklistInv_write (I : s.BlocklistInv) (hid : s.calls id = .idle) {c}
    (hlist : ∀ row ∈ (s.rows.commit c).blockedJkt, row.1 ∈ (s.rows.commit c).realmIds) (place : Nat) :
    ((s.commit c).setCall id (.written (some ⟨place, c⟩))).BlocklistInv where
  listed := hlist
  records := I.records
  follows jkt' hp := by
    have hne : .blockedJkt jkt' ≠ c.op.subject := by
      intro heq
      refine hp ⟨id, ⟨place, c⟩, ?_, heq.symm⟩
      simp [setCall, ControlCall.work]
    have hold : ¬s.Pending (.blockedJkt jkt') := fun h => hp <| by
      refine .setCall h fun w hw => ?_
      rw [show (s.commit c).calls id = .idle from hid] at hw
      cases hw
    have h := I.follows jkt' hold
    have hcur := current_commit_of_ne (x := s.rows) hne
    have hrows : ∀ row : RealmId × String, row.2 = jkt' →
        (row ∈ (s.rows.commit c).blockedJkt ↔ row ∈ s.rows.blockedJkt) := by
      rintro row rfl
      exact mem_blockedJkt_commit hne
    refine ⟨h.entry.trans hcur.symm, fun hr ht m => (h.replayed hr ht m).trans hcur.symm,
      fun _ _ _ _ hload ht => ?_⟩
    exact (h.scanned _ _ _ _ hload ht).imp
      (fun ⟨hnone, htodo⟩ => ⟨hnone, fun row hrow hj => htodo row ((hrows row hj).1 hrow) hj⟩)
      fun ⟨hsome, row, hrow, hj⟩ => ⟨hsome, row, (hrows row hj).2 hrow, hj⟩

theorem followsAt_applyOp {w} (hscan : s.RecordsScan)
    (hcur : s.rows.current w.control.op.subject = w.control.op.value)
    (h : .blockedJkt jkt ≠ w.control.op.subject → s.FollowsAt jkt) : (s.applyOp shard now w).FollowsAt jkt := by
  have hjour : s.recording = true → (s.applyOp shard now w).journal = s.journal ++ [w.control.op.edit] := by
    intro hr
    simp [journal, applyOp, hr]
  have hrec : ∀ epoch now found todo, s.reload = .scanning epoch now found todo → s.recording = true := by
    intro epoch now found todo hload
    exact hscan.recording_eq hload
  by_cases hne : .blockedJkt jkt = w.control.op.subject
  · -- The last change of the thumbprint: it is on the list, and a reload replays it last.
    have hvalue : ∀ m : Caches, m w.control.op.subject = w.control.op.value →
        m (.blockedJkt jkt) = s.rows.current (.blockedJkt jkt) := by
      intro m hm
      rw [hne, hm, hcur]
    refine ⟨hvalue _ applyToCaches_self, fun hr _ m => ?_, fun epoch now found todo hload ht => ?_⟩
    · rw [hjour hr]
      exact hvalue _ replay_concat_self
    · refine absurd ?_ ht
      rw [hjour (hrec _ now _ todo hload), touches_concat]
      exact .inr hne.symm
  · have hf := h hne
    have hop : w.control.op.edit.key ≠ .blockedJkt jkt := fun heq => hne heq.symm
    refine ⟨?_, fun hr ht m => ?_, fun epoch now found todo hload ht => ?_⟩
    · have hother : Agrees now _ ((s.applyOp shard now w).caches (.blockedJkt jkt)) (s.caches (.blockedJkt jkt)) :=
        applyToCaches_of_ne (le_refl now) hne
      rcases hother with heq | ⟨-, hlapsed⟩
      · exact heq.trans hf.entry
      · cases hlapsed
    · rw [hjour hr] at ht ⊢
      rw [replay_concat_of_ne hop]
      exact hf.replayed hr ((touches_concat.1 ht).resolve_right hop) m
    · rw [hjour (hrec _ now _ todo hload), touches_concat, not_or] at ht
      exact hf.scanned _ now _ todo hload ht.1

variable {epoch : Option Nat} {work : Option Committed}

theorem followsAt_apply (hscan : s.RecordsScan)
    (hcur : ∀ w, work = some w → s.rows.current w.control.op.subject = w.control.op.value)
    (h : (∀ w, work = some w → .blockedJkt jkt ≠ w.control.op.subject) → s.FollowsAt jkt) :
    (s.apply shard now work epoch).FollowsAt jkt := by
  have hop : (s.apply shard now work none).FollowsAt jkt := by
    cases work with
    | none => exact { h nofun with }
    | some w =>
      refine followsAt_applyOp hscan (hcur w rfl) fun hne => ?_
      have hf := h fun w' hw => by cases hw; exact hne
      exact { hf with }
  cases epoch with
  | none => exact hop
  | some n => exact { hop with }

theorem blocklistInv_apply
    (I : s.BlocklistInv) (hid : s.calls id = .bumped work epoch) (hcur : s.AppliesCurrent id) :
    ((s.apply shard now work epoch).setCall id .idle).BlocklistInv where
  listed := by
    rw [show ((s.apply shard now work epoch).setCall id .idle).rows = s.rows from apply_rows]
    exact I.listed
  records := by
    have hrecs := I.records
    unfold RecordsScan at hrecs ⊢
    simpa only [setCall, apply_reload, apply_recording] using hrecs
  follows jkt hp := by
    suffices hf : (s.apply shard now work epoch).FollowsAt jkt from { hf with }
    refine followsAt_apply I.records (fun w hw => hcur w _ (hw ▸ hid)) fun hne => I.follows jkt fun h => hp ?_
    obtain ⟨id', w, hw, hx⟩ := h
    have hid' : id' ≠ id := by
      rintro rfl
      rw [hid] at hw
      exact hne w hw hx.symm
    refine ⟨id', w, ?_, hx⟩
    rw [show ((s.apply shard now work epoch).setCall id .idle).calls id' = _ from Function.update_of_ne hid' ..,
      apply_calls]
    exact hw

/-- The journal wins over the scan, and the scan is the rows where there is no journal. -/
theorem followsAt_publish {epoch} (hscan : s.RecordsScan)
    (hload : s.reload = .scanning epoch now found []) (h : s.FollowsAt jkt) : (s.publish epoch found).FollowsAt jkt where
  entry := by
    have hrec : s.recording = true := hscan.recording_eq hload
    by_cases ht : Touches s.journal (.blockedJkt jkt)
    · exact h.replayed hrec ht _
    · exact (replay_of_not_touches ht).trans (h.scanned _ _ _ _ hload ht).eq_current
  replayed hr := nomatch hr
  scanned _ _ _ _ hload := nomatch hload

theorem blocklistInv_step {ev} (I : s.BlocklistInv)
    (hev : BlocklistEvent ev) (hguard : BlocklistGuard ev s) (h : Step shard ev s s') : s'.BlocklistInv := by
  cases h with
  | @write _ id c hid _ =>
    cases c with
    | blockJkt realm jkt =>
      refine blocklistInv_write I hid ((Finset.forall_mem_insert ..).2 ⟨?_, I.listed⟩) _
      exact hguard
    | unblockJkt realm jkt =>
      refine blocklistInv_write I hid (fun row hrow => ?_) _
      exact I.listed row (Finset.mem_of_mem_erase hrow)
    | revokeJti | forgetJti | setRealmStatus | forgetRealmStatus => cases hev
  | @bump _ id work hid =>
    refine .setCall ?_ fun w hw => ?_
    · exact { I with follows := fun jkt hp => { I.follows jkt hp with } }
    · rw [show (s.increment (work.map Committed.place)).calls id = .written work from hid] at hw
      exact hw
  | @bumpFails _ id work hid =>
    refine I.setCall fun w hw => ?_
    rw [hid] at hw
    exact hw
  | apply hid => exact blocklistInv_apply I hid hguard
  | signal =>
    unfold signal
    split
    · exact I
    · exact { I with follows := fun jkt hp => { I.follows jkt hp with } }
  | readEpoch hload =>
    exact ⟨I.listed, (I.records.recording_eq hload :), fun jkt hp => { I.follows jkt hp with scanned := nofun }⟩
  | record hload =>
    refine ⟨I.listed, rfl, fun jkt hp => ⟨(I.follows jkt hp).entry, fun _ ht => ?_, nofun⟩⟩
    obtain ⟨_, hmem, _⟩ := ht
    cases hmem
  | scanRealms hload =>
    refine ⟨I.listed, (I.records.recording_eq hload :), fun jkt hp => { I.follows jkt hp with scanned := ?_ }⟩
    rintro _ _ _ _ ⟨⟩ -
    refine .inl ⟨rfl, fun row hrow _ => List.mem_append_right _ ?_⟩
    exact List.mem_map_of_mem (I.listed row hrow)
  | scanNext hload =>
    refine ⟨I.listed, (I.records.recording_eq hload :), fun jkt hp => { I.follows jkt hp with scanned := ?_ }⟩
    rintro _ _ _ _ ⟨⟩ ht
    exact ((I.follows jkt hp).scanned _ _ _ _ hload ht).scan
  | scanFails _ => exact ⟨I.listed, rfl, fun jkt hp => ⟨(I.follows jkt hp).entry, nofun, nofun⟩⟩
  | publish hload =>
    exact ⟨I.listed, rfl, fun jkt hp => followsAt_publish I.records hload (I.follows jkt hp)⟩
  | begin | replicatedRow | replicatedBump => cases hev

theorem blocklistInv_init (h : s.Init) : s.BlocklistInv where
  listed := h.listed.2
  records := by rw [RecordsScan, h.reload, h.recording]; rfl
  follows jkt _ := by
    refine ⟨by rw [h.caches], fun hr => ?_, fun _ _ _ _ hload => ?_⟩
    · rw [h.recording] at hr
      cases hr
    · rw [h.reload] at hload
      cases hload

end

/-- If every block is in a realm that a reload reads, and every change is applied while the rows
still say the same, the blocklist is the thumbprints of the rows whenever nothing is in flight. -/
theorem blocklist_follows_rows {shard : RealmId → String → Nat} {s : ControlNode}
    (h : Reachable Init (LabelledWith (Step shard) fun ev s => BlocklistEvent ev ∧ BlocklistGuard ev s) s)
    (hquiet : s.Quiet) : s.FollowsRows := by
  have I : s.BlocklistInv := h.preserves blocklistInv_init fun I hev => blocklistInv_step I hev.1 hev.2
  intro jkt
  have hidle : ¬s.Pending (.blockedJkt jkt) := by
    rintro ⟨id, w, hw, -⟩
    rw [hquiet.1 id] at hw
    cases hw
  rw [(I.follows jkt hidle).entry]
  constructor
  · intro hsome
    obtain ⟨⟨⟩, hv⟩ := Option.isSome_iff_exists.1 hsome
    obtain ⟨⟨realm, _⟩, hrow, rfl⟩ := current_blockedJkt_eq_some.1 hv
    exact ⟨realm, hrow⟩
  · rintro ⟨realm, hrow⟩
    rw [current_blockedJkt_eq_some.2 ⟨_, hrow, rfl⟩]
    rfl

/-- One block whose change is applied during a scan that started before the row was written. -/
theorem blocklist_follows_rows_reloaded : ∃ s : ControlNode, s.Quiet ∧ s.FollowsRows ∧
    s.caches (.blockedJkt "k") = some () := by
  have h0 : Reachable Init (LabelledWith (Step fun _ _ => 0) fun ev s => BlocklistEvent ev ∧ BlocklistGuard ev s)
      freshNode := .start freshNode_init
  have h1 := h0.next ⟨.readEpoch, ⟨trivial, trivial⟩, .readEpoch rfl⟩
  have h2 := h1.next ⟨.record, ⟨trivial, trivial⟩, .record rfl⟩
  have h3 := h2.next ⟨.scanRealms 5, ⟨trivial, trivial⟩, .scanRealms rfl⟩
  have h4 := h3.next ⟨.scanNext, ⟨trivial, trivial⟩, .scanNext rfl⟩
  have h5 := h4.next ⟨.scanNext, ⟨trivial, trivial⟩, .scanNext rfl⟩
  have h6 := h5.next ⟨.scanNext, ⟨trivial, trivial⟩, .scanNext rfl⟩
  have h7 := h6.next ⟨.scanNext, ⟨trivial, trivial⟩, .scanNext rfl⟩
  have h8 := h7.next ⟨.write 0 (.blockJkt tenantRealm "k"), ⟨trivial, tenant_listed⟩, .write rfl nofun⟩
  have h9 := h8.next ⟨.bump 0, ⟨trivial, trivial⟩, .bump rfl⟩
  have h10 := h9.next ⟨.apply 0 7, ⟨trivial, by rintro w epoch ⟨⟩; rfl⟩, .apply rfl⟩
  have h11 := h10.next ⟨.publish, ⟨trivial, trivial⟩, .publish rfl⟩
  obtain ⟨s, hs, hquiet, hentry⟩ : ∃ s : ControlNode, Reachable Init
      (LabelledWith (Step fun _ _ => 0) fun ev s => BlocklistEvent ev ∧ BlocklistGuard ev s) s ∧ s.Quiet ∧
      s.caches (.blockedJkt "k") = some () := by
    refine ⟨_, h11, ⟨fun id => ?_, rfl⟩, rfl⟩
    cases id <;> rfl
  exact ⟨s, hquiet, blocklist_follows_rows hs hquiet, hentry⟩

/-- Both realms block a key, then one unblocks it: it is off the list, and the other realm's row is
still there. -/
theorem unblock_in_one_realm : ∃ s : ControlNode,
    Reachable Init (LabelledWith (Step fun _ _ => 0) fun ev _ => BlocklistEvent ev) s ∧ s.Quiet ∧
      (systemRealmId, "k") ∈ s.rows.blockedJkt ∧ s.caches (.blockedJkt "k") = none ∧ ¬s.FollowsRows := by
  have h0 : Reachable Init (LabelledWith (Step fun _ _ => 0) fun ev _ => BlocklistEvent ev) freshNode :=
    .start freshNode_init
  have h1 := h0.next ⟨.write 0 (.blockJkt tenantRealm "k"), trivial, .write rfl nofun⟩
  have h2 := h1.next ⟨.bump 0, trivial, .bump rfl⟩
  have h3 := h2.next ⟨.apply 0 1, trivial, .apply rfl⟩
  have h4 := h3.next ⟨.write 0 (.blockJkt systemRealmId "k"), trivial, .write rfl nofun⟩
  have h5 := h4.next ⟨.bump 0, trivial, .bump rfl⟩
  have h6 := h5.next ⟨.apply 0 2, trivial, .apply rfl⟩
  have h7 := h6.next ⟨.write 0 (.unblockJkt tenantRealm "k"), trivial, .write rfl nofun⟩
  have h8 := h7.next ⟨.bump 0, trivial, .bump rfl⟩
  have h9 := h8.next ⟨.apply 0 3, trivial, .apply rfl⟩
  obtain ⟨s, hs, hquiet, hrow, hentry⟩ : ∃ s : ControlNode,
      Reachable Init (LabelledWith (Step fun _ _ => 0) fun ev _ => BlocklistEvent ev) s ∧ s.Quiet ∧
      (systemRealmId, "k") ∈ s.rows.blockedJkt ∧ s.caches (.blockedJkt "k") = none := by
    refine ⟨_, h9, ⟨fun id => ?_, rfl⟩, ?_, rfl⟩
    · cases id <;> rfl
    · decide +kernel
  refine ⟨s, hs, hquiet, hrow, hentry, fun hfoll => ?_⟩
  have hlist := (hfoll "k").2 ⟨systemRealmId, hrow⟩
  rw [hentry] at hlist
  cases hlist

end ControlNode

end Hearth.Identity
