import Hearth.Identity.Control

/-!
# Applied controls stay applied

A control is reflected when the caches show it, or a later control of its subject.
Each entry of the caches is what the rows said of it at some moment (`AsOf`); a control
is reflected while that moment is after its row. A local change moves its entry to the
present. A reload moves every entry to a moment after its recording began, and the
journal brings back the changes made since.

`applied_controls_reflected` says when a control stays reflected. Not so in
`late_change_hides_control`: a change applied after a later control of its subject hides
that control, and `applied` covers both.
-/

namespace Hearth.Identity

open Base List Nat ControlRows Watermark

/-- What the condition asks of a row before it is written. -/
def Control.Admitted (rows : ControlRows) : Control → Prop
  | revokeJti realm _ _ | blockJkt realm _ => realm ∈ rows.realmIds
  | unblockJkt realm jkt => ∀ row ∈ rows.blockedJkt, row.2 = jkt → row.1 = realm
  | forgetRealmStatus realm =>
    (∀ jti, rows.revokedJti (realm, jti) = none) ∧ ∀ row ∈ rows.blockedJkt, row.1 ≠ realm
  | forgetJti .. | setRealmStatus .. => True

namespace ControlRows

variable {x : ControlRows} {c : Control} {realm : RealmId}

theorem mem_realmIds : realm ∈ x.realmIds ↔ realm = systemRealmId ∨ realm ∈ x.realms := by
  by_cases h : realm = systemRealmId <;> simp [realmIds, h]

theorem realmIds_commit (hc : ∀ realm, c ≠ .forgetRealmStatus realm) (h : realm ∈ x.realmIds) :
    realm ∈ (x.commit c).realmIds := by
  cases c with
  | setRealmStatus realm' status =>
    rw [mem_realmIds] at h ⊢
    exact h.imp_right mem_insert_of_mem
  | forgetRealmStatus realm' => exact absurd rfl (hc _)
  | revokeJti | forgetJti | blockJkt | unblockJkt => exact h

/-- A realm is taken off the list when it has no rows left. -/
theorem Listed.commit (h : x.Listed) (hc : c.Admitted x) : (x.commit c).Listed := by
  cases c with
  | revokeJti realm jti exp =>
    refine ⟨fun realm' jti' exp' hrow => ?_, h.2⟩
    rcases update_cases hrow with ⟨heq, -⟩ | hrow
    · cases heq
      exact hc
    · exact h.1 _ jti' exp' hrow
  | forgetJti realm jti =>
    refine ⟨fun realm' jti' exp' hrow => ?_, h.2⟩
    rcases update_cases hrow with ⟨-, hnone⟩ | hrow
    · cases hnone
    · exact h.1 _ jti' exp' hrow
  | blockJkt realm jkt =>
    exact ⟨h.1, (Finset.forall_mem_insert ..).2 ⟨hc, h.2⟩⟩
  | unblockJkt realm jkt => exact ⟨h.1, fun row hrow => h.2 row (Finset.mem_of_mem_erase hrow)⟩
  | setRealmStatus realm status =>
    exact ⟨fun realm' jti exp hrow => realmIds_commit nofun (h.1 _ jti exp hrow),
      fun row hrow => realmIds_commit nofun (h.2 row hrow)⟩
  | forgetRealmStatus realm =>
    have hkeep : ∀ {realm'}, realm' ≠ realm → realm' ∈ x.realmIds →
        realm' ∈ (x.commit (.forgetRealmStatus realm)).realmIds := by
      intro realm' hne hmem
      rw [mem_realmIds] at hmem ⊢
      exact hmem.imp_right fun hmem => mem_filter.2 ⟨hmem, decide_eq_true hne⟩
    refine ⟨fun realm' jti exp hrow => hkeep ?_ (h.1 _ jti exp hrow),
      fun row hrow => hkeep (hc.2 row hrow) (h.2 row hrow)⟩
    rintro rfl
    exact nomatch (hc.1 jti).symm.trans hrow

/-- After a control the rows say of its subject what it says. -/
theorem current_commit_self (hc : c.Admitted x) (hsys : c.op.subject ≠ .realmStatus systemRealmId) :
    (x.commit c).current c.op.subject = c.op.value := by
  cases c with
  | revokeJti | forgetJti => exact Function.update_self ..
  | blockJkt realm jkt =>
      exact current_blockedJkt_eq_some.2 ⟨(realm, jkt), Finset.mem_insert_self .., rfl⟩
  | unblockJkt realm jkt =>
    refine current_blockedJkt_eq_none.2 fun row hrow hj => ?_
    obtain ⟨hne, hrow⟩ := Finset.mem_erase.1 hrow
    exact hne (Prod.ext (hc row hrow hj) hj)
  | setRealmStatus realm status =>
    have hne : realm ≠ systemRealmId := fun heq => hsys (congrArg _ heq)
    refine (if_pos ⟨mem_insert_self, hne⟩).trans ?_
    exact congrArg some (Function.update_self ..)
  | forgetRealmStatus realm =>
    refine if_neg fun h => ?_
    exact of_decide_eq_true (mem_filter.1 h.1).2 rfl

end ControlRows

namespace ControlNode

variable (s : ControlNode) (place : Nat)

/-- The caches show the control at `place`, or a later one of its subject. -/
def Reflects : Prop :=
  ∃ place' c c', place ≤ place' ∧ s.commits[place]? = some c ∧ s.commits[place']? = some c' ∧
    c'.op.subject = c.op.subject ∧ Agrees s.clock c'.op.subject (s.caches c'.op.subject) c'.op.value

/-- A row is admitted, and a change is applied while the rows of its subject still say the same. -/
def ControlGuard : ControlEvent → ControlNode → Prop
  | .write _ c, s | .replicatedRow c, s => c.Admitted s.rows
  | .apply id _, s => s.AppliesCurrent id
  | _, _ => True

/-! ## Moments -/

/-- The rows after the first `t` controls. -/
def rowsAt (t : Nat) : ControlRows := (s.commits.take t).foldl .commit s.origin

def subjectAt : Option Subject := s.commits[place]?.map (·.op.subject)

/-- `v` is what the rows said of `x` at the moment `t`. -/
def AsOf (x : Subject) (v : x.Entry) (t : Nat) : Prop :=
  t ≤ s.commits.length ∧ Agrees s.clock x v ((s.rowsAt t).current x)

/-- The control has to be reflected: its change was applied here, or `applied` covers its bump. -/
def Due : Prop := place ∈ s.returned ∨ ∃ epoch ≤ s.applied.mark, (epoch, place) ∈ s.bumps

/-- Every control of `x` that has to be reflected is before `t`. -/
def Covers (x : Subject) (t : Nat) : Prop :=
  ∀ place, s.Due place → s.subjectAt place = some x → place < t

/-- A reload read `epoch` and then began to record at the moment `start`. -/
structure Begun (s : ControlNode) (epoch start : Nat) : Prop where
  epoch_le : epoch ≤ s.epoch
  start_le : start ≤ s.commits.length
  numbered : ∀ n place, (n, place) ∈ s.bumps → n ≤ epoch → place < start
  untouched : ∀ x, ¬Touches s.journal x → s.Covers x start
  touched : ∀ x, Touches s.journal x →
    ∃ t, start ≤ t ∧ s.Covers x t ∧ ∀ m, s.AsOf x (replay m s.journal x) t

/-- The scan may still find a row of `x`. -/
def Awaited (rows : ControlRows) (todo : List ScanStep) : Subject → Prop
  | .realmStatus _ => False
  | .revokedJti realm _ => .revokedJtis realm ∈ todo
  | .blockedJkt jkt => ∃ row ∈ rows.blockedJkt, row.2 = jkt ∧ .blockedJkts row.1 ∈ todo

/-- What was found is of a moment after `start`, or nothing was found yet. -/
def Scanned (start : Nat) (found : Caches) (todo : List ScanStep) (x : Subject) : Prop :=
  (∃ t, start ≤ t ∧ s.AsOf x (found x) t) ∨ found x = none ∧ Awaited s.rows todo x

def ReloadHolds : ReloadPhase → Prop
  | .idle => True
  | .epochRead epoch => epoch ≤ s.epoch
  | .recording epoch => ∃ start, s.Begun epoch start
  | .scanning epoch now found todo =>
    now ≤ s.clock ∧ ∃ start, s.Begun epoch start ∧ ∀ x, s.Scanned start found todo x

/-- The rows are those that the controls wrote. -/
structure Written (s : ControlNode) : Prop where
  rows : s.rowsAt s.commits.length = s.rows
  listed : s.rows.Listed
  value : ∀ place c, s.commits[place]? = some c →
    (s.rowsAt (place + 1)).current c.op.subject = c.op.value
  works : ∀ id w, (s.calls id).work = some w → s.commits[w.place]? = some w.control

/-- A bump number is one writer's. -/
structure Numbered (s : ControlNode) : Prop where
  bump : ∀ n place, (n, place) ∈ s.bumps → n ≤ s.epoch ∧ place < s.commits.length
  returned : ∀ place ∈ s.returned, place < s.commits.length
  mark : s.applied.mark ≤ s.epoch
  parked : ∀ n ∈ s.applied.parked, n ≤ s.epoch ∧ ∀ place, (n, place) ∈ s.bumps → place ∈ s.returned
  own : ∀ id work n, s.calls id = .bumped work (some n) →
    n ≤ s.epoch ∧ ∀ place, (n, place) ∈ s.bumps → ∃ w, work = some w ∧ w.place = place

structure Inv (s : ControlNode) : Prop where
  written : s.Written
  numbered : s.Numbered
  records : s.RecordsScan
  entries : ∀ x, ∃ t, s.AsOf x (s.caches x) t ∧ s.Covers x t
  reload : s.ReloadHolds s.reload

/-! ## What later states keep -/

/-- `s'` comes later: it has the controls of `s`, and perhaps more. -/
structure Later (s s' : ControlNode) : Prop where
  origin : s'.origin = s.origin
  commits : ∃ more, s'.commits = s.commits ++ more
  clock : s.clock ≤ s'.clock

section

variable {s s' : ControlNode} {x : Subject} {v : x.Entry} {t place epoch start : Nat}

theorem Later.of_eq (ho : s'.origin = s.origin) (hc : s'.commits = s.commits)
    (hclock : s.clock ≤ s'.clock) :
    s.Later s' := ⟨ho, ⟨[], by rw [hc, append_nil]⟩, hclock⟩

theorem Later.length (h : s.Later s') : s.commits.length ≤ s'.commits.length := by
  obtain ⟨more, hmore⟩ := h.commits
  rw [hmore, length_append]
  exact Nat.le_add_right ..

theorem Later.rowsAt (h : s.Later s') (ht : t ≤ s.commits.length) : s'.rowsAt t = s.rowsAt t := by
  obtain ⟨more, hmore⟩ := h.commits
  rw [ControlNode.rowsAt, hmore, take_append_of_le_length ht, h.origin]
  rfl

theorem Later.getElem? (h : s.Later s') (ht : place < s.commits.length) :
    s'.commits[place]? = s.commits[place]? := by
  obtain ⟨more, hmore⟩ := h.commits
  rw [hmore, getElem?_append_left ht]

theorem AsOf.later (h : s.AsOf x v t) (hl : s.Later s') : s'.AsOf x v t := by
  refine ⟨h.1.trans hl.length, ?_⟩
  rw [hl.rowsAt h.1]
  exact h.2.mono hl.clock

theorem Numbered.due_lt (N : s.Numbered) (h : s.Due place) : place < s.commits.length := by
  rcases h with hmem | ⟨n, -, hmem⟩
  · exact N.returned _ hmem
  · exact (N.bump n _ hmem).2

theorem Covers.later (h : s.Covers x t) (N : s.Numbered) (hl : s.Later s')
    (hdue : s'.Due place → s.Due place)
    (hplace : s'.Due place) (hx : s'.subjectAt place = some x) : place < t := by
  refine h _ (hdue hplace) ?_
  rw [← hx, subjectAt, subjectAt, hl.getElem? (N.due_lt (hdue hplace))]

theorem Begun.later (h : s.Begun epoch start) (N : s.Numbered) (hl : s.Later s')
    (hdue : ∀ place, s'.Due place → s.Due place)
    (hepoch : s.epoch ≤ s'.epoch)
    (hbumps : ∀ n place, (n, place) ∈ s'.bumps → n ≤ s.epoch → (n, place) ∈ s.bumps)
    (hjour : s'.journal = s.journal) : s'.Begun epoch start where
  epoch_le := h.epoch_le.trans hepoch
  start_le := h.start_le.trans hl.length
  numbered n place hmem hn := h.numbered n _ (hbumps n _ hmem (hn.trans h.epoch_le)) hn
  untouched x ht place := by
    rw [hjour] at ht
    exact (h.untouched x ht).later N hl (hdue _)
  touched x ht := by
    rw [hjour] at ht ⊢
    obtain ⟨t, hstart, hcov, hof⟩ := h.touched x ht
    exact ⟨t, hstart, fun place => hcov.later N hl (hdue _), fun m => (hof m).later hl⟩

/-- What a reload has found so far still holds when the node has gone on. -/
theorem ReloadHolds.mono {phase} (h : s.ReloadHolds phase)
    (hbegun : phase.records = true → ∀ epoch start, s.Begun epoch start → s'.Begun epoch start)
    (hscanned : ∀ start found todo x, start ≤ s.commits.length → s.Scanned start found todo x →
      s'.Scanned start found todo x)
    (hepoch : s.epoch ≤ s'.epoch) (hclock : s.clock ≤ s'.clock) : s'.ReloadHolds phase := by
  cases phase with
  | idle => trivial
  | epochRead epoch => exact le_trans h hepoch
  | recording epoch =>
    obtain ⟨start, h⟩ := h
    exact ⟨start, hbegun rfl _ _ h⟩
  | scanning epoch now found todo =>
    obtain ⟨hnow, start, h, hscan⟩ := h
    exact ⟨hnow.trans hclock, start, hbegun rfl _ _ h,
      fun x => hscanned _ _ todo x h.start_le (hscan x)⟩

theorem Inv.later (I : s.Inv) (hl : s.Later s') (hwrit : s'.Written) (hnum : s'.Numbered)
    (hscan : ∀ start found todo x, start ≤ s.commits.length → s.Scanned start found todo x →
      s'.Scanned start found todo x)
    (hdue : ∀ place, s'.Due place → s.Due place) (hepoch : s.epoch ≤ s'.epoch)
    (hbumps : ∀ n place, (n, place) ∈ s'.bumps → n ≤ s.epoch → (n, place) ∈ s.bumps)
    (hcache : s'.caches = s.caches) (hjour : s'.journal = s.journal)
    (hrec : s'.recording = s.recording)
    (hload : s'.reload = s.reload) : s'.Inv where
  written := hwrit
  numbered := hnum
  records := by
    rw [RecordsScan, hrec, hload]
    exact I.records
  entries x := by
    obtain ⟨t, hof, hcov⟩ := I.entries x
    rw [hcache]
    exact ⟨t, hof.later hl, fun place => hcov.later I.numbered hl (hdue _)⟩
  reload := by
    rw [hload]
    exact I.reload.mono (fun _ _ _ h => h.later I.numbered hl hdue hepoch hbumps hjour) hscan hepoch
      hl.clock

theorem Scanned.later {found todo} (h : s.Scanned start found todo x) (hl : s.Later s')
    (hrows : s'.rows = s.rows) : s'.Scanned start found todo x := by
  rcases h with ⟨t, hstart, hof⟩ | ⟨hnone, hwait⟩
  · exact .inl ⟨t, hstart, hof.later hl⟩
  · exact .inr ⟨hnone, hrows ▸ hwait⟩

end

/-! ## Rows and bumps -/

section

variable {s : ControlNode} {c : Control} {id : Nat} {call : ControlCall} {place : Option Nat}

theorem later_commit : s.Later (s.commit c) := ⟨rfl, ⟨[c], rfl⟩, le_rfl⟩

theorem length_commit (s : ControlNode) (c : Control) :
    (s.commit c).commits.length = s.commits.length + 1 :=
  length_append

theorem rowsAt_commit_last :
    (s.commit c).rowsAt (s.commits.length + 1) = (s.rowsAt s.commits.length).commit c := by
  have htake : (s.commits ++ [c]).take (s.commits.length + 1) = s.commits ++ [c] :=
    take_of_length_le (by rw [length_append]; exact le_rfl)
  rw [rowsAt, rowsAt, take_length]
  exact (congrArg (foldl _ _) htake).trans (foldl_concat ..)

theorem Written.commit (W : s.Written) (hc : c.Admitted s.rows)
    (hsys : c.op.subject ≠ .realmStatus systemRealmId) : (s.commit c).Written where
  rows := by
    rw [length_commit, rowsAt_commit_last, W.rows]
    rfl
  listed := W.listed.commit hc
  value place c' hplace := by
    rcases lt_or_ge place s.commits.length with hlt | hge
    · rw [later_commit.rowsAt hlt]
      exact W.value _ c' ((later_commit.getElem? hlt).symm.trans hplace)
    · have heq : place = s.commits.length := by
        refine le_antisymm (le_of_lt_succ ?_) hge
        obtain ⟨hlt, -⟩ := List.getElem?_eq_some_iff.1 hplace
        exact hlt.trans_eq (length_commit s c)
      subst heq
      have hlast : (s.commit c).commits[s.commits.length]? = some c := getElem?_concat_length
      cases hlast.symm.trans hplace
      rw [rowsAt_commit_last, W.rows]
      exact current_commit_self hc hsys
  works id w hw := by
    have hold := W.works id w hw
    obtain ⟨hlt, -⟩ := List.getElem?_eq_some_iff.1 hold
    rw [later_commit.getElem? hlt, hold]

theorem Numbered.commit (N : s.Numbered) : (s.commit c).Numbered where
  __ := N
  bump n _ hmem := ⟨(N.bump n _ hmem).1, (N.bump n _ hmem).2.trans_le later_commit.length⟩
  returned _ hmem := (N.returned _ hmem).trans_le later_commit.length

/-- A row that the scan still has to find may only go with the last of its subject. -/
theorem Scanned.commit {start found todo x}
    (h : s.Scanned start found todo x) (W : s.Written) (hc : c.Admitted s.rows)
    (hsys : c.op.subject ≠ .realmStatus systemRealmId) (hstart : start ≤ s.commits.length) :
    (s.commit c).Scanned start found todo x := by
  rcases h with ⟨t, ht, hof⟩ | ⟨hnone, hwait⟩
  · exact .inl ⟨t, ht, hof.later later_commit⟩
  · cases x with
    | realmStatus => cases hwait
    | revokedJti => exact .inr ⟨hnone, hwait⟩
    | blockedJkt jkt =>
      obtain ⟨row, hrow, rfl, htodo⟩ := hwait
      by_cases hkept : row ∈ (s.rows.commit c).blockedJkt
      · exact .inr ⟨hnone, row, hkept, rfl, htodo⟩
      · have hsubj : .blockedJkt row.2 = c.op.subject := by
          by_contra hne
          exact hkept ((mem_blockedJkt_commit hne).2 hrow)
        have hgone : (s.rows.commit c).current (.blockedJkt row.2) = none := by
          cases c with
          | blockJkt => exact absurd (Finset.mem_insert_of_mem hrow) hkept
          | unblockJkt realm jkt =>
            cases hsubj
            exact current_commit_self hc hsys
          | revokeJti | forgetJti | setRealmStatus | forgetRealmStatus => cases hsubj
        refine .inl ⟨s.commits.length + 1, hstart.trans (le_succ _), ?_, .inl ?_⟩
        · exact (length_commit s c).ge
        · rw [rowsAt_commit_last, W.rows, hgone, hnone]

theorem Inv.commit (I : s.Inv) (hc : c.Admitted s.rows)
    (hsys : c.op.subject ≠ .realmStatus systemRealmId) :
    (s.commit c).Inv :=
  I.later later_commit (I.written.commit hc hsys) I.numbered.commit
    (fun _ _ _ _ hstart hscan => hscan.commit I.written hc hsys hstart) (fun _ h => h) le_rfl
      (fun _ _ h _ => h) rfl rfl rfl rfl

theorem Inv.setCall (I : s.Inv)
    (hwork : ∀ w, call.work = some w → s.commits[w.place]? = some w.control)
    (hown : ∀ work n, call = .bumped work (some n) →
      n ≤ s.epoch ∧ ∀ place, (n, place) ∈ s.bumps → ∃ w, work = some w ∧ w.place = place) :
    (s.setCall id call).Inv := by
  have hcalls : (s.setCall id call).calls = Function.update s.calls id call := rfl
  have W : (s.setCall id call).Written :=
    { I.written with works := forall_move hcalls hwork fun id' _ => I.written.works id' }
  have N : (s.setCall id call).Numbered :=
    { I.numbered with own := forall_move hcalls hown fun id' _ => I.numbered.own id' }
  have hl : s.Later (s.setCall id call) := .of_eq rfl rfl le_rfl
  exact I.later hl W N (fun _ _ _ _ _ hscan => hscan.later hl rfl) (fun _ h => h) le_rfl
    (fun _ _ h _ => h) rfl rfl rfl rfl

theorem mem_bumps_increment {n p} (h : (n, p) ∈ (s.increment place).bumps) :
    (n, p) ∈ s.bumps ∨ n = s.epoch + 1 ∧ place = some p := by
  rcases mem_append.1 h with hold | hnew
  · exact .inl hold
  · obtain ⟨p', hp', heq⟩ := mem_map.1 hnew
    cases heq
    exact .inr ⟨rfl, Option.mem_toList.1 hp'⟩

theorem mem_bumps_of_le {n p} (h : (n, p) ∈ (s.increment place).bumps) (hn : n ≤ s.epoch) :
    (n, p) ∈ s.bumps :=
  (mem_bumps_increment h).resolve_right fun hnew => not_succ_le_self _ (hnew.1 ▸ hn)

theorem Numbered.increment (N : s.Numbered) (hplace : ∀ p, place = some p → p < s.commits.length) :
    (s.increment place).Numbered where
  bump n p hmem := by
    rcases mem_bumps_increment hmem with hold | ⟨rfl, hp⟩
    · exact ⟨(N.bump n p hold).1.trans (le_succ _), (N.bump n p hold).2⟩
    · exact ⟨le_rfl, hplace p hp⟩
  returned := N.returned
  mark := N.mark.trans (le_succ _)
  parked n hn := ⟨(N.parked n hn).1.trans (le_succ _),
    fun p hmem => (N.parked n hn).2 p (mem_bumps_of_le hmem (N.parked n hn).1)⟩
  own id work n hcall := ⟨(N.own id work n hcall).1.trans (le_succ _),
    fun p hmem => (N.own id work n hcall).2 p (mem_bumps_of_le hmem (N.own id work n hcall).1)⟩

theorem Inv.increment (I : s.Inv) (hplace : ∀ p, place = some p → p < s.commits.length) :
    (s.increment place).Inv := by
  have hdue : ∀ p, (s.increment place).Due p → s.Due p := by
    rintro p (hmem | ⟨n, hn, hmem⟩)
    · exact .inl hmem
    · exact .inr ⟨n, hn, mem_bumps_of_le hmem (hn.trans I.numbered.mark)⟩
  have hl : s.Later (s.increment place) := .of_eq rfl rfl le_rfl
  exact I.later hl { I.written with } (I.numbered.increment hplace)
    (fun _ _ _ _ _ hscan => hscan.later hl rfl)
    hdue (le_succ _) (fun _ _ => mem_bumps_of_le) rfl rfl rfl rfl

end

/-! ## A change is applied -/

section

variable {shard : RealmId → String → Nat} {s : ControlNode} {now : Int} {w : Committed}
    {x : Subject} {t : Nat}

theorem Inv.readClock (I : s.Inv) : (s.readClock now).Inv :=
  have hl : s.Later (s.readClock now) := .of_eq rfl rfl (le_max_left ..)
  I.later hl { I.written with } { I.numbered with } (fun _ _ _ _ _ hscan => hscan.later hl rfl)
    (fun _ h => h) le_rfl (fun _ _ h _ => h) rfl rfl rfl rfl

theorem due_applyOp {place} (h : (s.applyOp shard now w).Due place) :
    s.Due place ∨ place = w.place := by
  rcases h with hmem | hbump
  · rcases mem_append.1 hmem with hold | hnew
    · exact .inl (.inl hold)
    · exact .inr (mem_singleton.1 hnew)
  · exact .inl (.inr hbump)

theorem Numbered.applyOp (N : s.Numbered) (hw : w.place < s.commits.length) :
    (s.applyOp shard now w).Numbered where
  __ := N
  returned place hmem := by
    rcases mem_append.1 hmem with hold | hnew
    · exact N.returned _ hold
    · exact mem_singleton.1 hnew ▸ hw
  parked n hn := ⟨(N.parked n hn).1, fun place hmem => mem_append_left _ ((N.parked n hn).2 _ hmem)⟩

theorem Covers.applyOp (h : s.Covers x t) (hw : s.commits[w.place]? = some w.control)
    (hne : w.control.op.subject ≠ x) : (s.applyOp shard now w).Covers x t := by
  intro place hdue hx
  rcases due_applyOp hdue with hold | rfl
  · exact h _ hold hx
  · refine absurd ?_ hne
    have hsubj : s.subjectAt w.place = some w.control.op.subject := by rw [subjectAt, hw]; rfl
    exact Option.some.inj (hsubj.symm.trans hx)

theorem Numbered.covers_length (N : s.Numbered) : s.Covers x s.commits.length :=
    fun _ hdue _ => N.due_lt hdue

theorem Written.asOf_present (W : s.Written) : s.AsOf x (s.rows.current x) s.commits.length :=
  ⟨le_rfl, W.rows.symm ▸ .refl _⟩

section

variable (hw : s.commits[w.place]? = some w.control)
    (hcur : s.rows.current w.control.op.subject = w.control.op.value)

include hw hcur

theorem Begun.applyOp {epoch start} (h : s.Begun epoch start) (W : s.Written)
    (N : (s.applyOp shard now w).Numbered) (hrec : s.recording = true) :
    (s.applyOp shard now w).Begun epoch start := by
  have hjour : (s.applyOp shard now w).journal = s.journal ++ [w.control.op.edit] := by
    simp [journal, ControlNode.applyOp, hrec]
  refine { h with untouched := fun x ht => ?_, touched := fun x ht => ?_ }
  · rw [hjour, touches_concat, not_or] at ht
    exact (h.untouched x ht.1).applyOp hw ht.2
  · rw [hjour] at ht ⊢
    by_cases hne : w.control.op.subject = x
    · subst hne
      refine ⟨s.commits.length, h.start_le, N.covers_length, fun m => ?_⟩
      rw [show replay m (s.journal ++ [w.control.op.edit]) w.control.op.subject = _
        from replay_concat_self]
      have hvalue : s.AsOf _ w.control.op.value s.commits.length := hcur ▸ W.asOf_present
      exact hvalue
    · obtain ⟨t, hstart, hcov, hof⟩ := h.touched x ((touches_concat.1 ht).resolve_right hne)
      refine ⟨t, hstart, hcov.applyOp hw hne, fun m => ?_⟩
      rw [replay_concat_of_ne hne]
      exact hof m

theorem Inv.applyOp (I : s.Inv) (hnow : now ≤ s.clock) : (s.applyOp shard now w).Inv := by
  have W : (s.applyOp shard now w).Written := { I.written with }
  have N : (s.applyOp shard now w).Numbered := I.numbered.applyOp (List.getElem?_eq_some_iff.1 hw).1
  refine ⟨W, N, I.records, fun x => ?_, ?_⟩
  · by_cases hx : x = w.control.op.subject
    · subst hx
      refine ⟨s.commits.length, ?_, N.covers_length⟩
      rw [show (s.applyOp shard now w).caches w.control.op.subject = _ from applyToCaches_self,
        ← hcur]
      exact W.asOf_present
    · obtain ⟨t, hof, hcov⟩ := I.entries x
      exact ⟨t, ⟨hof.1, (applyToCaches_of_ne hnow hx).trans hof.2⟩, hcov.applyOp hw (symm hx)⟩
  · exact I.reload.mono (fun hrec _ _ h => h.applyOp hw hcur I.written N (I.records.trans hrec))
      (fun _ _ _ _ _ h => h) le_rfl le_rfl

end

theorem Inv.recordLocalEpoch {n} (I : s.Inv) (hn : n ≤ s.epoch)
    (hret : ∀ place, (n, place) ∈ s.bumps → place ∈ s.returned) : (s.recordLocalEpoch n).Inv := by
  have hmark : (s.recordLocalEpoch n).applied.mark ≤ s.epoch := by
    rcases le_record le_rfl with hle | heq | hmem
    · exact hle.trans I.numbered.mark
    · exact heq.trans_le hn
    · exact (I.numbered.parked _ hmem).1
  have hparked : ∀ m ∈ (s.recordLocalEpoch n).applied.parked,
      m ≤ s.epoch ∧ ∀ place, (m, place) ∈ s.bumps → place ∈ s.returned := by
    intro m hm
    rcases parked_record hm with rfl | hm
    · exact ⟨hn, hret⟩
    · exact I.numbered.parked m hm
  have hdue : ∀ place, (s.recordLocalEpoch n).Due place → s.Due place := by
    rintro place (hmem | ⟨m, hm, hbump⟩)
    · exact .inl hmem
    · rcases le_record hm with hle | rfl | hpark
      · exact .inr ⟨m, hle, hbump⟩
      · exact .inl (hret _ hbump)
      · exact .inl ((I.numbered.parked m hpark).2 _ hbump)
  have hl : s.Later (s.recordLocalEpoch n) := .of_eq rfl rfl le_rfl
  exact I.later hl { I.written with } { I.numbered with mark := hmark, parked := hparked }
    (fun _ _ _ _ _ hscan => hscan.later hl rfl) hdue le_rfl (fun _ _ h _ => h) rfl rfl rfl rfl

theorem Inv.apply {id work epoch} (I : s.Inv)
    (hid : s.calls id = .bumped work epoch) (hcur : s.AppliesCurrent id) :
    ((s.apply shard now work epoch).setCall id .idle).Inv := by
  have hop : (work.elim (s.readClock now) ((s.readClock now).applyOp shard now)).Inv := by
    cases work with
    | none => exact I.readClock
    | some w =>
      refine I.readClock.applyOp (I.written.works id w ?_) (hcur w _ hid) (le_max_right ..)
      rw [hid]
      rfl
  have hepoch : (s.apply shard now work epoch).Inv := by
    cases epoch with
    | none => exact hop
    | some n =>
      obtain ⟨hn, hown⟩ := I.numbered.own id work n hid
      cases work with
      | none =>
        refine hop.recordLocalEpoch hn fun place hmem => ?_
        obtain ⟨w, hw, -⟩ := hown _ hmem
        cases hw
      | some w =>
        refine hop.recordLocalEpoch hn fun place hmem => ?_
        obtain ⟨w, hw, rfl⟩ := hown _ hmem
        cases hw
        exact mem_append_right _ (mem_singleton_self _)
  exact hepoch.setCall nofun nofun

end

/-! ## A reload -/

section

variable {s : ControlNode} {start epoch : Nat} {now : Int} {found : Caches} {x : Subject}
    {phase : ReloadPhase}

theorem Inv.setReload (I : s.Inv) (hrecs : s.recording = phase.records)
    (h : (s.setReload phase).ReloadHolds phase) : (s.setReload phase).Inv :=
  ⟨{ I.written with }, { I.numbered with }, hrecs, I.entries, h⟩

theorem Begun.setReload (h : s.Begun epoch start) (N : s.Numbered) :
    (s.setReload phase).Begun epoch start :=
  h.later N (.of_eq rfl rfl le_rfl) (fun _ h => h) le_rfl (fun _ _ h _ => h) rfl

theorem scanned_scanRealms (W : s.Written) (hstart : start ≤ s.commits.length) :
    s.Scanned start s.rows.scanRealms s.rows.scanSteps x := by
  have hpres : s.rows.scanRealms x = s.rows.current x →
    s.Scanned start s.rows.scanRealms s.rows.scanSteps x :=
    fun heq => .inl ⟨s.commits.length, hstart, heq ▸ W.asOf_present⟩
  cases x with
  | realmStatus realm => exact hpres rfl
  | revokedJti realm jti =>
    by_cases hlist : realm ∈ s.rows.realmIds
    · exact .inr ⟨rfl, mem_append_left _ (mem_map_of_mem hlist)⟩
    · refine hpres ?_
      cases hrow : s.rows.revokedJti (realm, jti) with
      | none => exact hrow.symm
      | some exp => exact absurd (W.listed.1 _ jti exp hrow) hlist
  | blockedJkt jkt =>
    by_cases hrow : ∃ row ∈ s.rows.blockedJkt, row.2 = jkt
    · obtain ⟨row, hrow, hj⟩ := hrow
      exact .inr ⟨rfl, row, hrow, hj, mem_append_right _ (mem_map_of_mem (W.listed.2 row hrow))⟩
    · refine hpres (current_blockedJkt_eq_none.2 fun row hmem hj => ?_).symm
      exact hrow ⟨row, hmem, hj⟩

variable {todo : List ScanStep} {realm : RealmId}

theorem Scanned.revokedJtis
    (h : s.Scanned start found (.revokedJtis realm :: todo) x) (W : s.Written)
    (hstart : start ≤ s.commits.length)
    (hnow : now ≤ s.clock) :
    s.Scanned start (s.rows.scan now found (.revokedJtis realm)) todo x := by
  cases x with
  | realmStatus realm' => exact h
  | blockedJkt jkt =>
    refine h.imp_right fun ⟨hnone, row, hrow, hj, hmem⟩ => ⟨hnone, row, hrow, hj, ?_⟩
    exact (mem_cons.1 hmem).resolve_left nofun
  | revokedJti realm' jti =>
    by_cases heq : realm' = realm
    · subst heq
      have hagree : s.AsOf (.revokedJti realm' jti)
        ((s.rows.revokedJti (realm', jti)).filter (unexpired now))
          s.commits.length := ⟨le_rfl, W.rows.symm ▸ agrees_filter hnow _⟩
      have hfound : s.rows.scan now found (.revokedJtis realm') (.revokedJti realm' jti) =
          ((s.rows.revokedJti (realm', jti)).filter (unexpired now)).or
            (found (.revokedJti realm' jti)) := if_pos rfl
      unfold Scanned
      rw [hfound]
      cases hrow : (s.rows.revokedJti (realm', jti)).filter (unexpired now) with
      | some exp =>
        rw [hrow] at hagree
        exact .inl ⟨s.commits.length, hstart, hagree⟩
      | none =>
        rcases h with h | ⟨hnone, -⟩
        · exact .inl h
        · rw [hrow] at hagree
          exact .inl ⟨s.commits.length, hstart, hnone.symm ▸ hagree⟩
    · have hsame : s.rows.scan now found (.revokedJtis realm) (.revokedJti realm' jti) =
        found (.revokedJti realm' jti) :=
        if_neg heq
      unfold Scanned
      rw [hsame]
      refine h.imp_right fun ⟨hnone, hmem⟩ =>
        ⟨hnone, (mem_cons.1 hmem).resolve_left fun hhead => heq ?_⟩
      cases hhead
      rfl

theorem Scanned.blockedJkts
    (h : s.Scanned start found (.blockedJkts realm :: todo) x) (W : s.Written)
    (hstart : start ≤ s.commits.length) :
    s.Scanned start (s.rows.scan now found (.blockedJkts realm)) todo x := by
  cases x with
  | realmStatus realm' => exact h
  | revokedJti realm' jti =>
    exact h.imp_right fun ⟨hnone, hmem⟩ => ⟨hnone, (mem_cons.1 hmem).resolve_left nofun⟩
  | blockedJkt jkt =>
    by_cases hrow : (realm, jkt) ∈ s.rows.blockedJkt
    · have hfound : s.rows.scan now found (.blockedJkts realm) (.blockedJkt jkt) =
        s.rows.current (.blockedJkt jkt) :=
        (if_pos hrow).trans (current_blockedJkt_eq_some.2 ⟨_, hrow, rfl⟩).symm
      exact .inl ⟨s.commits.length, hstart, hfound ▸ W.asOf_present⟩
    · have hsame : s.rows.scan now found (.blockedJkts realm) (.blockedJkt jkt) =
        found (.blockedJkt jkt) := if_neg hrow
      unfold Scanned
      rw [hsame]
      refine h.imp_right fun ⟨hnone, row, hmem, hj, htodo⟩ => ⟨hnone, row, hmem, hj, ?_⟩
      refine (mem_cons.1 htodo).resolve_left fun hhead => hrow ?_
      cases hhead
      subst hj
      exact hmem

/-- The journal brings back what was applied since the reload began to record. -/
theorem Inv.publish (I : s.Inv) (hload : s.reload = .scanning epoch now found []) :
    (s.publish epoch found).Inv := by
  have hold := I.reload
  rw [hload] at hold
  obtain ⟨-, start, B, hscan⟩ := hold
  have hmark : (s.publish epoch found).applied.mark ≤ s.epoch := by
    rcases le_raise le_rfl with hle | hle | hmem
    · exact hle.trans I.numbered.mark
    · exact hle.trans B.epoch_le
    · exact (I.numbered.parked _ hmem).1
  have hdue : ∀ place, (s.publish epoch found).Due place → s.Due place ∨ place < start := by
    rintro place (hmem | ⟨m, hm, hbump⟩)
    · exact .inl (.inl hmem)
    · rcases le_raise hm with hle | hle | hpark
      · exact .inl (.inr ⟨m, hle, hbump⟩)
      · exact .inr (B.numbered m _ hbump hle)
      · exact .inl (.inl ((I.numbered.parked m hpark).2 _ hbump))
  have hcov : ∀ x t, start ≤ t → s.Covers x t → (s.publish epoch found).Covers x t := by
    intro x t ht h place hplace hx
    rcases hdue _ hplace with hp | hlt
    · exact h _ hp hx
    · exact hlt.trans_le ht
  refine ⟨{ I.written with },
    { I.numbered with mark := hmark, parked := fun n hn => I.numbered.parked n (parked_raise hn) },
      rfl,
    fun x => ?_, trivial⟩
  by_cases ht : Touches s.journal x
  · obtain ⟨t, hstart, hcover, hof⟩ := B.touched x ht
    exact ⟨t, hof _, hcov x t hstart hcover⟩
  · have hentry : (s.publish epoch found).caches x = found x := replay_of_not_touches ht
    have hmoment : ∃ t, start ≤ t ∧ s.AsOf x (found x) t := by
      rcases hscan x with h | ⟨-, hwait⟩
      · exact h
      · cases x with
        | realmStatus | revokedJti => cases hwait
        | blockedJkt =>
          obtain ⟨_, _, _, hmem⟩ := hwait
          cases hmem
    obtain ⟨t, hstart, hof⟩ := hmoment
    refine ⟨t, ?_, hcov x t hstart fun place hd hx => (B.untouched x ht _ hd hx).trans_le hstart⟩
    rw [hentry]
    exact hof

end

/-! ## Runs -/

section

variable {shard : RealmId → String → Nat} {s s' : ControlNode} {ev : ControlEvent}

theorem inv_step (I : s.Inv) (hguard : ControlGuard ev s) (h : Step shard ev s s') : s'.Inv := by
  cases h with
  | @write _ id c _ hsys =>
    refine (I.commit hguard hsys).setCall (fun w hw => ?_) nofun
    cases hw
    exact getElem?_concat_length
  | begin _ => exact I.setCall nofun nofun
  | @bump _ id work hid =>
    have hwork : ∀ w, work = some w → s.commits[w.place]? = some w.control :=
      fun w hw => I.written.works id w (by rw [hid]; exact hw)
    refine (I.increment fun p hp => ?_).setCall hwork ?_
    · obtain ⟨w, hw, rfl⟩ := Option.map_eq_some_iff.1 hp
      exact (List.getElem?_eq_some_iff.1 (hwork w hw)).1
    · rintro _ n ⟨⟩
      refine ⟨le_rfl, fun place hmem => ?_⟩
      rcases mem_bumps_increment hmem with hold | ⟨-, hplace⟩
      · exact absurd (I.numbered.bump _ _ hold).1 (not_succ_le_self _)
      · exact Option.map_eq_some_iff.1 hplace
  | @bumpFails _ id work hid =>
      exact I.setCall (fun w hw => I.written.works id w (by rw [hid]; exact hw)) nofun
  | apply hid => exact I.apply hid hguard
  | replicatedRow hsys => exact I.commit hguard hsys
  | replicatedBump hplace =>
    refine I.increment fun p hp => ?_
    cases hp
    exact hplace
  | signal =>
    unfold signal
    split
    · exact I
    · exact I.later (.of_eq rfl rfl le_rfl) { I.written with } { I.numbered with }
        (fun _ _ _ _ _ hscan => hscan.later (.of_eq rfl rfl le_rfl) rfl)
        (fun _ h => h) le_rfl (fun _ _ h _ => h) rfl rfl rfl rfl
  | readEpoch hload =>
    refine I.setReload (I.records.recording_eq hload :) ?_
    exact le_rfl
  | @record _ epoch hload =>
    have hold := I.reload
    rw [hload] at hold
    have hempty : ∀ x, ¬Touches ((s.setRecording true).setReload (.recording epoch)).journal x := by
      rintro x ⟨_, hmem, _⟩
      cases hmem
    refine ⟨{ I.written with }, { I.numbered with }, rfl, I.entries,
      s.commits.length, hold, le_rfl, fun n place hmem _ => (I.numbered.bump n _ hmem).2, fun x _ =>
        ?_, fun x ht => ?_⟩
    · exact I.numbered.covers_length
    · exact absurd ht (hempty x)
  | @scanRealms _ epoch now hload =>
    have hold : (s.readClock now).ReloadHolds (.recording epoch) := hload ▸ I.readClock.reload
    obtain ⟨start, hbegun⟩ := hold
    refine I.readClock.setReload (I.records.recording_eq hload :)
      ⟨le_max_right .., start, ?_, fun x => ?_⟩
    · exact hbegun.setReload I.readClock.numbered
    · exact (scanned_scanRealms I.readClock.written hbegun.start_le).later
        (.of_eq rfl rfl le_rfl) rfl
  | @scanNext _ epoch now found y todo hload =>
    have hold := I.reload
    rw [hload] at hold
    obtain ⟨hnow, start, hbegun, hscan⟩ := hold
    refine I.setReload (I.records.recording_eq hload :)
      ⟨hnow, start, hbegun.setReload I.numbered, fun x => ?_⟩
    cases y with
    | revokedJtis realm => exact (hscan x).revokedJtis I.written hbegun.start_le hnow
    | blockedJkts realm => exact (hscan x).blockedJkts I.written hbegun.start_le
  | scanFails _ =>
    exact ⟨{ I.written with }, { I.numbered with }, rfl, I.entries, trivial⟩
  | publish hload => exact I.publish hload

theorem inv_init (h : s.Init) : s.Inv where
  written := by
    refine ⟨?_, h.listed, fun place c hc => ?_, fun id w hw => ?_⟩
    · rw [rowsAt, h.commits, h.origin]
      rfl
    · rw [h.commits] at hc
      cases hc
    · rw [h.calls id] at hw
      cases hw
  numbered := by
    refine ⟨fun n place hmem => ?_, fun place hmem => ?_, h.applied, fun n hn => ?_,
      fun id work n hn => ?_⟩
    · rw [h.bumps] at hmem
      cases hmem
    · rw [h.returned] at hmem
      cases hmem
    · rw [h.parked] at hn
      exact absurd hn (Finset.notMem_empty n)
    · rw [h.calls id] at hn
      cases hn
  records := by rw [RecordsScan, h.reload, h.recording]; rfl
  entries x := by
    refine ⟨0, ⟨zero_le _, ?_⟩, fun place hdue _ => ?_⟩
    · rw [h.caches, rowsAt, h.origin]
      exact .refl _
    · rcases hdue with hmem | ⟨n, -, hmem⟩
      · rw [h.returned] at hmem
        cases hmem
      · rw [h.bumps] at hmem
        cases hmem
  reload := by
    rw [h.reload]
    trivial

/-- What the rows say of a subject at a moment is what the last control before it said. -/
theorem Written.last_control (W : s.Written) {place t c} (hc : s.commits[place]? = some c)
    (hlt : place < t) (ht : t ≤ s.commits.length) :
    ∃ place' c', place ≤ place' ∧ s.commits[place']? = some c' ∧ c'.op.subject = c.op.subject ∧
      (s.rowsAt t).current c'.op.subject = c'.op.value := by
  induction t with
  | zero => exact absurd hlt (not_lt_zero _)
  | succ t ih =>
    have hlast : s.commits[t]? = some (s.commits.get ⟨t, ht⟩) := getElem?_eq_getElem ht
    by_cases hsubj : (s.commits.get ⟨t, ht⟩).op.subject = c.op.subject
    · exact ⟨t, _, le_of_lt_succ hlt, hlast, hsubj, W.value t _ hlast⟩
    · have hne : place ≠ t := by
        rintro rfl
        cases hlast.symm.trans hc
        exact hsubj rfl
      obtain ⟨place', c', hle, hc', heq, hvalue⟩ :=
        ih (lt_of_le_of_ne (le_of_lt_succ hlt) hne) (le_of_succ_le ht)
      have hstep : s.rowsAt (t + 1) = (s.rowsAt t).commit (s.commits.get ⟨t, ht⟩) := by
        rw [rowsAt, take_succ_eq_append_getElem ht, foldl_concat]
        rfl
      refine ⟨place', c', hle, hc', heq, ?_⟩
      rw [hstep, current_commit_of_ne (fun h => hsubj (h.symm.trans heq)), hvalue]

theorem Inv.reflects (I : s.Inv) {place} (hdue : s.Due place) : s.Reflects place := by
  have hlt := I.numbered.due_lt hdue
  have hc : s.commits[place]? = some (s.commits.get ⟨place, hlt⟩) := getElem?_eq_getElem hlt
  obtain ⟨t, hof, hcov⟩ := I.entries _
  have hbef : place < t := hcov _ hdue (by rw [subjectAt, hc]; rfl)
  obtain ⟨place', c', hle, hc', heq, hvalue⟩ := I.written.last_control hc hbef hof.1
  refine ⟨place', _, c', hle, hc, hc', heq, ?_⟩
  rw [← hvalue, heq]
  exact hof.2

end

/-- In every run whose rows are admitted and whose changes are applied while the rows still say the
same, a control stays reflected once its change was applied here, and once `applied` covers its
bump. -/
theorem applied_controls_reflected {shard : RealmId → String → Nat} {s : ControlNode}
    (h : Reachable Init (LabelledWith (Step shard) ControlGuard) s) :
    (∀ place ∈ s.returned, s.Reflects place) ∧
      ∀ epoch ≤ s.applied.mark, ∀ place, (epoch, place) ∈ s.bumps → s.Reflects place := by
  have I : s.Inv := h.preserves inv_init inv_step
  exact ⟨fun place hmem => I.reflects (.inl hmem), fun epoch hle place hmem =>
    I.reflects (.inr ⟨epoch, hle, hmem⟩)⟩

/-- A block whose change is applied between the scan of a reload that has seen its row and the
swap. -/
theorem applied_controls_reflected_reload : ∃ s : ControlNode, s.returned = [0] ∧ (1, 0) ∈ s.bumps ∧
    s.applied.mark = 1 ∧ s.Reflects 0 := by
  have h0 : Reachable Init (LabelledWith (Step fun _ _ => 0) ControlGuard) freshNode :=
    .start freshNode_init
  have h1 := h0.next ⟨.write 0 (.blockJkt tenantRealm "k"), tenant_listed, .write rfl nofun⟩
  have h2 := h1.next ⟨.bump 0, trivial, .bump rfl⟩
  have h3 := h2.take (.readEpoch rfl)
  have h4 := h3.take (.record rfl)
  have h5 := h4.next ⟨.scanRealms 5, trivial, .scanRealms rfl⟩
  have h6 := h5.take (.scanNext rfl)
  have h7 := h6.take (.scanNext rfl)
  have h8 := h7.take (.scanNext rfl)
  have h9 := h8.take (.scanNext rfl)
  have h10 := h9.next ⟨.apply 0 6, by rintro w epoch ⟨⟩; rfl, .apply rfl⟩
  have h11 := h10.take (.publish rfl)
  obtain ⟨s, hs, hret, hbumps, hmark⟩ : ∃ s : ControlNode,
      Reachable Init (LabelledWith (Step fun _ _ => 0) ControlGuard) s ∧ s.returned = [0] ∧
        s.bumps = [(1, 0)] ∧
        s.applied.mark = 1 := ⟨_, h11, rfl, rfl, rfl⟩
  exact ⟨s, hret, hbumps ▸ mem_singleton_self _, hmark,
    (applied_controls_reflected hs).1 0 (hret ▸ mem_singleton_self _)⟩

/-- A key is blocked and then unblocked, by two calls that each write their row and bump the epoch
in this order; the block applies its change last. The key stays on the list, and `applied` is the
epoch of the unblock. -/
theorem late_change_hides_control : ∃ s : ControlNode,
    Reachable Init (LabelledWith (Step fun _ _ => 0) fun _ _ => True) s ∧
      (2, 1) ∈ s.bumps ∧ s.applied.mark = 2 ∧ s.rows.blockedJkt = ∅ ∧
      s.caches (.blockedJkt "k") = some () ∧
      ¬s.Reflects 1 := by
  have h0 : Reachable Init (LabelledWith (Step fun _ _ => 0) fun _ _ => True) freshNode :=
    .start freshNode_init
  have h1 := h0.next ⟨.write 0 (.blockJkt tenantRealm "k"), trivial, .write rfl nofun⟩
  have h2 := h1.next ⟨.bump 0, trivial, .bump rfl⟩
  have h3 := h2.next ⟨.write 1 (.unblockJkt tenantRealm "k"), trivial, .write rfl nofun⟩
  have h4 := h3.next ⟨.bump 1, trivial, .bump rfl⟩
  have h5 := h4.next ⟨.apply 1 3, trivial, .apply rfl⟩
  have h6 := h5.next ⟨.apply 0 4, trivial, .apply rfl⟩
  obtain ⟨s, hs, hcom, hbumps, hmark, hrows, hentry⟩ : ∃ s : ControlNode,
      Reachable Init (LabelledWith (Step fun _ _ => 0) fun _ _ => True) s ∧
        s.commits = [.blockJkt tenantRealm "k", .unblockJkt tenantRealm "k"] ∧
          s.bumps = [(1, 0), (2, 1)] ∧
        s.applied.mark = 2 ∧ s.rows.blockedJkt = ∅ ∧ s.caches (.blockedJkt "k") = some () :=
    ⟨_, h6, rfl, rfl, rfl, rfl, rfl⟩
  refine ⟨s, hs, by rw [hbumps]; decide, hmark, hrows, hentry, ?_⟩
  rintro ⟨place, c, c', hle, -, hc', -, hagree⟩
  rw [hcom] at hc'
  have hplace : place = 1 := le_antisymm (le_of_lt_succ (List.getElem?_eq_some_iff.1 hc').1) hle
  subst hplace
  cases hc'
  rcases hagree with heq | ⟨hnone, -⟩
  · exact nomatch hentry.symm.trans heq
  · exact nomatch hentry.symm.trans hnone

end ControlNode

end Hearth.Identity
