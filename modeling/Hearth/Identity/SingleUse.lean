import Hearth.Base.OneShot
import Hearth.Base.Replicated
import Mathlib.Data.Int.Order.Lemmas
import Mathlib.Order.Basic

/-!
# Single use and the sweep of its markers

An artifact is redeemed by putting a `consumed:` marker if it is absent. The
marker is dated the artifact's expiry in whole seconds plus the clock skew, and
a sweep on any node deletes it after that date. The artifact itself is accepted
while the redeeming node's clock, in microseconds, is before its expiry.

Results:
1. `single_use_survives`: with an expiry in whole seconds, and redemptions that
   claim before it, at most one redemption succeeds.
2. `single_use_fails`: an expiry of 10.5 s is cut to 10 s; half a second before
   it the marker can be gone.
-/

namespace Hearth.Identity

open Base Function Replicated

/-- UTC Unix microseconds. -/
abbrev Timestamp := Int

/-- `as_micros() / 1_000_000`; the division cuts towards zero. -/
def Timestamp.asSecs (t : Timestamp) : Int := t.tdiv 1000000

def clockSkewSecs : Int := 60

/-- How long a marker outlives the artifact it guards. -/
def consumedMarkerGraceSecs : Int := clockSkewSecs

def markerExpiresAt (artifactExpiresAt : Timestamp) : Int :=
  artifactExpiresAt.asSecs + consumedMarkerGraceSecs

/-- The seconds are cut towards zero. -/
theorem asSecs_cases (t : Int) : 0 ≤ t ∧ Timestamp.asSecs t = t / 1000000 ∨
    t ≤ 0 ∧ Timestamp.asSecs t = -(-t / 1000000) := by
  refine (le_total 0 t).imp (fun h => ⟨h, Int.tdiv_eq_ediv_of_nonneg h⟩) fun h => ⟨h, ?_⟩
  rw [← Int.tdiv_eq_ediv_of_nonneg (neg_nonneg_of_nonpos h), Int.neg_tdiv, neg_neg]
  rfl

/-- The expiry is a whole number of seconds. (Up to zero the cut goes the safe way.) -/
def WholeSeconds (t : Int) : Prop := -(clockSkewSecs * 1000000) < t ∧ (0 < t → t % 1000000 = 0)

theorem expired_of_swept {expiry now : Int} (hwhole : WholeSeconds expiry)
    (h : markerExpiresAt expiry ≤ Timestamp.asSecs now) :
    expiry + clockSkewSecs * 1000000 ≤ now := by
  obtain ⟨hlow, hwhole⟩ := hwhole
  unfold markerExpiresAt consumedMarkerGraceSecs clockSkewSecs at h
  unfold clockSkewSecs at hlow ⊢
  have hexpiry := asSecs_cases expiry
  have hnow := asSecs_cases now
  omega

/-- The artifact's row, of which the expiry is read, and its `consumed:` marker. -/
structure SingleUseStore where
  row : Option Timestamp
  marker : Option Int

namespace SingleUseStore

/-- `put_if_absent` of the marker. -/
def claimSingleUse (x : SingleUseStore) (artifactExpiresAt : Timestamp) : Bool × SingleUseStore :=
  match x.marker with
  | some _ => (false, x)
  | none => (true, { x with marker := some (markerExpiresAt artifactExpiresAt) })

/-- Whether `sweep_consumed_markers` picks the marker. -/
def sweepPicks (x : SingleUseStore) (nowSecs : Int) : Bool :=
  match x.marker with
  | some expiresAt => decide (expiresAt ≤ nowSecs)
  | none => false

variable {x : SingleUseStore} {e : Timestamp}

theorem claimSingleUse_fst : (x.claimSingleUse e).1 = true ↔ x.marker = none := by
  unfold claimSingleUse
  split <;> simp [*]

theorem claimSingleUse_marker :
    (x.claimSingleUse e).2.marker = some (x.marker.getD (markerExpiresAt e)) := by
  unfold claimSingleUse
  split <;> simp [*]

theorem claimSingleUse_row : (x.claimSingleUse e).2.row = x.row := by
  unfold claimSingleUse
  split <;> rfl

theorem sweepPicks_eq_true {nowSecs} :
    x.sweepPicks nowSecs = true ↔ ∃ m, x.marker = some m ∧ m ≤ nowSecs := by
  unfold sweepPicks
  split <;> simp [*]

def deleteRow (x : SingleUseStore) : SingleUseStore := { x with row := none }

def deleteMarker (x : SingleUseStore) : SingleUseStore := { x with marker := none }

end SingleUseStore

/-- A redemption with the expiry it read in the row. `take_single_use_row` claims unchecked and
leaves the check to its caller; the others check first. -/
inductive RedeemCall
  | idle
  | read (expiresAt : Timestamp)
  | checked (expiresAt : Timestamp)
  | claimed (expiresAt : Timestamp) (checked : Bool)
  | taken (expiresAt : Timestamp) (checked : Bool)
  | redeemed
  | refused

def RedeemCall.expiresAt : RedeemCall → Option Timestamp
  | read e | checked e | claimed e _ | taken e _ => some e
  | idle | redeemed | refused => none

/-- The calls that have won, or that will have if they end before the artifact is late. -/
def RedeemCall.Wins (late : Prop) : RedeemCall → Prop
  | claimed _ c | taken _ c => c = true ∨ ¬late
  | redeemed => True
  | idle | read _ | checked _ | refused => False

theorem RedeemCall.Wins.of_late {late late' : Prop} {c : RedeemCall} (h : late → late')
    (hc : c.Wins late') :
    c.Wins late := by
  cases c with
  | claimed | taken => exact hc.imp_right fun hn hl => hn (h hl)
  | redeemed => trivial
  | idle | read | checked | refused => exact hc

/-- A run of the sweep, with the time it started. -/
inductive SweepCall
  | idle
  | started (now : Timestamp)
  | picked (now : Timestamp)

inductive RedeemEvent (T : Type)
  | claim (t : T)
  | other

/-- Nodes `N`, redemptions `T` of one artifact and sweeps `W`. -/
structure RedeemSys (N T W : Type) where
  rep : Replicated N SingleUseStore
  clock : N → Timestamp
  call : T → RedeemCall
  sweep : W → SweepCall

namespace RedeemSys

variable {N T W : Type}

def goto [DecidableEq T] (s : RedeemSys N T W) (rep : Replicated N SingleUseStore) (t : T)
    (c : RedeemCall) :
    RedeemSys N T W :=
  { s with rep, call := update s.call t c }

def gotoSweep [DecidableEq W] (s : RedeemSys N T W) (rep : Replicated N SingleUseStore) (w : W)
    (c : SweepCall) :
    RedeemSys N T W :=
  { s with rep, sweep := update s.sweep w c }

/-- No two clocks differ by more than `clockSkewSecs`. -/
def InSkew (clock : N → Timestamp) : Prop := ∀ n m, clock m ≤ clock n + clockSkewSecs * 1000000

/-- `node t` is where redemption `t` runs, `host w` where sweep `w` runs. -/
inductive Step [DecidableEq N] [DecidableEq T] [DecidableEq W] (node : T → N) (host : W → N) :
    RedeemEvent T → RedeemSys N T W → RedeemSys N T W → Prop
  | tick {s clock} : (∀ n, s.clock n ≤ clock n) → InSkew clock →
      Step node host .other s { s with clock }
  | read {s t e} : s.call t = .idle →
      (s.rep.read (node t)).row = some e → Step node host .other s (s.goto s.rep t (.read e))
  | check {s t e} : s.call t = .read e → s.clock (node t) < e →
      Step node host .other s (s.goto s.rep t (.checked e))
  | claim {s t e checked} : s.call t = (if checked then .checked e else .read e) →
      (s.rep.current.claimSingleUse e).1 = true →
      Step node host (.claim t) s
        (s.goto (s.rep.propose (node t) (s.rep.current.claimSingleUse e).2) t (.claimed e checked))
  | lose {s} {t : T} {e} {checked : Bool} : s.call t = (if checked then .checked e else .read e) →
      (s.rep.current.claimSingleUse e).1 = false →
      Step node host (.claim t) s
        (s.goto (s.rep.propose (node t) (s.rep.current.claimSingleUse e).2) t .refused)
  | delete {s t e checked} : s.call t = .claimed e checked → Step node host .other s
        (s.goto (s.rep.propose (node t) s.rep.current.deleteRow) t (.taken e checked))
  | accept {s t e checked} : s.call t = .taken e checked →
      (checked = false → s.clock (node t) < e) → Step node host .other s (s.goto s.rep t .redeemed)
  /-- The artifact has expired, or another check or a storage operation fails. -/
  | refuse {s t} : s.call t ≠ .redeemed → Step node host .other s (s.goto s.rep t .refused)
  | sweepStart {s w} : s.sweep w = .idle →
      Step node host .other s (s.gotoSweep s.rep w (.started (s.clock (host w))))
  | sweepPick {s w now} : s.sweep w = .started now →
      (s.rep.read (host w)).sweepPicks now.asSecs = true →
      Step node host .other s (s.gotoSweep s.rep w (.picked now))
  | sweepDelete {s w now} : s.sweep w = .picked now →
      Step node host .other s
      (s.gotoSweep (s.rep.propose (host w) s.rep.current.deleteMarker) w .idle)
  /-- Nothing is due, or the batch fails. -/
  | sweepEnd {s w} : Step node host .other s (s.gotoSweep s.rep w .idle)
  | catchUp {s n v} (hv : v ≤ s.rep.length) : s.rep.view n ≤ v →
      Step node host .other s { s with rep := s.rep.catchUp n v hv }

variable (expiry : Timestamp) (s : RedeemSys N T W)

/-- An unredeemed artifact that expires at `expiry`. -/
def Init : Prop :=
  s.rep = .start { row := some expiry, marker := none } ∧ InSkew s.clock ∧
    s.call = (fun _ => .idle) ∧
    s.sweep = fun _ => .idle

def AtMostOnce : Prop := ∀ t u, s.call t = .redeemed → s.call u = .redeemed → t = u

/-- A redemption that has checked the expiry claims while that still holds. -/
def InTime (node : T → N) : RedeemEvent T → RedeemSys N T W → Prop
  | .claim t, s => ∀ e, s.call t = .checked e → s.clock (node t) < e
  | .other, _ => True

/-! ## Runs -/

/-- What the log can hold of an artifact that expires at `expiry`. -/
def Fits (x : SingleUseStore) : Prop :=
  (∀ e, x.row = some e → e = expiry) ∧ ∀ m, x.marker = some m → m = markerExpiresAt expiry

/-- Some clock is past the expiry by the whole skew: then all are past it. -/
def Late : Prop := ∃ n, expiry + clockSkewSecs * 1000000 ≤ s.clock n

structure Known (expiry : Timestamp) (s : RedeemSys N T W) : Prop where
  skew : InSkew s.clock
  fits : ∀ x, s.rep.Logged x → Fits expiry x
  call : ∀ t e, (s.call t).expiresAt = some e → e = expiry
  started : ∀ w now, s.sweep w = .started now → ∃ n, now ≤ s.clock n
  picked : ∀ w now, s.sweep w = .picked now → s.Late expiry

/-- The artifact as a contest: it closes when the artifact is late. -/
structure Tracks (expiry : Timestamp) (s : RedeemSys N T W) (o : OneShot T) : Prop where
  held : o.held → s.rep.current.marker ≠ none
  closed : o.closed ↔ s.Late expiry
  won : ∀ t, (s.call t).Wins (s.Late expiry) → o.won t

section

variable {expiry : Timestamp} {s s' : RedeemSys N T W} {rep : Replicated N SingleUseStore} {n : N}
    {t u : T}
  {c d : RedeemCall} {w v : W} {a b : SweepCall} {x : SingleUseStore} {o o' : OneShot T}

theorem not_late_of_lt (hskew : InSkew s.clock) (h : s.clock n < expiry) : ¬s.Late expiry := by
  rintro ⟨m, hm⟩
  exact absurd (le_of_add_le_add_right (hm.trans (hskew n m))) (not_le_of_gt h)

theorem fits_propose [DecidableEq N] (h : ∀ x, s.rep.Logged x → Fits expiry x) (hx : Fits expiry x)
    (y : SingleUseStore) (hy : (s.rep.propose n x).Logged y) : Fits expiry y := by
  rcases logged_propose.1 hy with hy | rfl
  · exact h y hy
  · exact hx

theorem fits_claim (h : Fits expiry x) : Fits expiry (x.claimSingleUse expiry).2 := by
  refine ⟨?_, fun m hm => ?_⟩
  · rw [SingleUseStore.claimSingleUse_row]
    exact h.1
  · rw [SingleUseStore.claimSingleUse_marker] at hm
    cases hx : x.marker with
    | none =>
      rw [hx] at hm
      cases hm
      rfl
    | some m' =>
      rw [hx] at hm
      cases hm
      exact h.2 _ hx

theorem call_goto [DecidableEq T] : (s.goto rep t c).call = update s.call t c := rfl

theorem Known.goto [DecidableEq T] (h : s.Known expiry) (hfits : ∀ x, rep.Logged x → Fits expiry x)
    (hc : ∀ e, c.expiresAt = some e → e = expiry) : (s.goto rep t c).Known expiry where
  __ := h
  fits := hfits
  call := forall_move call_goto hc fun u _ => h.call u

theorem sweep_gotoSweep [DecidableEq W] : (s.gotoSweep rep w a).sweep = update s.sweep w a := rfl

theorem Known.gotoSweep [DecidableEq W] (h : s.Known expiry)
    (hfits : ∀ x, rep.Logged x → Fits expiry x)
    (hstart : ∀ now, a = .started now → ∃ n, now ≤ s.clock n)
    (hpick : ∀ now, a = .picked now → s.Late expiry) : (s.gotoSweep rep w a).Known expiry where
  __ := h
  fits := hfits
  started := forall_move sweep_gotoSweep hstart fun v _ => h.started v
  picked := forall_move sweep_gotoSweep hpick fun v _ => h.picked v

theorem Tracks.goto [DecidableEq T] (h : s.Tracks expiry o)
    (hheld : o'.held → rep.current.marker ≠ none) (hclos : o'.closed ↔ o.closed)
    (hwon : ∀ u, o.won u → o'.won u)
    (hc : c.Wins (s.Late expiry) → o'.won t) : (s.goto rep t c).Tracks expiry o' where
  held := hheld
  closed := hclos.trans h.closed
  won := forall_move call_goto hc fun u _ hu => hwon u (h.won u hu)

end

section

variable [DecidableEq N] [DecidableEq T] [DecidableEq W] {node : T → N} {host : W → N}
    {expiry : Timestamp}
  {s s' : RedeemSys N T W} {ev : RedeemEvent T}

theorem known_step (hwhole : WholeSeconds expiry) (h : s.Known expiry)
    (hst : Step node host ev s s') :
    s'.Known expiry := by
  have hcur := h.fits _ s.rep.logged_current
  cases hst with
  | tick hmono hskew =>
    refine ⟨hskew, h.fits, h.call, fun w now hw => ?_, fun w now hw => ?_⟩
    · obtain ⟨n, hn⟩ := h.started w now hw
      exact ⟨n, hn.trans (hmono n)⟩
    · obtain ⟨n, hn⟩ := h.picked w now hw
      exact ⟨n, hn.trans (hmono n)⟩
  | @read _ t e ht hrow =>
    refine h.goto h.fits fun e' he => ?_
    cases he
    exact (h.fits _ (s.rep.logged_read _)).1 e hrow
  | @check _ t e ht hlt =>
    refine h.goto h.fits fun e' he => ?_
    cases he
    exact h.call t e (by rw [ht]; rfl)
  | @claim _ t e checked ht =>
    have he : e = expiry := h.call t e (by rw [ht]; cases checked <;> rfl)
    subst he
    refine h.goto (fits_propose h.fits (fits_claim hcur)) fun e' he => ?_
    cases he
    rfl
  | @lose _ t e checked ht =>
    have he : e = expiry := h.call t e (by rw [ht]; cases checked <;> rfl)
    subst he
    exact h.goto (fits_propose h.fits (fits_claim hcur)) nofun
  | @delete _ t e checked ht =>
    refine h.goto (fits_propose h.fits ⟨nofun, hcur.2⟩) fun e' he => ?_
    cases he
    exact h.call t e (by rw [ht]; rfl)
  | accept | refuse => exact h.goto h.fits nofun
  | @sweepStart _ w =>
    refine h.gotoSweep h.fits (fun now hnow => ?_) nofun
    cases hnow
    exact ⟨host w, le_rfl⟩
  | @sweepPick _ w now hw hpick =>
    refine h.gotoSweep h.fits nofun fun _ _ => ?_
    obtain ⟨m, hm, hle⟩ := SingleUseStore.sweepPicks_eq_true.1 hpick
    obtain ⟨n, hn⟩ := h.started w now hw
    rw [(h.fits _ (s.rep.logged_read _)).2 m hm] at hle
    exact ⟨n, (expired_of_swept hwhole hle).trans hn⟩
  | sweepDelete => exact h.gotoSweep (fits_propose h.fits ⟨hcur.1, nofun⟩) nofun nofun
  | sweepEnd => exact h.gotoSweep h.fits nofun nofun
  | catchUp => exact { h with }

theorem tracks_step {o : OneShot T} (hknown : s.Known expiry) (h : s.Tracks expiry o)
    (hin : InTime node ev s)
    (hst : Step node host ev s s') : ∃ o', s'.Tracks expiry o' := by
  cases hst with
  | tick hmono =>
    have hlate : o.closed → Late expiry { s with clock := _ } := fun hc =>
      let ⟨n, hn⟩ := h.closed.1 hc
      ⟨n, hn.trans (hmono n)⟩
    exact ⟨o.close _ hlate, h.held, .rfl, fun t ht =>
      h.won t (ht.of_late fun hl => hlate (h.closed.2 hl))⟩
  | read | check | refuse => exact ⟨o, h.goto h.held .rfl (fun _ hu => hu) nofun⟩
  | @claim _ t e checked ht hfree =>
    have hmark : (s.rep.propose (node t) (s.rep.current.claimSingleUse e).2).current.marker ≠
        none := by
      rw [current_propose, SingleUseStore.claimSingleUse_marker]
      nofun
    have he : e = expiry := hknown.call t e (by rw [ht]; cases checked <;> rfl)
    by_cases hlate : s.Late expiry
    · -- the contest is closed, so the expiry was not checked before
      refine ⟨o.hold, h.goto (fun _ => hmark) .rfl (fun _ hu => hu) fun hc => ?_⟩
      rcases hc with rfl | hc
      · exact absurd hlate (not_late_of_lt hknown.skew (he ▸ hin e ht))
      · exact absurd hlate hc
    · have hheld : ¬o.held := fun hh => h.held hh (SingleUseStore.claimSingleUse_fst.1 hfree)
      have hopen : ¬o.closed := fun hc => hlate (h.closed.1 hc)
      exact ⟨o.win t hheld hopen, h.goto (fun _ => hmark) .rfl (fun _ => .inr) fun _ => .inl rfl⟩
  | lose =>
    refine ⟨o, h.goto (fun _ => ?_) .rfl (fun _ hu => hu) nofun⟩
    rw [current_propose, SingleUseStore.claimSingleUse_marker]
    nofun
  | @delete _ t e checked ht =>
    refine ⟨o, h.goto (fun hh => ?_) .rfl (fun _ hu => hu) fun hc => h.won t (by rw [ht]; exact hc)⟩
    rw [current_propose]
    exact h.held hh
  | @accept _ t e checked ht hcheck =>
    refine ⟨o, h.goto h.held .rfl (fun _ hu => hu) fun _ => h.won t ?_⟩
    have he : e = expiry := hknown.call t e (by rw [ht]; rfl)
    rw [ht]
    cases checked with
    | true => exact .inl rfl
    | false => exact .inr (not_late_of_lt hknown.skew (he ▸ hcheck rfl))
  | sweepStart | sweepPick | sweepEnd | catchUp => exact ⟨o, { h with }⟩
  | @sweepDelete _ w now hw =>
    exact ⟨o.clear (h.closed.2 (hknown.picked w now hw)), nofun, h.closed, h.won⟩

/-- If an artifact expires on a whole second, and whoever has checked its expiry claims before it,
at most one redemption succeeds. -/
theorem single_use_survives (hwhole : WholeSeconds expiry)
    (h : Reachable (Init expiry) (LabelledWith (Step node host) (InTime node)) s) :
    s.AtMostOnce := by
  have hinv : s.Known expiry ∧ ∃ o, s.Tracks expiry o := by
    refine h.invariant (I := fun s => s.Known expiry ∧ ∃ o, s.Tracks expiry o) (fun s hs => ?_)
      fun s s' _ ⟨hknown, o, ho⟩ ⟨ev, hin, hst⟩ =>
        ⟨known_step hwhole hknown hst, tracks_step hknown ho hin hst⟩
    obtain ⟨hrep, hskew, hcall, hsweep⟩ := hs
    refine ⟨⟨hskew, fun x hx => ?_, ?_, ?_, ?_⟩, .start _, nofun, .rfl, ?_⟩
    · rw [hrep] at hx
      rw [logged_start.1 hx]
      exact ⟨fun e he => (Option.some.inj he).symm, nofun⟩
    · rw [hcall]
      nofun
    · rw [hsweep]
      nofun
    · rw [hsweep]
      nofun
    · rw [hcall]
      nofun
  obtain ⟨-, o, ho⟩ := hinv
  refine fun t u ht hu => o.unique t u (ho.won t ?_) (ho.won u ?_)
  · rw [ht]
    trivial
  · rw [hu]
    trivial

end

section

/-- Two nodes, redemption `i` on node `i`, the sweep on node 0. -/
abbrev DemoSys := RedeemSys (Fin 2) (Fin 2) Unit

def demoClock (a b : Timestamp) (n : Fin 2) : Timestamp := if n = 0 then a else b

theorem demoClock_inSkew {a b} (ha : a ≤ b + clockSkewSecs * 1000000)
    (hb : b ≤ a + clockSkewSecs * 1000000) : InSkew (demoClock a b) := by
  have hle : ∀ c : Timestamp, c ≤ c + clockSkewSecs * 1000000 :=
    fun c => le_add_of_nonneg_right (by decide)
  intro n m
  match n, m with
  | 0, 0 => exact hle a
  | 0, 1 => exact hb
  | 1, 0 => exact ha
  | 1, 1 => exact hle b

def demoSys (expiry : Timestamp) : DemoSys where
  rep := .start { row := some expiry, marker := none }
  clock := demoClock 10000000 0
  call _ := .idle
  sweep _ := .idle

abbrev DemoRun (expiry : Timestamp) : DemoSys → Prop :=
  Reachable (Init expiry) (LabelledWith (Step id fun _ => 0) (InTime id))

/-- Redemption 0 succeeds. 60 s later, when node 1 shows 10 s, redemption 1 finds the marker, and a
second after that the sweep deletes it. -/
theorem single_use_survives_eleven : ∃ s : DemoSys, s.call 0 = .redeemed ∧ s.call 1 = .refused ∧
    s.rep.current.marker = none ∧ s.AtMostOnce := by
  have h0 : DemoRun 11000000 (demoSys 11000000) :=
    .start ⟨rfl, demoClock_inSkew (by decide) (by decide), rfl, rfl⟩
  have h1 := h0.take (.read (t := 1) rfl rfl)
  have h2 := h1.take (.read (t := 0) rfl rfl)
  have h3 := h2.take (.check (t := 0) rfl (by decide))
  have h4 := h3.next ⟨.claim 0, fun e he => by cases he; decide,
    .claim (t := 0) (if_pos rfl).symm rfl⟩
  have h5 := h4.take (.delete (t := 0) rfl)
  have h6 := h5.take (.accept (t := 0) rfl nofun)
  have h7 := h6.take (.tick (by decide)
    (@demoClock_inSkew 70000000 10000000 (by decide) (by decide)))
  have h8 := h7.take (.check (t := 1) rfl (by decide))
  have h9 := h8.next ⟨.claim 1, fun e he => by cases he; decide,
    .lose (t := 1) (if_pos rfl).symm rfl⟩
  have h10 := h9.take (.tick (by decide)
    (@demoClock_inSkew 71000000 11000000 (by decide) (by decide)))
  have h11 := h10.take (.sweepStart (w := ()) rfl)
  have h12 := h11.take (.sweepPick (w := ()) rfl rfl)
  have h13 := h12.take (.sweepDelete (w := ()) rfl)
  exact ⟨_, rfl, rfl, rfl, single_use_survives ⟨by decide, fun _ => rfl⟩ h13⟩

/-- The artifact expires at 10.5 s, its marker at 70 s. Redemption 0 succeeds; the sweep runs when
node 0 shows 70 s and node 1 shows 10 s, and redemption 1 succeeds there. -/
theorem single_use_fails : ∃ s : DemoSys, DemoRun 10500000 s ∧ ¬s.AtMostOnce := by
  have h0 : DemoRun 10500000 (demoSys 10500000) :=
    .start ⟨rfl, demoClock_inSkew (by decide) (by decide), rfl, rfl⟩
  have h1 := h0.take (.read (t := 1) rfl rfl)
  have h2 := h1.take (.read (t := 0) rfl rfl)
  have h3 := h2.take (.check (t := 0) rfl (by decide))
  have h4 := h3.next ⟨.claim 0, fun e he => by cases he; decide,
    .claim (t := 0) (if_pos rfl).symm rfl⟩
  have h5 := h4.take (.delete (t := 0) rfl)
  have h6 := h5.take (.accept (t := 0) rfl nofun)
  have h7 := h6.take (.tick (by decide)
    (@demoClock_inSkew 70000000 10000000 (by decide) (by decide)))
  have h8 := h7.take (.sweepStart (w := ()) rfl)
  have h9 := h8.take (.sweepPick (w := ()) rfl rfl)
  have h10 := h9.take (.sweepDelete (w := ()) rfl)
  have h11 := h10.take (.check (t := 1) rfl (by decide))
  have h12 := h11.next ⟨.claim 1, fun e he => by cases he; decide,
    .claim (t := 1) (if_pos rfl).symm rfl⟩
  have h13 := h12.take (.delete (t := 1) rfl)
  have h14 := h13.take (.accept (t := 1) rfl nofun)
  exact ⟨_, h14, fun honce => absurd (honce 0 1 rfl rfl) (by decide)⟩

end

end RedeemSys

end Hearth.Identity
