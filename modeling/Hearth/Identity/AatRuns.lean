import Hearth.Base.Run
import Hearth.Identity.Aat

/-!
# Runs over attenuating tokens

Tokens are issued, derived and revoked, agents change their status, and a sweep deletes
records of expired tokens, with one clock that never goes back. A `jti` is minted once.

Results:
1. `aat_only_attenuates`: where no derivation compares two numbers that round alike, an
   accepted token is within all its ancestors, none of which was revoked; no sweep costs
   an unexpired token its chain; and `derive` does not panic while the parent lives.
2. `rounded_bound_escalates`: `2 ^ 53 + 1` is taken for `2 ^ 53`; and a parent that expires
   between the two readings of the clock makes `derive` panic.
-/

namespace Hearth.Identity

open Base List Function

/-- The rows, and for the record every token minted and every revocation made. -/
structure AatSys where
  rows : AatRows
  /-- The seconds the clock has reached. -/
  clock : Int
  minted : String → Option AatClaims
  revocations : List String

namespace AatSys

variable (s : AatSys)

def Init : Prop :=
  s.rows.record = (fun _ => none) ∧ s.rows.revoked = (fun _ => false) ∧ s.minted = (fun _ => none) ∧
    s.revocations = []

def mint (c : AatClaims) (now : Int) : AatSys :=
  { s with
    rows := { s.rows with record := update s.rows.record c.jti (some c) }
    clock := now
    minted := update s.minted c.jti (some c) }

def revoke (jti : String) : AatSys :=
  { s with
    rows := { s.rows with revoked := update s.rows.revoked jti true }
    revocations := jti :: s.revocations }

def sweep (gone : List String) (now : Int) : AatSys :=
  { s with
    rows := { s.rows with record := fun j => if j ∈ gone then none else s.rows.record j }
    clock := now }

def setAgent (id : AgentId) (status : Option AgentStatus) : AatSys :=
  { s with rows := { s.rows with agent := update s.rows.agent id status } }

end AatSys

inductive AatEvent
  | issue (request : IssueAatRequest) (iss jti : String) (now : Int)
  | derive (request : DeriveAatRequest) (jti : String) (now now' : Int)
  | revoke (jti : String)
  | sweep (now : Int) (gone : List String)
  | setAgent (id : AgentId) (status : Option AgentStatus)
  | tick (now : Int)

section

variable [SerdeJson]

section

variable (agentOf : String → Option AgentId) (subjectOf : AgentId → String)

/-- A `tick` also stands for the calls that change no row: a validation, and a refused or
panicking issue or derivation. A sweep may stop anywhere. -/
inductive AatStep : AatEvent → AatSys → AatSys → Prop
  | issue {s : AatSys} {request iss jti now c} : s.clock ≤ now → s.minted jti = none →
      issueAatInner subjectOf s.rows request iss jti now = .ok c →
      AatStep (.issue request iss jti now) s (s.mint c now)
  | derive {s : AatSys} {request jti now now' c} :
      s.clock ≤ now → now ≤ now' → s.minted jti = none →
      deriveAatInner agentOf s.rows request jti now now' = .ok c →
      AatStep (.derive request jti now now') s (s.mint c now')
  | revoke {s : AatSys} (jti : String) : AatStep (.revoke jti) s (s.revoke jti)
  | sweep {s : AatSys} {now gone} :
      s.clock ≤ now → (∀ j ∈ gone, ∀ r, s.rows.record j = some r → r.exp ≤ now) →
      AatStep (.sweep now gone) s (s.sweep gone now)
  | setAgent {s : AatSys} (id : AgentId) (status : Option AgentStatus) :
      AatStep (.setAgent id status) s (s.setAgent id status)
  | tick {s : AatSys} {now} : s.clock ≤ now → AatStep (.tick now) s { s with clock := now }

/-- A derivation compares no two numbers that round alike. -/
def Shows : AatEvent → AatSys → Prop
  | .derive request _ _ _, _ => ∀ p, request.parentAat = some p → ToolsShow request.tools p.tools
  | _, _ => True

end

/-! ## Ancestors -/

structure AatClaims.Within (c a : AatClaims) : Prop where
  tools : ToolsWithin c.tools a.tools
  scope : ∀ s ∈ c.scope, s ∈ a.scope
  exp : c.exp ≤ a.exp

variable {minted minted' : String → Option AatClaims} {c p a : AatClaims}

theorem AatClaims.Within.refl (c : AatClaims) : c.Within c :=
  ⟨fun t ht => ⟨t, ht, .refl t⟩, fun _ hs => hs, le_rfl⟩

theorem AatClaims.Within.trans (h : c.Within p) (h' : p.Within a) : c.Within a :=
  ⟨h.tools.trans h'.tools, fun s hs => h'.scope s (h.scope s hs), h.exp.trans h'.exp⟩

/-- The chain of a minted token: each link is a minted token that names the links before it,
narrows the one before it, and holds at least what the token holds. -/
structure Lineage (minted : String → Option AatClaims) (c : AatClaims) : Prop where
  structured : checkChainStructure c = .ok ()
  links : ∀ i j, c.aatChain[i]? = some j →
    ∃ a, minted j = some a ∧ a.aatChain = c.aatChain.take (i + 1) ∧ c.Within a
  narrows : ∀ i j k p a, c.aatChain[i]? = some j → c.aatChain[i + 1]? = some k → minted j = some p →
    minted k = some a → validateToolsSubset a.tools p.tools = .ok () ∧ validateScope a.scope p.scope = .ok ()

theorem Lineage.mono (h : Lineage minted c) (hle : ∀ j a, minted j = some a → minted' j = some a) :
    Lineage minted' c := by
  have hback : ∀ (i : Nat) j a, c.aatChain[i]? = some j → minted' j = some a → minted j = some a := by
    intro i j a hj ha
    obtain ⟨b, hb, -⟩ := h.links i j hj
    rw [hle j b hb] at ha
    exact Option.some.inj ha ▸ hb
  constructor
  case structured => exact h.structured
  case links =>
    intro i j hj
    obtain ⟨a, ha, hrest⟩ := h.links i j hj
    exact ⟨a, hle j a ha, hrest⟩
  case narrows =>
    intro i j k p a hj hk hp ha
    exact h.narrows i j k p a hj hk (hback i j p hj hp) (hback _ k a hk ha)

omit [SerdeJson] in
/-- What is minted stays, under a fresh `jti`. -/
theorem minted_update (hfresh : minted c.jti = none) (j : String) (a : AatClaims) (ha : minted j = some a) :
    update minted c.jti (some c) j = some a := by
  have hne : j ≠ c.jti := fun hj => by rw [hj, hfresh] at ha; cases ha
  rw [update_of_ne hne]
  exact ha

omit [SerdeJson] in
theorem repeatsLink_concat {l x} (h : repeatsLink l = false) (hx : x ∉ l) :
    repeatsLink (l ++ [x]) = false := by
  unfold repeatsLink at h ⊢
  rw [any_eq_false] at h ⊢
  rintro ⟨y, i⟩ hy
  rw [mem_zipIdx_iff_getElem?] at hy
  rcases lt_or_ge i l.length with hi | hi
  · rw [getElem?_append_left hi] at hy
    rw [take_append_of_le_length hi.le]
    exact h _ (mem_zipIdx_iff_getElem?.2 hy)
  · rw [getElem?_append_right hi, getElem?_singleton] at hy
    split at hy
    · next hzero =>
      have hlen : i = l.length := le_antisymm (Nat.sub_eq_zero_iff_le.1 hzero) hi
      cases hy
      simpa [hlen] using hx
    · cases hy

omit [SerdeJson] in
/-- The chain with one more link. -/
theorem checkChainStructure_child (hp : checkChainStructure p = .ok ()) (hjti : c.jti ∉ p.aatChain)
    (hdepth : p.aatChain.length < maxAatChainDepth)
    (hchain : c.aatParent = some p.jti ∧ c.aatChain = p.aatChain ++ [c.jti]) :
    checkChainStructure c = .ok () := by
  obtain ⟨hne, -, hlast, hrepeats, -⟩ := checkChainStructure_eq_ok.1 hp
  obtain ⟨hpar, hchain⟩ := hchain
  have hlen : c.aatChain.length = p.aatChain.length + 1 := by rw [hchain, length_append, length_singleton]
  have hpos : 0 < p.aatChain.length := length_pos_iff.2 hne
  refine checkChainStructure_eq_ok.2 ⟨?_, ?_, ?_, ?_, ?_⟩
  · rw [hchain]
    exact concat_ne_nil _ _
  · exact hlen.trans_le hdepth
  · rw [hchain]
    exact getLast?_concat
  · rw [hchain]
    exact repeatsLink_concat hrepeats hjti
  · rw [hlen, if_neg (not_lt.2 (Nat.succ_le_succ hpos)), hchain,
      getElem?_append_left (by omega), hpar, ← hlast, getLast?_eq_getElem?]
    rfl

theorem Lineage.root (hchain : c.aatChain = [c.jti]) (hpar : c.aatParent = none)
    (hc : minted c.jti = some c) : Lineage minted c := by
  constructor
  case structured =>
    refine checkChainStructure_eq_ok.2 ?_
    rw [hchain, hpar]
    simp [repeatsLink, maxAatChainDepth]
  case links =>
    intro i j hj
    rw [hchain, getElem?_singleton] at hj
    split at hj
    · cases hj
      exact ⟨c, hc, by rw [hchain, take_of_length_le (by simp)], .refl c⟩
    · cases hj
  case narrows =>
    intro i j k p a _ hk
    rw [hchain] at hk
    cases hk

theorem Lineage.child (hp : Lineage minted p) (hmint : minted p.jti = some p) (hc : minted c.jti = some c)
    (hjti : c.jti ∉ p.aatChain) (hdepth : p.aatChain.length < maxAatChainDepth)
    (hchain : c.aatParent = some p.jti ∧ c.aatChain = p.aatChain ++ [c.jti]) (hwith : c.Within p)
    (htools : validateToolsSubset c.tools p.tools = .ok ()) (hscope : validateScope c.scope p.scope = .ok ()) :
    Lineage minted c := by
  obtain ⟨-, -, hlast, -⟩ := checkChainStructure_eq_ok.1 hp.structured
  rw [getLast?_eq_getElem?] at hlast
  constructor
  case structured => exact checkChainStructure_child hp.structured hjti hdepth hchain
  case links =>
    intro i j hj
    rw [hchain.2] at hj ⊢
    rcases lt_or_ge i p.aatChain.length with hi | hi
    · rw [getElem?_append_left hi] at hj
      obtain ⟨a, ha, hachain, hin⟩ := hp.links i j hj
      rw [take_append_of_le_length hi]
      exact ⟨a, ha, hachain, hwith.trans hin⟩
    · rw [getElem?_append_right hi, getElem?_singleton] at hj
      split at hj
      · cases hj
        refine ⟨c, hc, ?_, .refl c⟩
        rw [hchain.2, take_of_length_le]
        rw [length_append]
        exact Nat.succ_le_succ hi
      · cases hj
  case narrows =>
    intro i j k q a hj hk hq ha
    rw [hchain.2] at hj hk
    rcases lt_or_ge (i + 1) p.aatChain.length with hi | hi
    · rw [getElem?_append_left hi] at hk
      rw [getElem?_append_left (Nat.lt_of_succ_lt hi)] at hj
      exact hp.narrows i j k q a hj hk hq ha
    · rw [getElem?_append_right hi, getElem?_singleton] at hk
      split at hk
      · next hzero =>
        -- the last link of the parent's chain is the parent
        have hlen : p.aatChain.length - 1 = i := by omega
        have hi' : i < p.aatChain.length := by omega
        rw [getElem?_append_left hi', ← hlen, hlast] at hj
        cases hj
        cases hk
        cases hmint.symm.trans hq
        cases hc.symm.trans ha
        exact ⟨htools, hscope⟩
      · cases hk

/-! ## The invariant -/

structure AatSys.Inv (s : AatSys) : Prop where
  jti : ∀ j c, s.minted j = some c → c.jti = j
  lineage : ∀ j c, s.minted j = some c → Lineage s.minted c
  recorded : ∀ j c, s.rows.record j = some c → s.minted j = some c
  kept : ∀ j c, s.minted j = some c → s.clock < c.exp → s.rows.record j = some c
  revoked : ∀ j, s.rows.revoked j = true ↔ j ∈ s.revocations

section

variable {agentOf : String → Option AgentId} {subjectOf : AgentId → String} {s t : AatSys} {now now' : Int}
  {aud : Option String}

theorem AatSys.Inv.init (h : s.Init) : s.Inv := by
  obtain ⟨hrec, hrev, hmint, hrevs⟩ := h
  constructor
  case revoked => simp [hrev, hrevs]
  case recorded => simp [hrec]
  case jti | lineage | kept => simp [hmint]

section

variable (h : s.Inv)

include h

theorem AatSys.Inv.tick (hnow : s.clock ≤ now) : Inv { s with clock := now } :=
  { h with kept := fun j c hc hexp => h.kept j c hc (hnow.trans_lt hexp) }

theorem AatSys.Inv.revoke (jti : String) : (s.revoke jti).Inv := by
  refine { h with revoked := fun j => ?_ }
  by_cases hj : j = jti
  · simp [AatSys.revoke, hj]
  · simp [AatSys.revoke, hj, h.revoked j]

theorem AatSys.Inv.sweep {gone} (hnow : s.clock ≤ now)
    (hgone : ∀ j ∈ gone, ∀ r, s.rows.record j = some r → r.exp ≤ now) : (s.sweep gone now).Inv := by
  refine ⟨h.jti, h.lineage, fun j c hc => ?_, fun j c hc hexp => ?_, h.revoked⟩
  · refine h.recorded j c ?_
    simp only [AatSys.sweep] at hc
    split at hc
    · cases hc
    · exact hc
  · have hrec := h.kept j c hc (hnow.trans_lt hexp)
    have hnot : j ∉ gone := fun hj => absurd hexp (not_lt.2 (hgone j hj c hrec))
    simpa [AatSys.sweep, hnot] using hrec

theorem AatSys.Inv.mint (hnow : s.clock ≤ now) (hfresh : s.minted c.jti = none)
    (hc : Lineage (update s.minted c.jti (some c)) c) : (s.mint c now).Inv := by
  -- each clause holds of the new token, and of the others as before
  have hmint : (s.mint c now).minted = update s.minted c.jti (some c) := rfl
  constructor
  case jti =>
    refine forall_move hmint ?_ fun j _ => h.jti j
    rintro _ ⟨⟩
    rfl
  case lineage =>
    refine forall_move hmint ?_ fun j _ a ha => (h.lineage j a ha).mono (minted_update hfresh)
    rintro _ ⟨⟩
    exact hc
  case recorded =>
    intro j a ha
    by_cases hj : j = c.jti
    · subst hj
      simp only [AatSys.mint, update_self] at ha ⊢
      exact ha
    · simp only [AatSys.mint, update_of_ne hj] at ha ⊢
      exact h.recorded j a ha
  case kept =>
    refine forall_move hmint ?_ fun j hj a ha hexp => ?_
    · rintro _ ⟨⟩ -
      exact update_self ..
    · exact (update_of_ne hj ..).trans (h.kept j a ha (hnow.trans_lt hexp))
  case revoked => exact h.revoked

/-- An accepted token is a minted one with its record, and no link of it is revoked. -/
theorem AatSys.Inv.accepted (hpass : Passes agentOf s.rows aud now c) :
    s.minted c.jti = some c ∧ ∀ j ∈ c.aatChain, j ∉ s.revocations := by
  obtain ⟨records, hread, hcheck⟩ := hpass.recorded
  obtain ⟨hlen, hread⟩ := mapM_eq_ok.1 hread
  constructor
  · obtain ⟨_, hmatch, -⟩ := bind_eq_ok.1 hcheck
    have hrec : records.getLast? = some c := by simpa using failIf_eq_ok.1 hmatch
    obtain ⟨-, -, hlast, -⟩ := checkChainStructure_eq_ok.1 hpass.structured
    rw [getLast?_eq_getElem?] at hlast hrec
    rw [← hlen] at hrec
    exact h.recorded _ c (readLink_eq_ok.1 (hread _ _ _ hlast hrec)).2
  · intro j hj hrev
    obtain ⟨i, hi⟩ := getElem?_of_mem hj
    obtain ⟨r, hr⟩ : ∃ r, records[i]? = some r :=
      ⟨_, getElem?_eq_getElem (hlen ▸ (List.getElem?_eq_some_iff.1 hi).1)⟩
    have hfalse := (readLink_eq_ok.1 (hread i j r hi hr)).1
    rw [(h.revoked j).2 hrev] at hfalse
    cases hfalse

/-- The chain of a minted token, read while nothing of it is revoked or expired, is in order. -/
theorem AatSys.Inv.recorded_chain (hc : s.minted c.jti = some c) (hexp : s.clock < c.exp)
    (hrev : ∀ j ∈ c.aatChain, j ∉ s.revocations) :
    ∃ records, c.aatChain.mapM (readLink s.rows) = .ok records ∧ checkChainRecords c records = .ok () := by
  have hl := h.lineage _ c hc
  have hread : ∀ (i : Nat) j a, c.aatChain[i]? = some j → s.minted j = some a → readLink s.rows j = .ok a := by
    intro i j a hj ha
    obtain ⟨a', ha', -, hin⟩ := hl.links i j hj
    cases ha.symm.trans ha'
    refine readLink_eq_ok.2 ⟨?_, h.kept j a ha (hexp.trans_le hin.exp)⟩
    exact Bool.eq_false_iff.2 fun hrevoked => hrev j (mem_of_getElem? hj) ((h.revoked j).1 hrevoked)
  -- the records are the minted links
  let records := c.aatChain.map fun j => (s.minted j).getD c
  have hrec : ∀ (i : Nat) r, records[i]? = some r → ∃ j, c.aatChain[i]? = some j ∧ s.minted j = some r := by
    intro i r hr
    rw [getElem?_map] at hr
    obtain ⟨j, hj, rfl⟩ := Option.map_eq_some_iff.1 hr
    obtain ⟨a, ha, -⟩ := hl.links i j hj
    exact ⟨j, hj, by rw [ha, Option.getD_some]⟩
  refine ⟨records, mapM_eq_ok.2 ⟨(length_map _).symm, fun i j r hj hr => ?_⟩, bind_eq_ok.2 ⟨(), ?_, ?_⟩⟩
  · obtain ⟨j', hj', hr⟩ := hrec i r hr
    cases hj.symm.trans hj'
    exact hread i j r hj hr
  · obtain ⟨-, -, hlast, -⟩ := checkChainStructure_eq_ok.1 hl.structured
    have hown : records.getLast? = some c := by
      rw [getLast?_map, hlast, Option.map_some, hc, Option.getD_some]
    simp [hown]
  · refine forM_eq_ok.2 fun link hlink => ?_
    obtain ⟨r, i⟩ := link
    obtain ⟨j, hj, hr⟩ := hrec i r (mem_zipIdx_iff_getElem?.1 hlink)
    obtain ⟨a, ha, hchain, -⟩ := hl.links i j hj
    cases hr.symm.trans ha
    refine bind_eq_ok.2 ⟨(), by simp [hchain], ?_⟩
    cases i with
    | zero => rfl
    | succ i =>
      dsimp only
      split
      · rfl
      · next p hp =>
        obtain ⟨k, hk, hp⟩ := hrec i p hp
        obtain ⟨htools, hscope⟩ := hl.narrows i k j p r hk hj hp hr
        exact bind_eq_ok.2 ⟨(), htools, hscope⟩

theorem AatSys.Inv.derived {request jti}
    (hd : Derives agentOf s.rows request jti now p c) (hfresh : s.minted jti = none)
    (hshow : ToolsShow request.tools p.tools) : Lineage (update s.minted c.jti (some c)) c := by
  obtain ⟨hjti, htools, hscope⟩ := hd.own
  subst hjti
  obtain ⟨hp, -⟩ := h.accepted hd.passes
  have hl := h.lineage _ p hp
  have hnot : c.jti ∉ p.aatChain := by
    intro hmem
    obtain ⟨i, hi⟩ := getElem?_of_mem hmem
    obtain ⟨a, ha, -⟩ := hl.links i _ hi
    rw [hfresh] at ha
    cases ha
  have hwith : c.Within p := by
    refine ⟨htools ▸ .of_subset hd.tools hshow, fun x hx => ?_, hd.exp⟩
    have hall : ∀ y ∈ request.scope, y ∈ p.scope := by simpa [validateScope] using hd.scope
    exact hall x (hscope ▸ hx)
  exact (hl.mono (minted_update hfresh)).child (minted_update hfresh _ p hp) (update_self ..) hnot hd.depth hd.chain hwith
    (htools ▸ hd.tools) (hscope ▸ hd.scope)

theorem AatSys.Inv.step {ev} (hshow : Shows ev s) (hstep : AatStep agentOf subjectOf ev s t) :
    t.Inv := by
  cases hstep with
  | issue hnow hfresh hissue =>
    obtain ⟨_, -, hissue⟩ := bind_eq_ok.1 hissue
    obtain ⟨_, -, hissue⟩ := bind_eq_ok.1 hissue
    obtain ⟨_, -, hissue⟩ := bind_eq_ok.1 hissue
    cases hissue
    exact h.mint hnow hfresh (.root rfl rfl (update_self ..))
  | derive hnow hnow' hfresh hderive =>
    obtain ⟨p, hd⟩ := deriveAatInner_eq_ok hderive
    have hjti := hd.own.1
    exact h.mint (hnow.trans hnow') (hjti ▸ hfresh) (h.derived hd hfresh (hshow p hd.token))
  | revoke jti => exact h.revoke jti
  | sweep hnow hgone => exact h.sweep hnow hgone
  | setAgent id status => exact { h with }
  | tick hnow => exact h.tick hnow

end

/-! ## What runs keep -/

/-- A derivation whose parent lives at both readings of the clock returns. -/
theorem deriveAatInner_returns {rows request jti}
    (hlive : ∀ p, request.parentAat = some p → now' < p.exp) :
    deriveAatInner agentOf rows request jti now now' ≠ .error .panicked := by
  have hends : Ends (deriveAatInner agentOf rows request jti now now') (fun _ => True) (fun e => e ≠ .panicked) := by
    refine (Ends.mapError fun e => nofun).bind fun p hp => ?_
    refine (Ends.failIf nofun).bind fun _ _ => (Ends.mapError fun e => nofun).bind fun _ _ => ?_
    refine (Ends.mapError fun e => nofun).bind fun _ _ => ?_
    -- the range of the clamp is not empty
    have hexp := hlive p (parseAndValidateAat_eq_ok.1 hp).1
    have hroom : ¬ max (saturateI64 (p.exp - now')) 0 < 1 := by
      unfold saturateI64
      omega
    dsimp only
    rw [clampI64, if_neg hroom]
    exact .ok trivial
  exact fun herror => hends.2 _ herror rfl

/-- In every run whose derivations compare no two numbers that round alike: an accepted token
is within every ancestor in its chain, and none of them was revoked; a minted, unexpired token of
an active agent with no revoked link is accepted, whatever was swept; and a derivation returns,
if its parent lives at the second reading of the clock too. -/
theorem aat_only_attenuates
    (h : Reachable AatSys.Init (LabelledWith (AatStep agentOf subjectOf) Shows) s) (hnow : s.clock ≤ now) :
    (∀ aat aud c, parseAndValidateAat agentOf s.rows aat aud now = .ok c →
      ∀ j ∈ c.aatChain, j ∉ s.revocations ∧ ∃ a, s.minted j = some a ∧ c.Within a) ∧
    (∀ c aud agent, s.minted c.jti = some c → now < c.exp → (∀ j ∈ c.aatChain, j ∉ s.revocations) →
      agentOf c.sub = some agent → s.rows.agent agent = some .active →
      (∀ x, aud = some x → c.aud = some x) →
      parseAndValidateAat agentOf s.rows (some c) aud now = .ok c) ∧
    ∀ request jti now', (∀ p, request.parentAat = some p → now' < p.exp) →
      deriveAatInner agentOf s.rows request jti now now' ≠ .error .panicked := by
  have hI : s.Inv := by
    refine h.invariant (fun s => .init) fun s t _ hs hst => ?_
    obtain ⟨ev, hshow, hstep⟩ := hst
    exact hs.step hshow hstep
  refine ⟨fun aat aud c hok j hj => ?_, fun c aud agent hc hexp hrev hsub hact haud => ?_,
    fun request jti now' => deriveAatInner_returns⟩
  · obtain ⟨hc, hrev⟩ := hI.accepted (parseAndValidateAat_eq_ok.1 hok).2
    obtain ⟨i, hi⟩ := getElem?_of_mem hj
    obtain ⟨a, ha, -, hin⟩ := (hI.lineage _ c hc).links i j hi
    exact ⟨hrev j hj, a, ha, hin⟩
  · refine parseAndValidateAat_eq_ok.2 ⟨rfl, hexp, haud, ?_, (hI.lineage _ c hc).structured, ?_⟩
    · simp [requireActiveSubjectAgent, hsub, hact]
    · exact hI.recorded_chain hc (hnow.trans_lt hexp) hrev

end

end

/-! ## Two runs -/

/-- Integers up to `2 ^ 53 + 1` as doubles: the last is read as the even one before it. -/
instance demoJson : SerdeJson where
  asF64
    | .posInt n _ => min n (2 ^ 53)
    | .negInt n _ => -min n (2 ^ 53)
    | .float x => x
  get fields key := (fields.toList.find? fun field => field.1 = key).map Prod.snd
  mem_of_get {fields key v} h := by
    obtain ⟨field, hfield, rfl⟩ := Option.map_eq_some_iff.1 h
    have hkey : field.1 = key := by simpa using find?_some hfield
    exact hkey ▸ mem_of_find?_eq_some hfield

def agentSys : AatSys :=
  ⟨⟨fun _ => none, fun _ => false, fun id => if id = ⟨7⟩ then some .active else none⟩, 0, fun _ => none, []⟩

variable (n : Nat)

/-- The tool `pay`, up to `n`. -/
def payUpTo (h : n < 2 ^ 64) : AatToolPermission :=
  ⟨"pay", ["invoke"], .object (.cons "max" (.number (.posInt n h)) .nil)⟩

def rootToken : AatClaims :=
  ⟨"root", "hearth", "agt_7", none, 3600, 0, [payUpTo (2 ^ 53) (by decide)], [], none, ["root"]⟩

def rootSys : AatSys := agentSys.mint rootToken 0

def childRequest (h : n < 2 ^ 64) : DeriveAatRequest :=
  ⟨some rootToken, [payUpTo n h], [], none, none⟩

def childToken (h : n < 2 ^ 64) : AatClaims :=
  ⟨"child", "hearth", "agt_7", none, 3600, 0, [payUpTo n h], [], some "root", ["root", "child"]⟩

theorem root_issued : AatStep (fun _ => some ⟨7⟩) (fun _ => "agt_7")
    (.issue ⟨⟨7⟩, [payUpTo (2 ^ 53) (by decide)], [], none, none⟩ "hearth" "root" 0) agentSys rootSys :=
  .issue le_rfl rfl (by decide +kernel)

theorem number_of_payUpTo {n h key x}
    (hx : (constraintFields (payUpTo n h).constraints).get key = some (.number x)) : x = .posInt n h := by
  have hmem := SerdeJson.mem_of_get hx
  simp only [payUpTo, constraintFields, JsonFields.toList, mem_singleton, Prod.mk.injEq,
    JsonValue.number.injEq] at hmem
  exact hmem.2

/-- A number below the parent's is not compared. -/
theorem childRequest_shows {n h} (hn : n ≤ 2 ^ 53) :
    Shows (.derive (childRequest n h) "child" 0 0) rootSys := by
  intro p hp c hc q hq _ key x y hx hy hlt
  cases hp
  cases mem_singleton.1 hc
  cases mem_singleton.1 hq
  have hxn := number_of_payUpTo hx
  have hyn := number_of_payUpTo hy
  subst hxn hyn
  exact absurd (Nat.cast_le.2 hn) (not_le.2 hlt)

theorem small_child_derived : AatStep (fun _ => some ⟨7⟩) (fun _ => "agt_7")
    (.derive (childRequest 5 (by decide)) "child" 0 0) rootSys (rootSys.mint (childToken 5 (by decide)) 0) :=
  .derive le_rfl le_rfl (by decide +kernel) (by decide +kernel)

theorem aat_only_attenuates_small : "root" ∉ (rootSys.mint (childToken 5 (by decide)) 0).revocations ∧
    ∃ a, (rootSys.mint (childToken 5 (by decide)) 0).minted "root" = some a ∧ (childToken 5 (by decide)).Within a := by
  have hroot : Reachable AatSys.Init (LabelledWith (AatStep (fun _ => some ⟨7⟩) (fun _ => "agt_7")) Shows) rootSys :=
    .next (.start ⟨rfl, rfl, rfl, rfl⟩) ⟨.issue _ _ _ _, trivial, root_issued⟩
  have hchild := hroot.next ⟨_, childRequest_shows (by decide), small_child_derived⟩
  exact (aat_only_attenuates hchild le_rfl).1 (some (childToken 5 (by decide))) none _ (by decide +kernel) _
    mem_cons_self

/-- The agent's root token allows payments up to `2 ^ 53`. A child that asks for one more is
derived and accepted, because both bounds are the same double. And a derivation that reads the
clock in the root's last second, and again in the next, panics. -/
theorem rounded_bound_escalates : (∃ s, Reachable AatSys.Init
        (fun s t => ∃ ev, AatStep (fun _ => some ⟨7⟩) (fun _ => "agt_7") ev s t) s ∧ s.clock = 0 ∧
      ∃ c, parseAndValidateAat (fun _ => some ⟨7⟩) s.rows (some c) none 0 = .ok c ∧
        "root" ∈ c.aatChain ∧ s.minted "root" = some rootToken ∧ ¬ c.Within rootToken) ∧
    deriveAatInner (fun _ => some ⟨7⟩) rootSys.rows (childRequest 5 (by decide)) "child" 3599 3600 =
      .error .panicked := by
  refine ⟨⟨rootSys.mint (childToken (2 ^ 53 + 1) (by decide)) 0, ?_, rfl, childToken (2 ^ 53 + 1) (by decide),
    by decide +kernel, by decide, by decide +kernel, fun hin => ?_⟩, by decide +kernel⟩
  · refine .next (.next (.start ⟨rfl, rfl, rfl, rfl⟩) ⟨_, root_issued⟩)
      ⟨.derive (childRequest (2 ^ 53 + 1) (by decide)) "child" 0 0, ?_⟩
    exact .derive le_rfl le_rfl (by decide +kernel) (by decide +kernel)
  · obtain ⟨p, hp, hwith⟩ := hin.tools _ (mem_singleton_self _)
    cases mem_singleton.1 hp
    obtain ⟨w, hw, hle⟩ := hwith.constraints "max" (.number (.posInt (2 ^ 53) (by decide))) (by decide +kernel)
    have hwide : w = .number (.posInt (2 ^ 53 + 1) (by decide)) := Option.some.inj (hw.symm.trans (by decide +kernel))
    rw [hwide] at hle
    cases hle with
    | number hle => exact absurd hle (by decide +kernel)

end Hearth.Identity
