import Mathlib

/-!
# The client's address

From a trusted peer `extract_client_ip` walks the hops of the `X-Forwarded-For` lines from
the right, to the first that is no trusted proxy. `client_ip_iff`: it returns that hop
exactly if every line is text, also those in front of it that the client sends.
-/

namespace Hearth.Protocol

open List

/-- How the standard library reads addresses and the `http` crate header lines, and the canonical
addresses that the proxy list holds. A line is its bytes, each as a character. -/
structure Net (Ip : Type) where
  /-- `HeaderValue::to_str` succeeds. -/
  isText : List Char → Bool
  ip : List Char → Option Ip
  v4 : List Char → Option Ip
  toCanonical : Ip → Ip
  proxies : Ip → Bool

def Net.contains {Ip : Type} (net : Net Ip) (ip : Ip) : Bool := net.proxies (net.toCanonical ip)

def trim (text : List Char) : List Char := (text.dropWhile Char.isWhitespace).rdropWhile Char.isWhitespace

def isPort (port : List Char) : Bool := port ≠ [] && port.all Char.isDigit

/-- What is between the commas, from the left. -/
def hops (text : List Char) : List (List Char) := ((text.splitOn ',').map trim).filter (· ≠ [])

section

variable {Ip : Type} (net : Net Ip) (peer : Ip)

/-- The loop over the lines: they are joined by commas. -/
def joinLines : List (List Char) → List Char → Option (List Char)
  | [], xff => some xff
  | line :: rest, xff =>
    if net.isText line then joinLines rest (if xff = [] then line else xff ++ ',' :: line) else none

def parseForwardedHop (hop : List Char) : Option Ip :=
  match trim hop with
  | [] => none
  | '[' :: rest =>
    match rest.span (· ≠ ']') with
    | (inner, [_]) => net.ip inner
    | (inner, _ :: ':' :: port) => if isPort port then net.ip inner else none
    | _ => none
  | hop =>
    (net.ip hop).or <|
      -- with a second colon the host has one
      match hop.splitOn ':' with
      | [host, port] => if isPort port then net.v4 host else none
      | _ => none

/-- The walk, from the right. -/
def walkHops : List (List Char) → Ip
  | [] => net.toCanonical peer
  | hop :: rest =>
    match parseForwardedHop net hop with
    | some ip => if net.contains ip then walkHops rest else net.toCanonical ip
    | none => net.toCanonical peer

def extractClientIp (lines : List (List Char)) : Ip :=
  if net.contains peer then
    match joinLines net lines [] with
    | some xff => walkHops net peer (hops xff).reverse
    | none => net.toCanonical peer
  else net.toCanonical peer

theorem hops_joinLines {lines xff text} (h : joinLines net lines xff = some text) :
    hops text = hops xff ++ lines.flatMap hops := by
  induction lines generalizing xff with
  | nil =>
    cases h
    exact (append_nil _).symm
  | cons line rest ih =>
    rw [joinLines, Option.ite_none_right_eq_some] at h
    rw [ih h.2, flatMap_cons, ← append_assoc]
    congr 1
    split
    · next hnil => rw [hnil]; rfl
    · rw [hops, splitOn_append_cons_self, map_append, filter_append]
      rfl

theorem joinLines_isSome (lines xff) : (joinLines net lines xff).isSome ↔ ∀ line ∈ lines, net.isText line := by
  induction lines generalizing xff with
  | nil => simp [joinLines]
  | cons line rest ih =>
    rw [joinLines, forall_mem_cons]
    split
    · next htext => rw [ih, and_iff_right htext]
    · next htext => exact ⟨nofun, fun h => absurd h.1 htext⟩

variable {net peer} {before after : List (List Char)} {hop : List Char} {ip : Ip}

theorem walkHops_of_trusted (hip : parseForwardedHop net hop = some ip) (hno : net.contains ip = false)
    (hafter : ∀ h ∈ after, (parseForwardedHop net h).any net.contains) :
    walkHops net peer (after ++ hop :: before) = net.toCanonical ip := by
  induction after with
  | nil => simp only [nil_append, walkHops, hip, hno, Bool.false_eq_true, if_false]
  | cons h after ih =>
    obtain ⟨hh, hafter⟩ := forall_mem_cons.1 hafter
    obtain ⟨ip', hparse, htrust⟩ := (Option.any_eq_true _ _).1 hh
    simp only [cons_append, walkHops, hparse, htrust, if_true, ih hafter]

/-- An untrusted hop with only trusted ones to its right is the client, whatever precedes it,
exactly if each line is text. -/
theorem client_ip_iff {lines} (hpeer : net.contains peer)
    (hlines : lines.flatMap hops = before ++ hop :: after)
    (hip : parseForwardedHop net hop = some ip) (hno : net.contains ip = false)
    (hafter : ∀ h ∈ after, (parseForwardedHop net h).any net.contains) :
    extractClientIp net peer lines = net.toCanonical ip ↔ ∀ line ∈ lines, net.isText line := by
  rw [← joinLines_isSome net lines [], extractClientIp, if_pos hpeer]
  cases hjoin : joinLines net lines [] with
  | none =>
    refine ⟨fun heq => ?_, nofun⟩
    rw [Net.contains, show net.toCanonical peer = _ from heq] at hpeer
    exact absurd hpeer (Bool.eq_false_iff.1 hno)
  | some xff =>
    have hrev : (hops xff).reverse = after.reverse ++ hop :: before.reverse := by
      rw [hops_joinLines net hjoin, hlines]
      simp [hops, trim]
    refine iff_of_true ((congrArg _ hrev).trans ?_) rfl
    exact walkHops_of_trusted hip hno fun h hh => hafter h (mem_reverse.1 hh)

end

/-- Reads the proxy's address and that of a client. -/
def demoNet : Net Nat where
  isText line := line.all fun c => ' ' ≤ c && c.toNat < 127 || c = '\t'
  ip := demoIp
  v4 := demoIp
  toCanonical := id
  proxies := (· = 1)
where
  demoIp text := if text = "10.0.0.1".toList then some 1
    else if text = "203.0.113.7".toList then some 2 else none

theorem client_ip_iff_forwarded :
    extractClientIp demoNet 1 ["x".toList, "203.0.113.7, 10.0.0.1".toList] = 2 :=
  Iff.mpr (client_ip_iff rfl (show _ = ["x".toList] ++ "203.0.113.7".toList :: ["10.0.0.1".toList] by decide)
    rfl rfl (by decide)) (by decide)

/-- A byte outside ASCII in the client's own line: the client counts as the proxy. -/
theorem client_ip_hidden :
    extractClientIp demoNet 1 ["ÿ".toList, "203.0.113.7, 10.0.0.1".toList] = 1 := by
  decide

end Hearth.Protocol
