import Hearth.Base.Bytes
import Mathlib.Data.String.Basic
import Mathlib.Logic.Function.Basic

/-!
# Bytes as hexadecimal text

Lowercase digits, two for a byte, high half first, and the hyphenated text of a UUID.
Both determine the bytes they were written from.
-/

namespace Hearth.Base

open List

def hexDigits (byte : UInt8) : List Char :=
  [Nat.digitChar (byte.toNat / 16), Nat.digitChar (byte.toNat % 16)]

variable (bytes : Bytes)

/-- The bytes as lowercase hexadecimal digits. -/
def hexEncode : String := .ofList (bytes.flatMap hexDigits)

/-- The value of a hexadecimal digit of either case. -/
def hexValue (c : Char) : Option Nat :=
  if '0' ≤ c ∧ c ≤ '9' then some (c.toNat - 48)
  else if 'a' ≤ c ∧ c ≤ 'f' then some (c.toNat - 87)
  else if 'A' ≤ c ∧ c ≤ 'F' then some (c.toNat - 55)
  else none

def hexBytes : List Char → Option Bytes
  | [] => some []
  | [_] => none
  | high :: low :: rest => do
    let h ← hexValue high
    let l ← hexValue low
    let bytes ← hexBytes rest
    some (.ofNat (16 * h + l) :: bytes)

/-- The bytes a text of hexadecimal digits stands for, or nothing for any other text. -/
def hexDecode (text : String) : Option Bytes := hexBytes text.toList

/-- The text of a UUID: groups of four, two, two, two and six bytes. -/
def hyphenated (uuid : Bytes) : String :=
  hexEncode (uuid.take 4) ++ "-" ++ hexEncode ((uuid.drop 4).take 2) ++ "-" ++
    hexEncode ((uuid.drop 6).take 2) ++ "-" ++ hexEncode ((uuid.drop 8).take 2) ++ "-" ++
    hexEncode (uuid.drop 10)

theorem hexValue_digitChar {n : Nat} (h : n < 16) : hexValue (Nat.digitChar n) = some n := by
  have all : ∀ n : Fin 16, hexValue (Nat.digitChar n) = some n.val := by decide
  exact all ⟨n, h⟩

theorem high_lt (byte : UInt8) : byte.toNat / 16 < 16 :=
  Nat.div_lt_of_lt_mul byte.toNat_lt

theorem hexBytes_flatMap : hexBytes (bytes.flatMap hexDigits) = some bytes := by
  induction bytes with
  | nil => rfl
  | cons byte bytes ih =>
    have hlow : byte.toNat % 16 < 16 := Nat.mod_lt _ (by decide)
    rw [flatMap_cons, hexDigits, cons_append, cons_append, nil_append, hexBytes,
      hexValue_digitChar (high_lt byte), hexValue_digitChar hlow, ih]
    simp only [Option.bind_eq_bind, Option.bind_some, Nat.div_add_mod, UInt8.ofNat_toNat]

theorem hexDecode_hexEncode : hexDecode (hexEncode bytes) = some bytes := by
  rw [hexDecode, hexEncode, String.toList_ofList]
  exact hexBytes_flatMap _

theorem hexEncode_injective : Function.Injective hexEncode := by
  intro a b h
  have hdec := congrArg hexDecode h
  rw [hexDecode_hexEncode, hexDecode_hexEncode] at hdec
  exact Option.some.inj hdec

theorem toList_hexEncode_append (a b : Bytes) :
    (hexEncode a).toList ++ (hexEncode b).toList = (hexEncode (a ++ b)).toList := by
  simp [hexEncode]

/-- A character that is no hexadecimal digit is not in the text. -/
theorem notMem_hexEncode {c : Char} (hc : hexValue c = none) (bytes : Bytes) :
    c ∉ (hexEncode bytes).toList := by
  rw [hexEncode, String.toList_ofList, mem_flatMap]
  rintro ⟨byte, -, hmem⟩
  rw [hexDigits, mem_pair] at hmem
  obtain rfl | rfl := hmem
  · rw [hexValue_digitChar (high_lt byte)] at hc
    cases hc
  · rw [hexValue_digitChar (Nat.mod_lt _ (by decide))] at hc
    cases hc

theorem filter_hexEncode :
    (hexEncode bytes).toList.filter (· ≠ '-') = (hexEncode bytes).toList := by
  refine filter_eq_self.2 fun c hc => decide_eq_true ?_
  rintro rfl
  exact notMem_hexEncode (by decide) _ hc

/-- Without its hyphens the text is the hexadecimal text of the bytes. -/
theorem filter_hyphenated (uuid : Bytes) :
    (hyphenated uuid).toList.filter (· ≠ '-') = (hexEncode uuid).toList := by
  have hyphen : "-".toList.filter (· ≠ '-') = [] := by decide
  simp only [hyphenated, String.toList_append, filter_append, filter_hexEncode, hyphen, append_nil]
  simp only [toList_hexEncode_append]
  -- the five groups are the bytes cut at 4, 6, 8 and 10
  have cut (n m : Nat) : uuid.take n ++ (uuid.drop n).take m = uuid.take (n + m) :=
    (take_add ..).symm
  rw [cut, cut, cut, take_append_drop]

/-- A text is cut in one way at the first place of a character. -/
theorem append_cons_unique {α : Type} {c : α} {p q r s : List α} (hp : c ∉ p) (hq : c ∉ q)
    (h : p ++ c :: r = q ++ c :: s) : p = q ∧ r = s := by
  rcases append_eq_append_iff.1 h with ⟨more, rfl, heq⟩ | ⟨more, rfl, heq⟩
  · cases more with
    | nil => simpa using heq
    | cons d more => simp [(cons.inj heq).1] at hq
  · cases more with
    | nil => simpa [eq_comm] using heq
    | cons d more => simp [(cons.inj heq).1] at hp

theorem hyphenated_injective : Function.Injective hyphenated := by
  intro a b h
  have hfilt := congrArg (fun text : String => text.toList.filter (· ≠ '-')) h
  simp only [filter_hyphenated] at hfilt
  exact hexEncode_injective (String.toList_injective hfilt)

end Hearth.Base
