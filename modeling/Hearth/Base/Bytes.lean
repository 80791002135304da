import Mathlib.Data.Nat.Basic
import Mathlib.Tactic.Ring

/-!
# Byte strings and machine integers

Little-endian integers of a fixed width, and the two ways of reading a byte
string: a slice at an offset, and a cut at the front. And where a 64-bit integer
does not behave as an integer: saturating arithmetic and the cast from unsigned.
-/

namespace Hearth.Base

open List

abbrev Bytes := List UInt8

/-- A string of ASCII characters as bytes. -/
def asciiBytes (s : String) : Bytes := s.toList.map fun c => .ofNat c.toNat

/-! ## Little-endian integers -/

/-- The low `w` bytes of `n`, lowest first. -/
def leBytes : Nat → Nat → Bytes
  | 0, _ => []
  | w + 1, n => .ofNat n :: leBytes w (n / 256)

/-- The integer whose bytes, lowest first, are `bs`. -/
def leNat : Bytes → Nat
  | [] => 0
  | b :: bs => b.toNat + 256 * leNat bs

@[simp] theorem length_leBytes (w n : Nat) : (leBytes w n).length = w := by
  induction w generalizing n with
  | zero => rfl
  | succ w ih => rw [leBytes, length_cons, ih]

theorem leNat_leBytes {w n : Nat} (h : n < 256 ^ w) : leNat (leBytes w n) = n := by
  induction w generalizing n with
  | zero =>
    simp only [leBytes, leNat]
    omega
  | succ w ih =>
    have hdiv : n / 256 < 256 ^ w := by
      rw [Nat.div_lt_iff_lt_mul (by decide)]
      rwa [pow_succ] at h
    simp only [leBytes, leNat, ih hdiv, UInt8.toNat_ofNat']
    omega

theorem leNat_lt (bs : Bytes) : leNat bs < 256 ^ bs.length := by
  induction bs with
  | nil => decide
  | cons b bs ih =>
    have hb : b.toNat < 256 := b.toNat_lt
    simp only [leNat, length_cons]
    omega

theorem leBytes_leNat {w : Nat} {bs : Bytes} (h : bs.length = w) : leBytes w (leNat bs) = bs := by
  subst h
  induction bs with
  | nil => rfl
  | cons b bs ih =>
    have hb : b.toNat < 256 := b.toNat_lt
    have hdiv : (b.toNat + 256 * leNat bs) / 256 = leNat bs := by omega
    rw [length_cons, leBytes, leNat, hdiv]
    congr 1
    apply UInt8.toNat_inj.1
    rw [UInt8.toNat_ofNat']
    omega

/-! ## Slices -/

section

variable {α : Type}

/-- `bs[i..i + n]`, shorter where `bs` ends before. -/
def slice (bs : List α) (i n : Nat) : List α := (bs.drop i).take n

variable {n : Nat} {bs mid post : List α}

theorem length_slice {i : Nat} (h : i + n ≤ bs.length) : (slice bs i n).length = n := by
  simp only [slice, length_take, length_drop]
  omega

theorem slice_append_left {pre : List α} {i : Nat} (hi : i = pre.length)
    (hn : n = mid.length) : slice (pre ++ (mid ++ post)) i n = mid := by
  subst hi hn
  rw [slice, drop_left, take_left]

theorem slice_append_right {pre : List α} {i j : Nat} (h : j = pre.length + i) :
    slice (pre ++ bs) j n = slice bs i n := by
  rw [h, slice, slice, ← drop_drop, drop_left]

theorem drop_eq_slice_append (bs : List α) (i n : Nat) :
    bs.drop i = slice bs i n ++ bs.drop (i + n) := by
  rw [slice, ← drop_drop, take_append_drop]

/-- The first `n` elements and the rest, if there are that many. -/
def cut (n : Nat) (bs : List α) : Option (List α × List α) :=
  if bs.length < n then none else some (bs.take n, bs.drop n)

theorem cut_append (hn : n = mid.length) : cut n (mid ++ post) = some (mid, post) := by
  subst hn
  unfold cut
  rw [if_neg (by simp), take_left, drop_left]

theorem cut_eq_some (h : cut n bs = some (mid, post)) : bs = mid ++ post ∧ mid.length = n := by
  unfold cut at h
  split at h
  · cases h
  · obtain ⟨rfl, rfl⟩ := Prod.mk.inj (Option.some.inj h)
    exact ⟨(take_append_drop n bs).symm, by rw [length_take]; omega⟩

/-- A cut of some bytes is a cut of more bytes. -/
theorem cut_append_right (h : cut n bs = some (mid, post)) (more : List α) :
    cut n (bs ++ more) = some (mid, post ++ more) := by
  obtain ⟨rfl, hn⟩ := cut_eq_some h
  rw [append_assoc, cut_append hn.symm]

end

/-! ## 64-bit integers -/

/-- A result of `saturating_add` or `saturating_sub` on `i64`. -/
def saturateI64 (n : Int) : Int := max (-2 ^ 63) (min n (2 ^ 63 - 1))

/-- `as i64` of a `u64`. -/
def asI64 (n : Nat) : Int := (n : Int).bmod (2 ^ 64)

end Hearth.Base
