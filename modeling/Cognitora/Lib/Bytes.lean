/-
  Fixed-width integers as bytes, and exact reads from a byte stream.

  `littleEndian k n` are the `k` low bytes of `n`, `ofLittleEndian` is the number they stand for;
  the two are inverse to each other on numbers of `k` bytes. `next n` reads exactly `n` bytes; it
  fails if the stream is shorter.
-/
import Mathlib.Data.Nat.Digits.Defs

namespace Cognitora.Lib

/-! ## Integers -/

def littleEndian : Nat → Nat → List UInt8
  | 0, _ => []
  | k + 1, n => UInt8.ofNat n :: littleEndian k (n / 256)

def ofLittleEndian (l : List UInt8) : Nat :=
  Nat.ofDigits 256 (l.map UInt8.toNat)

def bigEndian (k n : Nat) : List UInt8 :=
  (littleEndian k n).reverse

def ofBigEndian (l : List UInt8) : Nat :=
  ofLittleEndian l.reverse

@[simp] theorem length_littleEndian (k n : Nat) : (littleEndian k n).length = k := by
  induction k generalizing n with
  | zero => rfl
  | succ k ih => rw [littleEndian, List.length_cons, ih]

@[simp] theorem length_bigEndian (k n : Nat) : (bigEndian k n).length = k := by
  rw [bigEndian, List.length_reverse, length_littleEndian]

theorem ofLittleEndian_cons (b : UInt8) (l : List UInt8) :
    ofLittleEndian (b :: l) = b.toNat + 256 * ofLittleEndian l := by
  rw [ofLittleEndian, List.map_cons, Nat.ofDigits_cons]
  rfl

theorem ofLittleEndian_littleEndian {k n : Nat} (h : n < 256 ^ k) :
    ofLittleEndian (littleEndian k n) = n := by
  induction k generalizing n with
  | zero =>
    obtain rfl : n = 0 := by simpa using h
    rfl
  | succ k ih =>
    have hdiv : n / 256 < 256 ^ k := by
      rw [Nat.div_lt_iff_lt_mul (by omega), ← Nat.pow_succ]
      exact h
    have hbyte : (UInt8.ofNat n).toNat = n % 256 := UInt8.toNat_ofNat'
    rw [littleEndian, ofLittleEndian_cons, ih hdiv, hbyte]
    omega

theorem littleEndian_ofLittleEndian (l : List UInt8) :
    littleEndian l.length (ofLittleEndian l) = l := by
  induction l with
  | nil => rfl
  | cons b l ih =>
    have hlt := b.toNat_lt
    have hbyte : UInt8.ofNat (b.toNat + 256 * ofLittleEndian l) = b := by
      apply UInt8.toNat_inj.mp
      rw [UInt8.toNat_ofNat']
      omega
    have hrest : (b.toNat + 256 * ofLittleEndian l) / 256 = ofLittleEndian l := by
      omega
    rw [ofLittleEndian_cons, List.length_cons, littleEndian, hbyte, hrest, ih]

theorem ofBigEndian_bigEndian {k n : Nat} (h : n < 256 ^ k) : ofBigEndian (bigEndian k n) = n := by
  rw [ofBigEndian, bigEndian, List.reverse_reverse, ofLittleEndian_littleEndian h]

theorem bigEndian_ofBigEndian (l : List UInt8) : bigEndian l.length (ofBigEndian l) = l := by
  have h := littleEndian_ofLittleEndian l.reverse
  rw [List.length_reverse] at h
  rw [bigEndian, ofBigEndian, h, List.reverse_reverse]

/-! ## Reads -/

/-- Read exactly `n` bytes: those bytes and the rest. -/
def next (n : Nat) (l : List UInt8) : Option (List UInt8 × List UInt8) :=
  if n ≤ l.length then some (l.take n, l.drop n) else none

theorem next_append {n : Nat} {l : List UInt8} (h : l.length = n) (rest : List UInt8) :
    next n (l ++ rest) = some (l, rest) := by
  subst h
  rw [next, if_pos (by rw [List.length_append]; omega), List.take_left, List.drop_left]

theorem next_eq_some {n : Nat} {input l rest : List UInt8} :
    next n input = some (l, rest) ↔ input = l ++ rest ∧ l.length = n := by
  constructor
  · intro h
    unfold next at h
    split at h
    · next hle =>
      cases h
      exact ⟨(List.take_append_drop n input).symm, List.length_take_of_le hle⟩
    · exact nomatch h
  · rintro ⟨rfl, hlen⟩
    exact next_append hlen rest

end Cognitora.Lib
