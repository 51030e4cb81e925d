/-
Doubles, as far as a program uses them to count and to compare.

A double is its 64 bits.  What it stands for is a rational number, an infinity or no
number at all.  But for the two zeros no number has two doubles, so that doubles that
compare equal have the same bits, and the whole numbers below 2^53 have a double each.
Arithmetic with rounding is not here.
-/
import Mathlib

namespace Double

/-- The bits of a double. -/
abbrev Bits := BitVec 64

/-- What a double stands for; the two zeros stand for the same. -/
inductive Datum
  | finite (q : ℚ)
  | infinite (negative : Bool)
  | nan
deriving DecidableEq

def negative (b : Bits) : Bool := decide (2 ^ 63 ≤ b.toNat)

def exponent (b : Bits) : Nat := b.toNat / 2 ^ 52 % 2 ^ 11

def mantissa (b : Bits) : Nat := b.toNat % 2 ^ 52

/-- The binary places of the least positive double. -/
@[irreducible]
def places : Nat := 1074

/-- The absolute value, counted in least doubles. -/
def magnitude (b : Bits) : Nat :=
  if exponent b = 0 then mantissa b else (2 ^ 52 + mantissa b) * 2 ^ (exponent b - 1)

/-- The number of a double that has one. -/
def value (b : Bits) : ℚ :=
  if negative b then -(magnitude b / 2 ^ places) else magnitude b / 2 ^ places

def decode (b : Bits) : Datum :=
  if exponent b ≠ 2 ^ 11 - 1 then .finite (value b)
  else if mantissa b = 0 then .infinite (negative b)
  else .nan

/-- The double of a whole number below 2^53. -/
def ofNat (n : Nat) : Bits :=
  if n = 0 then 0 else BitVec.ofNat 64
    ((n.log2 + 1023) * 2 ^ 52 + (n - 2 ^ n.log2) * 2 ^ (52 - n.log2))

/-- `==` on doubles. -/
def equal (a b : Bits) : Bool := decide (decode a ≠ .nan ∧ decode a = decode b)

namespace Datum

/-- Nothing is cut off by `trunc`. -/
def isInteger : Datum → Bool
  | .finite q => q.den = 1
  | .infinite _ => true
  | .nan => false

def lt : Datum → Datum → Bool
  | .finite p, .finite q => p < q
  | .finite _, .infinite negative => !negative
  | .infinite negative, .finite _ => negative
  | .infinite m, .infinite n => m && !n
  | _, _ => false

/-- Without rounding. -/
def add : Datum → ℚ → Datum
  | .finite p, q => .finite (p + q)
  | d, _ => d

/-- The conversion to an unsigned number, where there is one. -/
def toNat : Datum → Nat
  | .finite q => q.floor.toNat
  | _ => 0

end Datum

/-! ### Equality -/

theorem equal_symm (a b : Bits) : equal a b = equal b a := by
  unfold equal
  rw [Bool.eq_iff_iff, decide_eq_true_iff, decide_eq_true_iff]
  constructor <;> intro ⟨hne, heq⟩ <;> exact ⟨heq ▸ hne, heq.symm⟩

theorem equal_trans {a b c : Bits} (hab : equal a b = true) (hbc : equal b c = true) :
    equal a c = true := by
  unfold equal at hab hbc ⊢
  rw [decide_eq_true_iff] at hab hbc ⊢
  exact ⟨hab.1, hab.2.trans hbc.2⟩

/-- A double is told by its sign, exponent and mantissa. -/
theorem ext {a b : Bits} (hneg : negative a = negative b) (hexp : exponent a = exponent b)
    (hman : mantissa a = mantissa b) : a = b := by
  refine BitVec.eq_of_toNat_eq ?_
  unfold negative at hneg
  unfold exponent at hexp
  unfold mantissa at hman
  rw [decide_eq_decide] at hneg
  have ha := a.isLt
  have hb := b.isLt
  omega

theorem mantissa_lt (b : Bits) : mantissa b < 2 ^ 52 := Nat.mod_lt _ (by norm_num)

theorem magnitude_lt (b : Bits) : magnitude b < 2 ^ (52 + exponent b) := by
  have hman := mantissa_lt b
  unfold magnitude
  by_cases he : exponent b = 0
  · rw [if_pos he, he]
    exact hman
  · rw [if_neg he]
    calc (2 ^ 52 + mantissa b) * 2 ^ (exponent b - 1)
        < 2 ^ 53 * 2 ^ (exponent b - 1) :=
          Nat.mul_lt_mul_of_pos_right (by omega) (Nat.two_pow_pos _)
      _ = 2 ^ (52 + exponent b) := by
          rw [← Nat.pow_add]
          congr 1
          omega

theorem le_magnitude {b : Bits} (he : exponent b ≠ 0) :
    2 ^ (52 + (exponent b - 1)) ≤ magnitude b := by
  unfold magnitude
  rw [if_neg he, Nat.pow_add]
  exact Nat.mul_le_mul_right _ (Nat.le_add_right _ _)

theorem exponent_le_of_magnitude_le {a b : Bits} (h : magnitude a ≤ magnitude b) :
    exponent a ≤ exponent b := by
  by_contra hlt
  have hle := le_magnitude (b := a) (by omega)
  have hpow : 2 ^ (52 + exponent b) ≤ 2 ^ (52 + (exponent a - 1)) :=
    Nat.pow_le_pow_right (by norm_num) (by omega)
  have hmag := magnitude_lt b
  omega

theorem magnitude_inj {a b : Bits} (h : magnitude a = magnitude b) :
    exponent a = exponent b ∧ mantissa a = mantissa b := by
  have hexp : exponent a = exponent b :=
    Nat.le_antisymm (exponent_le_of_magnitude_le h.le) (exponent_le_of_magnitude_le h.ge)
  refine ⟨hexp, ?_⟩
  unfold magnitude at h
  rw [hexp] at h
  by_cases he : exponent b = 0
  · rwa [if_pos he, if_pos he] at h
  · rw [if_neg he, if_neg he] at h
    have hsum := Nat.eq_of_mul_eq_mul_right (Nat.two_pow_pos _) h
    omega

theorem value_inj {a b : Bits} (h : value a = value b) (ha : magnitude a ≠ 0) :
    negative a = negative b ∧ magnitude a = magnitude b := by
  have hpos : (0 : ℚ) < magnitude a / 2 ^ places :=
    div_pos (by exact_mod_cast Nat.pos_of_ne_zero ha) (by positivity)
  have hnonneg : (0 : ℚ) ≤ magnitude b / 2 ^ places := by positivity
  have hdiv : (magnitude a / 2 ^ places : ℚ) = magnitude b / 2 ^ places →
      magnitude a = magnitude b := by
    intro hq
    rw [div_left_inj' (by positivity)] at hq
    exact_mod_cast hq
  unfold value at h
  by_cases hna : negative a = true <;> by_cases hnb : negative b = true
  · rw [if_pos hna, if_pos hnb, neg_inj] at h
    exact ⟨by rw [hna, hnb], hdiv h⟩
  · rw [if_pos hna, if_neg hnb] at h
    linarith
  · rw [if_neg hna, if_pos hnb] at h
    linarith
  · rw [if_neg hna, if_neg hnb] at h
    exact ⟨by rw [Bool.eq_false_of_not_eq_true hna, Bool.eq_false_of_not_eq_true hnb], hdiv h⟩

/-- **Doubles that compare equal have the same bits**, but for the zeros. -/
theorem eq_of_equal {a b : Bits} (h : equal a b = true) (ha : magnitude a ≠ 0) : a = b := by
  unfold equal at h
  rw [decide_eq_true_iff] at h
  obtain ⟨hne, heq⟩ := h
  unfold decode at hne heq
  by_cases hae : exponent a = 2 ^ 11 - 1 <;> by_cases hbe : exponent b = 2 ^ 11 - 1
  · rw [if_neg (not_not.mpr hae)] at hne heq
    rw [if_neg (not_not.mpr hbe)] at heq
    by_cases ham : mantissa a = 0 <;> by_cases hbm : mantissa b = 0
    · rw [if_pos ham, if_pos hbm, Datum.infinite.injEq] at heq
      exact ext heq (by rw [hae, hbe]) (by rw [ham, hbm])
    · simp [ham, hbm] at heq
    · simp [ham] at hne
    · simp [ham] at hne
  · rw [if_neg (not_not.mpr hae), if_pos hbe] at heq
    split at heq <;> simp at heq
  · rw [if_pos hae, if_neg (not_not.mpr hbe)] at heq
    split at heq <;> simp at heq
  · rw [if_pos hae, if_pos hbe, Datum.finite.injEq] at heq
    obtain ⟨hneg, hmag⟩ := value_inj heq ha
    obtain ⟨hexp, hman⟩ := magnitude_inj hmag
    exact ext hneg hexp hman

/-- The zero with the sign. -/
def negativeZero : Bits := BitVec.ofNat 64 (2 ^ 63)

theorem eq_zero_of_magnitude {a : Bits} (h : magnitude a = 0) (ha : a ≠ negativeZero) :
    a = 0 := by
  have hexp : exponent a = 0 := by
    by_contra he
    have hle := le_magnitude he
    have hpos := Nat.two_pow_pos (52 + (exponent a - 1))
    omega
  unfold magnitude at h
  rw [if_pos hexp] at h
  unfold exponent at hexp
  unfold mantissa at h
  have hlt := a.isLt
  refine BitVec.eq_of_toNat_eq ?_
  have hne : a.toNat ≠ 2 ^ 63 := fun htoNat => ha (BitVec.eq_of_toNat_eq htoNat)
  have hzero : (0 : Bits).toNat = 0 := rfl
  omega

/-- Without the negative zero, equality of doubles is that of their bits. -/
theorem eq_of_equal_of_ne {a b : Bits} (h : equal a b = true) (ha : a ≠ negativeZero)
    (hb : b ≠ negativeZero) : a = b := by
  by_cases hma : magnitude a = 0
  · by_cases hmb : magnitude b = 0
    · rw [eq_zero_of_magnitude hma ha, eq_zero_of_magnitude hmb hb]
    · rw [equal_symm] at h
      exact (eq_of_equal h hmb).symm
  · exact eq_of_equal h hma

/-! ### Whole numbers -/

/-- **A whole number comes back** from its double. -/
theorem decode_ofNat {n : Nat} (hn : n < 2 ^ 53) : decode (ofNat n) = .finite n := by
  by_cases h0 : n = 0
  · rw [h0]
    simp [decode, ofNat, exponent, value, negative, magnitude, mantissa]
  · have hlog : n.log2 ≤ 52 := by
      have hlt := (Nat.log2_lt h0).mpr hn
      omega
    have hself := Nat.log2_self_le h0
    have hlt := Nat.lt_log2_self (n := n)
    obtain ⟨k, hk⟩ : ∃ k, k = n.log2 := ⟨_, rfl⟩
    have hfrac : (n - 2 ^ k) * 2 ^ (52 - k) < 2 ^ 52 := by
      rw [← hk] at hself hlt hlog
      calc (n - 2 ^ k) * 2 ^ (52 - k) < 2 ^ k * 2 ^ (52 - k) := by
            refine Nat.mul_lt_mul_of_pos_right ?_ (Nat.two_pow_pos _)
            rw [Nat.pow_succ] at hlt
            omega
        _ = 2 ^ 52 := by
            rw [← Nat.pow_add]
            congr 1
            omega
    have htoNat : (ofNat n).toNat = (k + 1023) * 2 ^ 52 + (n - 2 ^ k) * 2 ^ (52 - k) := by
      unfold ofNat
      rw [if_neg h0, ← hk, BitVec.toNat_ofNat, Nat.mod_eq_of_lt]
      omega
    have hexp : exponent (ofNat n) = k + 1023 := by
      unfold exponent
      rw [htoNat]
      omega
    have hman : mantissa (ofNat n) = (n - 2 ^ k) * 2 ^ (52 - k) := by
      unfold mantissa
      rw [htoNat]
      omega
    have hneg : negative (ofNat n) = false := by
      unfold negative
      rw [htoNat, decide_eq_false_iff_not]
      omega
    have hmag : magnitude (ofNat n) = n * 2 ^ places := by
      unfold magnitude
      rw [if_neg (by omega), hexp, hman]
      have hsum : 2 ^ 52 + (n - 2 ^ k) * 2 ^ (52 - k) = n * 2 ^ (52 - k) := by
        have hsplit : 2 ^ 52 = 2 ^ k * 2 ^ (52 - k) := by
          rw [← Nat.pow_add]
          congr 1
          omega
        rw [hsplit, ← Nat.add_mul]
        congr 1
        rw [← hk] at hself
        omega
      have hpow : 52 - k + (k + 1023 - 1) = places := by
        rw [places]
        omega
      rw [hsum, Nat.mul_assoc, ← Nat.pow_add, hpow]
    unfold decode value
    rw [if_pos (by omega), hneg, hmag]
    simp

end Double
