/-
UTF-8 as Wren writes and reads it.

Every code point comes back from its bytes, whatever follows them, and the first of its bytes
says how many there are.  No other byte of a sequence looks like a first one, so that the
encoding is a self-synchronizing code.
-/
import Wrenegade.Lib.Code
import Wrenegade.Model.ObjString

namespace Wrenegade

namespace WrenVM

/-! ### Bits -/

theorem or_eq_add {i x : Nat} (a : Nat) (hx : x < 2 ^ i) : 2 ^ i * a ||| x = 2 ^ i * a + x :=
  (Nat.two_pow_add_eq_or_of_lt hx a).symm

/-- Some bits of a number, moved to the right. -/
theorem and_shiftRight (v i n : Nat) :
    (v &&& (2 ^ n - 1) * 2 ^ i) >>> i = v / 2 ^ i % 2 ^ n := by
  rw [Nat.shiftRight_and_distrib, Nat.shiftRight_eq_div_pow, Nat.shiftRight_eq_div_pow,
    Nat.mul_div_cancel _ (Nat.two_pow_pos i), Nat.and_two_pow_sub_one_eq_mod]

/-- A byte in the middle of a sequence. -/
def tailByte (n : Nat) : Byte := UInt8.ofNat (0x80 + n % 64)

theorem tailByte_spec (n : Nat) : tailByte n &&& 0xc0 = 0x80 ∧ (tailByte n &&& 0x3f).toNat = n % 64 := by
  have hall : ∀ m < 64, UInt8.ofNat (0x80 + m) &&& 0xc0 = 0x80 ∧
      (UInt8.ofNat (0x80 + m) &&& 0x3f).toNat = m := by decide
  exact hall (n % 64) (Nat.mod_lt _ (by norm_num))

theorem tailByte_eq (v i : Nat) :
    UInt8.ofNat (0x80 ||| (v &&& (2 ^ 6 - 1) * 2 ^ i) >>> i) = tailByte (v / 2 ^ i) := by
  rw [and_shiftRight]
  exact congrArg UInt8.ofNat (or_eq_add 2 (Nat.mod_lt _ (Nat.two_pow_pos 6)))

theorem decodeRemaining_tailByte (n value m : Nat) (bytes : List Byte) :
    decodeRemaining (n + 1) value (tailByte m :: bytes)
      = decodeRemaining n (value * 64 + m % 64) bytes := by
  obtain ⟨hmask, hbits⟩ := tailByte_spec m
  have hor : 2 ^ 6 * value ||| m % 64 = 2 ^ 6 * value + m % 64 :=
    or_eq_add value (Nat.mod_lt _ (by norm_num))
  rw [decodeRemaining, if_neg (by rw [hmask]; simp), hbits, Nat.shiftLeft_eq, Nat.mul_comm, hor,
    Nat.mul_comm]

/-! ### First bytes -/

theorem ascii_spec : ∀ n < 128, UInt8.ofNat n ≤ 0x7f ∧ (UInt8.ofNat n).toNat = n ∧
    UInt8.ofNat n &&& 0xc0 ≠ 0x80 ∧ wrenUtf8DecodeNumBytes (UInt8.ofNat n) = 1 := by decide

/-- The first byte of a sequence of two, three or four bytes. -/
theorem lead_spec :
    (∀ n < 32, let b := UInt8.ofNat (0xc0 + n); ¬ b ≤ 0x7f ∧ b &&& 0xe0 = 0xc0 ∧
      (b &&& 0x1f).toNat = n ∧ b &&& 0xc0 ≠ 0x80 ∧ wrenUtf8DecodeNumBytes b = 2) ∧
    (∀ n < 16, let b := UInt8.ofNat (0xe0 + n); ¬ b ≤ 0x7f ∧ b &&& 0xe0 ≠ 0xc0 ∧
      b &&& 0xf0 = 0xe0 ∧ (b &&& 0x0f).toNat = n ∧ b &&& 0xc0 ≠ 0x80 ∧
        wrenUtf8DecodeNumBytes b = 3) ∧
    (∀ n < 8, let b := UInt8.ofNat (0xf0 + n); ¬ b ≤ 0x7f ∧ b &&& 0xe0 ≠ 0xc0 ∧
      b &&& 0xf0 ≠ 0xe0 ∧ b &&& 0xf8 = 0xf0 ∧ (b &&& 0x07).toNat = n ∧ b &&& 0xc0 ≠ 0x80 ∧
        wrenUtf8DecodeNumBytes b = 4) := by
  decide

theorem decode_ascii {n : Nat} (hn : n < 128) (bytes : List Byte) :
    wrenUtf8Decode (UInt8.ofNat n :: bytes) = some n := by
  obtain ⟨hle, htoNat, -⟩ := ascii_spec n hn
  unfold wrenUtf8Decode
  rw [List.headD_cons, if_pos hle, htoNat]

/-- The test of the length is one that the loop makes as well. -/
theorem decodeRemaining_short {n value : Nat} {bytes : List Byte} (h : bytes.length < n) :
    decodeRemaining n value bytes = none := by
  induction n generalizing value bytes with
  | zero => omega
  | succ n ih =>
      cases bytes with
      | nil => rfl
      | cons b bytes =>
          rw [List.length_cons] at h
          rw [decodeRemaining]
          split
          · rfl
          · exact ih (by omega)

theorem remaining_eq (n value : Nat) (bytes : List Byte) :
    (if n > bytes.length then none else decodeRemaining n value bytes)
      = decodeRemaining n value bytes := by
  split
  · rename_i h
    rw [decodeRemaining_short h]
  · rfl

theorem decode_lead2 {n : Nat} (hn : n < 32) (bytes : List Byte) :
    wrenUtf8Decode (UInt8.ofNat (0xc0 + n) :: bytes) = decodeRemaining 1 n bytes := by
  obtain ⟨hascii, hmask, hbits, -⟩ := lead_spec.1 n hn
  unfold wrenUtf8Decode
  rw [List.headD_cons, if_neg hascii, if_pos hmask, hbits]
  exact remaining_eq 1 n bytes

theorem decode_lead3 {n : Nat} (hn : n < 16) (bytes : List Byte) :
    wrenUtf8Decode (UInt8.ofNat (0xe0 + n) :: bytes) = decodeRemaining 2 n bytes := by
  obtain ⟨hascii, hmask, hmask', hbits, -⟩ := lead_spec.2.1 n hn
  unfold wrenUtf8Decode
  rw [List.headD_cons, if_neg hascii, if_neg hmask, if_pos hmask', hbits]
  exact remaining_eq 2 n bytes

theorem decode_lead4 {n : Nat} (hn : n < 8) (bytes : List Byte) :
    wrenUtf8Decode (UInt8.ofNat (0xf0 + n) :: bytes) = decodeRemaining 3 n bytes := by
  obtain ⟨hascii, hmask, hmask', hmask'', hbits, -⟩ := lead_spec.2.2 n hn
  unfold wrenUtf8Decode
  rw [List.headD_cons, if_neg hascii, if_neg hmask, if_neg hmask', if_pos hmask'', hbits]
  exact remaining_eq 3 n bytes

/-- No code point begins with a tail, and none has its length told by one. -/
theorem decode_tailByte (n : Nat) (bytes : List Byte) :
    wrenUtf8Decode (tailByte n :: bytes) = none ∧ wrenUtf8DecodeNumBytes (tailByte n) = 0 := by
  have hall : ∀ m < 64, let b := UInt8.ofNat (0x80 + m); ¬ b ≤ 0x7f ∧ b &&& 0xe0 ≠ 0xc0 ∧
      b &&& 0xf0 ≠ 0xe0 ∧ b &&& 0xf8 ≠ 0xf0 ∧ wrenUtf8DecodeNumBytes b = 0 := by decide
  obtain ⟨hascii, hmask, hmask', hmask'', hnum⟩ := hall (n % 64) (Nat.mod_lt _ (by norm_num))
  refine ⟨?_, hnum⟩
  unfold wrenUtf8Decode tailByte
  rw [List.headD_cons, if_neg hascii, if_neg hmask, if_neg hmask', if_neg hmask'']

/-! ### Code points -/

/-- The bytes of a code point. -/
def utf8 (v : Nat) : List Byte :=
  if v < 0x80 then [UInt8.ofNat v]
  else if v < 0x800 then [UInt8.ofNat (0xc0 + v / 64), tailByte v]
  else if v < 0x10000 then [UInt8.ofNat (0xe0 + v / 4096), tailByte (v / 64), tailByte v]
  else [UInt8.ofNat (0xf0 + v / 262144), tailByte (v / 4096), tailByte (v / 64), tailByte v]

theorem wrenUtf8Encode_eq {v : Nat} (hv : v ≤ 0x10ffff) : wrenUtf8Encode v = .ok (utf8 v) := by
  have hlast : UInt8.ofNat (0x80 ||| v &&& 0x3f) = tailByte v := by
    have h := tailByte_eq v 0
    rwa [Nat.pow_zero, Nat.mul_one, Nat.shiftRight_zero, Nat.div_one] at h
  have hmiddle : UInt8.ofNat (0x80 ||| (v &&& 0xfc0) >>> 6) = tailByte (v / 64) := tailByte_eq v 6
  have hmiddle' : UInt8.ofNat (0x80 ||| (v &&& 0x3f000) >>> 12) = tailByte (v / 4096) :=
    tailByte_eq v 12
  unfold wrenUtf8Encode utf8
  by_cases h1 : v ≤ 0x7f
  · have hmod : v &&& 0x7f = v := by
      have hand := Nat.and_two_pow_sub_one_eq_mod v 7
      rw [Nat.mod_eq_of_lt (by omega)] at hand
      exact hand
    rw [if_pos h1, if_pos (show v < 0x80 by omega), hmod]
    rfl
  rw [if_neg h1, if_neg (show ¬ v < 0x80 by omega)]
  by_cases h2 : v ≤ 0x7ff
  · have hlead : 0xc0 ||| (v &&& 0x7c0) >>> 6 = 0xc0 + v / 64 := by
      rw [show (v &&& 0x7c0) >>> 6 = v / 2 ^ 6 % 2 ^ 5 from and_shiftRight v 6 5,
        Nat.mod_eq_of_lt (by omega)]
      exact @or_eq_add 6 _ 3 (by omega)
    rw [if_pos h2, if_pos (show v < 0x800 by omega), hlead, hlast]
    rfl
  rw [if_neg h2, if_neg (show ¬ v < 0x800 by omega)]
  by_cases h3 : v ≤ 0xffff
  · have hlead : 0xe0 ||| (v &&& 0xf000) >>> 12 = 0xe0 + v / 4096 := by
      rw [show (v &&& 0xf000) >>> 12 = v / 2 ^ 12 % 2 ^ 4 from and_shiftRight v 12 4,
        Nat.mod_eq_of_lt (by omega)]
      exact @or_eq_add 5 _ 7 (by omega)
    rw [if_pos h3, if_pos (show v < 0x10000 by omega), hlead, hmiddle, hlast]
    rfl
  · have hlead : 0xf0 ||| (v &&& 0x1c0000) >>> 18 = 0xf0 + v / 262144 := by
      rw [show (v &&& 0x1c0000) >>> 18 = v / 2 ^ 18 % 2 ^ 3 from and_shiftRight v 18 3,
        Nat.mod_eq_of_lt (by omega)]
      exact @or_eq_add 4 _ 15 (by omega)
    rw [if_neg h3, if_pos hv, if_neg (show ¬ v < 0x10000 by omega), hlead, hmiddle', hmiddle,
      hlast]
    rfl

/-- **A code point comes back from its bytes**, whatever follows them. -/
theorem decode_utf8 {v : Nat} (hv : v ≤ 0x10ffff) (bytes : List Byte) :
    wrenUtf8Decode (utf8 v ++ bytes) = some v := by
  unfold utf8
  by_cases h1 : v < 0x80
  · rw [if_pos h1]
    exact decode_ascii h1 bytes
  rw [if_neg h1]
  by_cases h2 : v < 0x800
  · rw [if_pos h2]
    simp only [List.cons_append, List.nil_append]
    rw [decode_lead2 (by omega), decodeRemaining_tailByte, decodeRemaining]
    congr 1
    omega
  rw [if_neg h2]
  by_cases h3 : v < 0x10000
  · rw [if_pos h3]
    simp only [List.cons_append, List.nil_append]
    rw [decode_lead3 (by omega), decodeRemaining_tailByte, decodeRemaining_tailByte,
      decodeRemaining]
    congr 1
    omega
  · rw [if_neg h3]
    simp only [List.cons_append, List.nil_append]
    rw [decode_lead4 (by omega), decodeRemaining_tailByte, decodeRemaining_tailByte,
      decodeRemaining_tailByte, decodeRemaining]
    congr 1
    omega

theorem length_utf8 {v : Nat} (hv : v ≤ 0x10ffff) :
    (utf8 v).length = wrenUtf8EncodeNumBytes v := by
  unfold utf8 wrenUtf8EncodeNumBytes
  split_ifs <;> first | rfl | omega

/-- The first byte begins a sequence, tells its length, and no other byte begins one. -/
theorem utf8_shape {v : Nat} (hv : v ≤ 0x10ffff) : ∃ b bs, utf8 v = b :: bs ∧
    b &&& 0xc0 ≠ 0x80 ∧ wrenUtf8DecodeNumBytes b = bs.length + 1 ∧ ∀ x ∈ bs, x &&& 0xc0 = 0x80 := by
  have htail : ∀ l : List Nat, ∀ x ∈ l.map tailByte, x &&& 0xc0 = 0x80 := by
    intro l x hx
    obtain ⟨n, -, rfl⟩ := List.mem_map.mp hx
    exact (tailByte_spec n).1
  unfold utf8
  by_cases h1 : v < 0x80
  · obtain ⟨-, -, hmask, hnum⟩ := ascii_spec v h1
    rw [if_pos h1]
    exact ⟨_, [], rfl, hmask, hnum, htail []⟩
  rw [if_neg h1]
  by_cases h2 : v < 0x800
  · obtain ⟨-, -, -, hmask, hnum⟩ := lead_spec.1 (v / 64) (by omega)
    rw [if_pos h2]
    exact ⟨_, _, rfl, hmask, hnum, htail [v]⟩
  rw [if_neg h2]
  by_cases h3 : v < 0x10000
  · obtain ⟨-, -, -, -, hmask, hnum⟩ := lead_spec.2.1 (v / 4096) (by omega)
    rw [if_pos h3]
    exact ⟨_, _, rfl, hmask, hnum, htail [v / 64, v]⟩
  · obtain ⟨-, -, -, -, -, hmask, hnum⟩ := lead_spec.2.2 (v / 262144) (by omega)
    rw [if_neg h3]
    exact ⟨_, _, rfl, hmask, hnum, htail [v / 4096, v / 64, v]⟩

abbrev CodePoint := { v : Nat // v ≤ 0x10ffff }

/-- UTF-8 is a self-synchronizing code. -/
def utf8Code : Code CodePoint Byte where
  encode v := utf8 v.val
  lead b := b &&& 0xc0 ≠ 0x80
  shape v := by
    obtain ⟨b, bs, hword, hlead, -, htail⟩ := utf8_shape v.property
    exact ⟨b, bs, hword, by simpa using hlead, fun x hx => by simpa using htail x hx⟩
  decodable v w x y h := by
    have hv := decode_utf8 v.property x
    rw [h, decode_utf8 w.property y] at hv
    exact Subtype.ext (Option.some.inj hv).symm

/-! ### Any bytes -/

/-- A byte is one of five kinds, and its bits tell which. -/
theorem byte_cases (b : Byte) :
    (∃ n < 128, b = UInt8.ofNat n) ∨ (∃ n < 64, b = tailByte n) ∨
    (∃ n < 32, b = UInt8.ofNat (0xc0 + n)) ∨ (∃ n < 16, b = UInt8.ofNat (0xe0 + n)) ∨
    (∃ n < 8, b = UInt8.ofNat (0xf0 + n)) ∨
    (¬ b ≤ 0x7f ∧ b &&& 0xc0 ≠ 0x80 ∧ b &&& 0xe0 ≠ 0xc0 ∧ b &&& 0xf0 ≠ 0xe0 ∧
      b &&& 0xf8 ≠ 0xf0) := by
  have hb : b = UInt8.ofNat b.toNat := UInt8.ofNat_toNat.symm
  have hlt : b.toNat < 256 := b.toNat_lt
  have hrest : ∀ n < 8, let b := UInt8.ofNat (0xf8 + n); ¬ b ≤ 0x7f ∧ b &&& 0xc0 ≠ 0x80 ∧
      b &&& 0xe0 ≠ 0xc0 ∧ b &&& 0xf0 ≠ 0xe0 ∧ b &&& 0xf8 ≠ 0xf0 := by decide
  rcases Nat.lt_or_ge b.toNat 0x80 with h | h
  · exact Or.inl ⟨_, h, hb⟩
  rcases Nat.lt_or_ge b.toNat 0xc0 with h' | h'
  · refine Or.inr (Or.inl ⟨b.toNat - 0x80, by omega, ?_⟩)
    rw [tailByte, Nat.mod_eq_of_lt (by omega), show 0x80 + (b.toNat - 0x80) = b.toNat by omega]
    exact hb
  rcases Nat.lt_or_ge b.toNat 0xe0 with h | h
  · refine Or.inr (Or.inr (Or.inl ⟨b.toNat - 0xc0, by omega, ?_⟩))
    rw [show 0xc0 + (b.toNat - 0xc0) = b.toNat by omega]
    exact hb
  rcases Nat.lt_or_ge b.toNat 0xf0 with h' | h'
  · refine Or.inr (Or.inr (Or.inr (Or.inl ⟨b.toNat - 0xe0, by omega, ?_⟩)))
    rw [show 0xe0 + (b.toNat - 0xe0) = b.toNat by omega]
    exact hb
  rcases Nat.lt_or_ge b.toNat 0xf8 with h | h
  · refine Or.inr (Or.inr (Or.inr (Or.inr (Or.inl ⟨b.toNat - 0xf0, by omega, ?_⟩))))
    rw [show 0xf0 + (b.toNat - 0xf0) = b.toNat by omega]
    exact hb
  · have hbits := hrest (b.toNat - 0xf8) (by omega)
    rw [show 0xf8 + (b.toNat - 0xf8) = b.toNat by omega, ← hb] at hbits
    exact Or.inr (Or.inr (Or.inr (Or.inr (Or.inr hbits))))

theorem tailByte_of_mask {b : Byte} (h : b &&& 0xc0 = 0x80) : ∃ n < 64, b = tailByte n := by
  rcases byte_cases b with ⟨n, hn, rfl⟩ | h' | ⟨n, hn, rfl⟩ | ⟨n, hn, rfl⟩ | ⟨n, hn, rfl⟩ | h'
  · exact absurd h (ascii_spec n hn).2.2.1
  · exact h'
  · exact absurd h (lead_spec.1 n hn).2.2.2.1
  · exact absurd h (lead_spec.2.1 n hn).2.2.2.2.1
  · exact absurd h (lead_spec.2.2 n hn).2.2.2.2.2.1
  · exact absurd h h'.2.1

/-- What is read behind the first byte are tails. -/
theorem decodeRemaining_eq_some {n value v : Nat} {bytes : List Byte}
    (h : decodeRemaining (n + 1) value bytes = some v) :
    ∃ m < 64, ∃ rest, bytes = tailByte m :: rest ∧
      decodeRemaining n (value * 64 + m) rest = some v := by
  cases bytes with
  | nil => cases h
  | cons b rest =>
      by_cases hb : b &&& 0xc0 = 0x80
      · obtain ⟨m, hm, rfl⟩ := tailByte_of_mask hb
        rw [decodeRemaining_tailByte, Nat.mod_eq_of_lt hm] at h
        exact ⟨m, hm, rest, rfl, h⟩
      · rw [decodeRemaining, if_pos hb] at h
        cases h

theorem tailByte_congr {m n : Nat} (h : m % 64 = n % 64) : tailByte m = tailByte n := by
  unfold tailByte
  rw [h]

/-- **What is decoded** is never longer than its first byte says, and if it is as long, then
the bytes are those of the code point. -/
theorem decode_eq_some {b : Byte} {bytes : List Byte} {v : Nat} (hv : v ≤ 0x10ffff)
    (h : wrenUtf8Decode (b :: bytes) = some v) :
    (utf8 v).length ≤ wrenUtf8DecodeNumBytes b ∧
      ((utf8 v).length = wrenUtf8DecodeNumBytes b → ∃ rest, b :: bytes = utf8 v ++ rest) := by
  rcases byte_cases b with ⟨n, hn, rfl⟩ | ⟨n, hn, rfl⟩ | ⟨n, hn, rfl⟩ | ⟨n, hn, rfl⟩ | ⟨n, hn, rfl⟩ |
    ⟨hascii, hmask, hmask', hmask'', hmask4⟩
  · rw [decode_ascii hn, Option.some.injEq] at h
    subst h
    rw [(ascii_spec n hn).2.2.2, utf8, if_pos hn]
    exact ⟨Nat.le_refl 1, fun _ => ⟨bytes, rfl⟩⟩
  · rw [(decode_tailByte n bytes).1] at h
    cases h
  · rw [decode_lead2 hn] at h
    obtain ⟨m, hm, rest, rfl, h₁⟩ := decodeRemaining_eq_some h
    rw [decodeRemaining, Option.some.injEq] at h₁
    rw [(lead_spec.1 n hn).2.2.2.2]
    unfold utf8
    by_cases h1 : v < 0x80
    · rw [if_pos h1]
      exact ⟨by simp, fun hlen => by simp at hlen⟩
    · rw [if_neg h1, if_pos (by omega), show v / 64 = n by omega]
      refine ⟨Nat.le_refl 2, fun _ => ⟨rest, ?_⟩⟩
      rw [tailByte_congr (show v % 64 = m % 64 by omega)]
      rfl
  · rw [decode_lead3 hn] at h
    obtain ⟨m, hm, rest, rfl, h₁⟩ := decodeRemaining_eq_some h
    obtain ⟨k, hk, rest, rfl, h₂⟩ := decodeRemaining_eq_some h₁
    rw [decodeRemaining, Option.some.injEq] at h₂
    rw [(lead_spec.2.1 n hn).2.2.2.2.2]
    unfold utf8
    by_cases h1 : v < 0x80
    · rw [if_pos h1]
      exact ⟨by simp, fun hlen => by simp at hlen⟩
    rw [if_neg h1]
    by_cases h2 : v < 0x800
    · rw [if_pos h2]
      exact ⟨by simp, fun hlen => by simp at hlen⟩
    · rw [if_neg h2, if_pos (by omega), show v / 4096 = n by omega]
      refine ⟨Nat.le_refl 3, fun _ => ⟨rest, ?_⟩⟩
      rw [tailByte_congr (show v % 64 = k % 64 by omega),
        tailByte_congr (show v / 64 % 64 = m % 64 by omega)]
      rfl
  · rw [decode_lead4 hn] at h
    obtain ⟨m, hm, rest, rfl, h₁⟩ := decodeRemaining_eq_some h
    obtain ⟨k, hk, rest, rfl, h₂⟩ := decodeRemaining_eq_some h₁
    obtain ⟨j, hj, rest, rfl, h₃⟩ := decodeRemaining_eq_some h₂
    rw [decodeRemaining, Option.some.injEq] at h₃
    rw [(lead_spec.2.2 n hn).2.2.2.2.2.2]
    unfold utf8
    by_cases h1 : v < 0x80
    · rw [if_pos h1]
      exact ⟨by simp, fun hlen => by simp at hlen⟩
    rw [if_neg h1]
    by_cases h2 : v < 0x800
    · rw [if_pos h2]
      exact ⟨by simp, fun hlen => by simp at hlen⟩
    rw [if_neg h2]
    by_cases h3 : v < 0x10000
    · rw [if_pos h3]
      exact ⟨by simp, fun hlen => by simp at hlen⟩
    · rw [if_neg h3, show v / 262144 = n by omega]
      refine ⟨Nat.le_refl 4, fun _ => ⟨rest, ?_⟩⟩
      rw [tailByte_congr (show v % 64 = j % 64 by omega),
        tailByte_congr (show v / 64 % 64 = k % 64 by omega),
        tailByte_congr (show v / 4096 % 64 = m % 64 by omega)]
      rfl
  · unfold wrenUtf8Decode at h
    rw [List.headD_cons, if_neg hascii, if_neg hmask', if_neg hmask'', if_neg hmask4] at h
    cases h

end WrenVM

end Wrenegade
