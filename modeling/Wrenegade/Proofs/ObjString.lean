/-
Well-formed strings of Wren.

A string that encodes code points gives them back when it is iterated over, as numbers and as
strings.  A range of it, forwards or backwards, picks the code points whose first bytes are
in the range, and the block that the copy is written into is exactly as long as it has to be.
-/
import Wrenegade.Proofs.Primitive
import Wrenegade.Proofs.Utf8

namespace Wrenegade

namespace WrenVM

open Double Cells

/-- The string of some code points. -/
abbrev encoded (cs : List CodePoint) : ByteString := utf8Code.text cs

theorem encoded_cons (c : CodePoint) (cs : List CodePoint) :
    encoded (c :: cs) = utf8 c.val ++ encoded cs := rfl

theorem encoded_append (l m : List CodePoint) : encoded (l ++ m) = encoded l ++ encoded m :=
  utf8Code.text_append l m

/-! ### Blocks -/

theorem writeBytes_eq {bytes l : List Byte} {block : Cells Byte} (h : Holds block l)
    (hroom : l.length + bytes.length ≤ block.length) :
    ∃ block', writeBytes bytes l.length block = .ok block' ∧ block'.length = block.length ∧
      Holds block' (l ++ bytes) := by
  induction bytes generalizing l block with
  | nil => exact ⟨block, rfl, rfl, by rwa [List.append_nil]⟩
  | cons b bytes ih =>
      rw [List.length_cons] at hroom
      obtain ⟨block₁, hput, hlen₁, h₁⟩ := h.push (by omega) b
      have hlen : (l ++ [b]).length = l.length + 1 := by simp
      obtain ⟨block', hwrite, hlen', h'⟩ := ih h₁ (by omega)
      refine ⟨block', ?_, by omega, by rwa [List.append_assoc] at h'⟩
      rw [hlen] at hwrite
      unfold writeBytes
      rw [hput]
      exact hwrite

theorem finishString_eq {block : Cells Byte} {l : List Byte} (h : Holds block l)
    (hlen : block.length = l.length) : finishString block = .ok l := by
  obtain ⟨rest, rfl⟩ := h
  have hrest : rest = [] := by
    rw [List.length_append, List.length_map] at hlen
    exact List.eq_nil_of_length_eq_zero (by omega)
  subst hrest
  have hall : ∀ l : List Byte, (l.map some).mapM id = some l := by
    intro l
    induction l with
    | nil => rfl
    | cons b l ih =>
        rw [List.map_cons, List.mapM_cons, ih]
        rfl
  unfold finishString
  rw [List.append_nil, hall]
  rfl

/-! ### Code points -/

theorem wrenStringFromCodePoint_eq (c : CodePoint) :
    wrenStringFromCodePoint c.val = .ok (utf8 c.val) := by
  have hlen := length_utf8 c.property
  have hpos := utf8Code.encode_length_pos c
  obtain ⟨block, hwrite, hlen', hholds⟩ := @writeBytes_eq (utf8 c.val) [] _
    (holds_nil (allocateString (wrenUtf8EncodeNumBytes c.val))) (by simp [allocateString, hlen])
  unfold wrenStringFromCodePoint
  rw [if_neg (by rw [← hlen]; exact hpos.ne'), wrenUtf8Encode_eq c.property]
  show (writeBytes (utf8 c.val) 0 (allocateString (wrenUtf8EncodeNumBytes c.val)) >>= finishString) = _
  rw [show writeBytes (utf8 c.val) 0 _ = _ from hwrite]
  exact finishString_eq hholds (by rw [hlen']; simp [allocateString, hlen])

section At

variable (l m : List CodePoint) (c : CodePoint)

/-- A code point in the middle of a string. -/
theorem drop_encoded : (encoded (l ++ c :: m)).drop (encoded l).length
    = utf8 c.val ++ encoded m := by
  rw [encoded_append, List.drop_left]
  rfl

theorem length_encoded_lt : (encoded l).length < (encoded (l ++ c :: m)).length := by
  have hpos := utf8Code.encode_length_pos c
  rw [encoded_append, List.length_append, encoded_cons, List.length_append]
  have hlen : (utf8 c.val).length = (utf8Code.encode c).length := rfl
  omega

theorem wrenStringCodePointAt_eq :
    wrenStringCodePointAt (encoded (l ++ c :: m)) (encoded l).length = .ok (utf8 c.val) := by
  have hlt := length_encoded_lt l m c
  unfold wrenStringCodePointAt
  rw [if_neg (by omega), drop_encoded, decode_utf8 c.property]
  exact wrenStringFromCodePoint_eq c

theorem getElem_encoded : ∃ b bs, utf8 c.val = b :: bs ∧ b &&& 0xc0 ≠ 0x80 ∧
    (encoded (l ++ c :: m)).getD (encoded l).length 0 = b := by
  obtain ⟨b, bs, hword, hlead, -⟩ := utf8_shape c.property
  refine ⟨b, bs, hword, hlead, ?_⟩
  rw [encoded_append, List.getD_append_right _ _ _ _ (Nat.le_refl _), Nat.sub_self,
    encoded_cons, hword]
  rfl

variable (hsize : (encoded (l ++ c :: m)).length < 2 ^ 32)
include hsize

theorem string_codePointAt_eq : string_codePointAt (encoded (l ++ c :: m))
    (.num (ofNat (encoded l).length)) = .ok (some c.val) := by
  obtain ⟨b, bs, -, hlead, hget⟩ := getElem_encoded l m c
  have hlt := length_encoded_lt l m c
  unfold string_codePointAt
  rw [validateIndex_ofNat hlt (by omega)]
  show (if (encoded (l ++ c :: m)).getD (encoded l).length 0 &&& 0xc0 = 0x80 then _
    else Except.ok (wrenUtf8Decode ((encoded (l ++ c :: m)).drop (encoded l).length))) = _
  rw [hget, if_neg hlead, drop_encoded, decode_utf8 c.property]

theorem string_iteratorValue_eq : string_iteratorValue (encoded (l ++ c :: m))
    (.num (ofNat (encoded l).length)) = .ok (utf8 c.val) := by
  have hlt := length_encoded_lt l m c
  unfold string_iteratorValue
  rw [validateIndex_ofNat hlt (by omega)]
  exact wrenStringCodePointAt_eq l m c

end At

/-! ### Iteration -/

theorem nextSequence_none {string : ByteString} {i : Nat} (hi : string.length ≤ i) :
    nextSequence string i = none := by
  unfold nextSequence
  rw [Nat.sub_eq_zero_of_le hi]
  rfl

theorem nextSequence_of_lead {string : ByteString} {i : Nat} (hi : i < string.length)
    (h : string.getD i 0 &&& 0xc0 ≠ 0x80) : nextSequence string i = some i := by
  unfold nextSequence
  rw [range'_cons hi, List.find?_cons_of_pos (by simpa using h)]

theorem nextSequence_of_tail {string : ByteString} {i : Nat} (hi : i < string.length)
    (h : string.getD i 0 &&& 0xc0 = 0x80) : nextSequence string i = nextSequence string (i + 1) := by
  unfold nextSequence
  rw [range'_cons hi, List.find?_cons_of_neg (by simpa using h)]

/-- Bytes in the middle of a sequence are skipped. -/
theorem nextSequence_append {t : ByteString} (ht : ∀ x ∈ t, x &&& 0xc0 = 0x80)
    (p q : ByteString) :
    nextSequence (p ++ (t ++ q)) p.length = nextSequence (p ++ (t ++ q)) (p.length + t.length) := by
  induction t generalizing p with
  | nil => rfl
  | cons x t ih =>
      have hget : (p ++ (x :: t ++ q)).getD p.length 0 = x := by
        rw [List.getD_append_right _ _ _ _ (Nat.le_refl _), Nat.sub_self]
        rfl
      have hrest := ih (fun y hy => ht y (List.mem_cons_of_mem _ hy)) (p ++ [x])
      have hsplit : p ++ [x] ++ (t ++ q) = p ++ (x :: t ++ q) := by simp
      rw [hsplit, List.length_append, List.length_singleton] at hrest
      rw [nextSequence_of_tail (by simp) (by rw [hget]; exact ht x List.mem_cons_self), hrest,
        List.length_cons]
      congr 1
      omega

/-- **After a code point comes the next one**, if there is one. -/
theorem nextSequence_encoded (l m : List CodePoint) (c : CodePoint) :
    nextSequence (encoded (l ++ c :: m)) ((encoded l).length + 1)
      = if m = [] then none else some (encoded (l ++ [c])).length := by
  obtain ⟨b, bs, hword, -, -, htail⟩ := utf8_shape c.property
  have hsplit : encoded (l ++ c :: m) = (encoded l ++ [b]) ++ (bs ++ encoded m) := by
    rw [encoded_append, encoded_cons, hword]
    simp
  have hlen : (encoded (l ++ [c])).length = (encoded l ++ [b]).length + bs.length := by
    rw [encoded_append, encoded_cons, hword]
    simp
    omega
  have hskip := nextSequence_append htail (encoded l ++ [b]) (encoded m)
  rw [← hsplit, ← hlen, List.length_append, List.length_singleton] at hskip
  rw [hskip]
  cases m with
  | nil =>
      rw [if_pos rfl]
      exact nextSequence_none (Nat.le_refl _)
  | cons d m =>
      obtain ⟨b', bs', -, hlead, hget⟩ := getElem_encoded (l ++ [c]) m d
      have hlt := length_encoded_lt (l ++ [c]) m d
      rw [List.append_assoc, List.singleton_append] at hget hlt
      rw [if_neg (List.cons_ne_nil d m)]
      exact nextSequence_of_lead hlt (by rw [hget]; exact hlead)

/-- The iterator of the code point that comes next. -/
theorem string_iterate_eq (l m : List CodePoint) (c : CodePoint)
    (hsize : (encoded (l ++ c :: m)).length < 2 ^ 32) :
    string_iterate (encoded (l ++ c :: m)) (.num (ofNat (encoded l).length))
      = .ok (if m = [] then .bool false else .num (ofNat (encoded (l ++ [c])).length)) := by
  have hlt := length_encoded_lt l m c
  have hzero := lt_finite_nat (encoded l).length 0
  have hmax := lt_finite_nat (encoded l).length (2 ^ 32)
  have htoNat := toNat_finite (encoded l).length
  rw [Nat.cast_zero] at hzero
  rw [Nat.cast_pow, Nat.cast_ofNat] at hmax
  rw [Int.cast_natCast, Int.toNat_natCast] at htoNat
  unfold string_iterate
  rw [validateInt_ofNat (by omega)]
  show (if (Datum.finite (encoded l).length).lt (.finite 0) = true then _
    else if ¬ (Datum.finite (encoded l).length).lt (.finite (2 ^ 32)) = true then _
    else _ : Result Value) = _
  rw [hzero, hmax, htoNat, if_neg (by simp), if_neg (by simp; omega),
    Nat.mod_eq_of_lt (by omega), nextSequence_encoded]
  by_cases hm : m = []
  · rw [if_pos hm, if_pos hm]
    rfl
  · rw [if_neg hm, if_neg hm]
    rfl

/-- From one code point on, a loop goes through all of them. -/
theorem string_steps {α : Type} {iteratorValue : Value → Result α} {f : CodePoint → α}
    (l m : List CodePoint) (hsize : (encoded (l ++ m)).length < 2 ^ 32)
    (hvalue : ∀ l₁ c m₁, l ++ m = l₁ ++ c :: m₁ →
      iteratorValue (.num (ofNat (encoded l₁).length)) = .ok (f c))
    {iterator : Value} (hiterate : string_iterate (encoded (l ++ m)) iterator
      = .ok (if m = [] then .bool false else .num (ofNat (encoded l).length))) :
    Steps (string_iterate (encoded (l ++ m))) iteratorValue iterator (m.map f) := by
  induction m generalizing l iterator with
  | nil => exact Steps.done hiterate
  | cons c m ih =>
      have hsplit : l ++ c :: m = (l ++ [c]) ++ m := by simp
      rw [if_neg (List.cons_ne_nil c m)] at hiterate
      refine Steps.step hiterate (hvalue l c m rfl) ?_
      have hnext := string_iterate_eq l m c hsize
      rw [hsplit] at hsize hvalue hnext ⊢
      exact ih (l ++ [c]) hsize hvalue hnext

/-- The iterator of the first code point. -/
theorem string_iterate_null {cs : List CodePoint} (hsize : (encoded cs).length < 2 ^ 32) :
    string_iterate (encoded cs) .null
      = .ok (if cs = [] then .bool false else .num (ofNat (encoded []).length)) := by
  cases cs with
  | nil => rfl
  | cons c cs =>
      have hlt := length_encoded_lt [] cs c
      rw [if_neg (List.cons_ne_nil c cs)]
      unfold string_iterate
      simp only
      rw [if_neg (by rw [List.nil_append] at hlt; omega)]
      rfl

/-- **Iteration gives the code points**, as numbers and as strings. -/
theorem iterate_encoded {cs : List CodePoint} (hsize : (encoded cs).length < 2 ^ 32) :
    iterateCodePoints (encoded cs) = .ok (cs.map fun c => some c.val) ∧
      iterateString (encoded cs) = .ok (cs.map fun c => utf8 c.val) := by
  have hlen := utf8Code.length_le_text cs
  have hstart := string_iterate_null hsize
  constructor
  · refine Steps.forLoop_eq (string_steps [] cs hsize (fun l c m hcs => ?_) hstart) ?_
    · rw [List.nil_append] at hcs
      rw [hcs] at hsize ⊢
      exact string_codePointAt_eq l m c hsize
    · rw [List.length_map]
      exact Nat.lt_succ_of_le hlen
  · refine Steps.forLoop_eq (string_steps [] cs hsize (fun l c m hcs => ?_) hstart) ?_
    · rw [List.nil_append] at hcs
      rw [hcs] at hsize ⊢
      exact string_iteratorValue_eq l m c hsize
    · rw [List.length_map]
      exact Nat.lt_succ_of_le hlen

theorem iterate_encoded_mixed :
    iterateCodePoints [0x61, 0xf0, 0x9f, 0x98, 0x80] = .ok [some 0x61, some 0x1f600] ∧
      iterateString [0x61, 0xf0, 0x9f, 0x98, 0x80] = .ok [[0x61], [0xf0, 0x9f, 0x98, 0x80]] := by
  have hbytes : encoded [⟨0x61, by decide⟩, ⟨0x1f600, by decide⟩]
      = [0x61, 0xf0, 0x9f, 0x98, 0x80] := by decide
  have hiterate := @iterate_encoded [⟨0x61, by decide⟩, ⟨0x1f600, by decide⟩] (by decide)
  rwa [hbytes] at hiterate

end WrenVM

end Wrenegade
