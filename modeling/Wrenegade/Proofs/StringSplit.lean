/-
Splitting, replacing and trimming strings.

All of it is written in Wren, over indices of bytes.  On well-formed strings it does to the
code points what its names say, because an occurrence of bytes is one of code points, and no
loop stops in the middle of a sequence.
-/
import Wrenegade.Proofs.StringFind

namespace Wrenegade

namespace WrenVM

open Double Search

/-! ### The next place -/

theorem not_mem_utf8 {v : Nat} (hv : v ≤ 0x10ffff) : (255 : Byte) ∉ utf8 v := by
  obtain ⟨b, bs, hword, -, -, htail⟩ := utf8_shape hv
  rw [hword]
  intro hmem
  rcases List.mem_cons.mp hmem with rfl | hmem
  · have hdecode := decode_utf8 hv []
    rw [hword, List.append_nil] at hdecode
    unfold wrenUtf8Decode at hdecode
    rw [List.headD_cons, if_neg (by decide), if_neg (by decide), if_neg (by decide),
      if_neg (by decide)] at hdecode
    cases hdecode
  · exact absurd (htail _ hmem) (by decide)

theorem not_mem_encoded (cs : List CodePoint) : (255 : Byte) ∉ encoded cs := by
  intro hmem
  obtain ⟨c, -, hc⟩ := List.mem_flatMap.mp hmem
  exact not_mem_utf8 c.property hc

theorem validateString_eq {heap : Heap} {arg : Value} {bytes : ByteString}
    (h : asString heap arg = some bytes) (argName : Text) :
    validateString heap arg argName = .ok bytes := by
  cases arg with
  | obj address =>
      unfold asString at h
      unfold validateString
      cases hobj : heap address <;> simp_all [pure, Except.pure]
  | null => cases h
  | bool b => cases h
  | num x => cases h

theorem encoded_ne_nil {cs : List CodePoint} (h : cs ≠ []) : encoded cs ≠ [] := by
  intro hnil
  have hle := utf8Code.length_le_text cs
  rw [show utf8Code.text cs = [] from hnil, List.length_nil] at hle
  exact h (List.eq_nil_of_length_eq_zero (by omega))

section Next

variable {heap : Heap} {arg : Value} {ds : List CodePoint}
  (harg : asString heap arg = some (encoded ds)) (hds : ds ≠ [])
  (hsize' : (encoded ds).length < 2 ^ 29) (l : List CodePoint) {m : List CodePoint}
  (hsize : (encoded (l ++ m)).length < 2 ^ 29)

include harg hsize' hsize in
theorem nextIndex_finds (hm : m ≠ []) :
    ∃ found, nextIndex heap (encoded (l ++ m)) arg (encoded l).length = .ok found ∧
      Finds (encoded ds) (encoded (l ++ m)) (encoded l).length found := by
  obtain ⟨c, m, rfl⟩ := List.exists_cons_of_ne_nil hm
  have hlt := length_encoded_lt l m c
  obtain ⟨found, hfound, hfinds⟩ := @wrenStringFind_eq (encoded (l ++ c :: m)) (encoded ds)
    (encoded l).length (not_mem_encoded _) (not_mem_encoded _) (by omega) (by omega) (by omega)
  refine ⟨found, ?_, hfinds⟩
  unfold nextIndex string_indexOf2
  rw [if_pos hlt, validateString_eq harg, validateIndex_ofNat hlt (by omega)]
  exact hfound

include harg hds hsize' hsize

/-- **The next index** is that of the next place in the code points. -/
theorem nextIndex_first {j : Nat} (h : First ds m 0 j) :
    nextIndex heap (encoded (l ++ m)) arg (encoded l).length
      = .ok (some (encoded (l ++ m.take j)).length) := by
  have hm : m ≠ [] := by
    intro hnil
    have hle := h.occurs.length_le hds
    have hpos := List.length_pos_iff.mpr hds
    rw [hnil, List.length_nil] at hle
    omega
  have hfirst := (first_append (encoded l)).mpr (first_text utf8Code hds h)
  rw [← encoded_append] at hfirst
  obtain ⟨found, hnext, hfinds⟩ := nextIndex_finds harg hsize' l hsize hm
  rw [hnext, encoded_append, List.length_append]
  cases found with
  | none => exact absurd hfirst.occurs (hfinds _ hfirst.ge)
  | some i => rw [First.unique hfinds hfirst]

theorem nextIndex_absent (h : Absent ds m 0) :
    nextIndex heap (encoded (l ++ m)) arg (encoded l).length = .ok none := by
  by_cases hm : m = []
  · unfold nextIndex
    rw [hm, List.append_nil, if_neg (Nat.lt_irrefl _)]
    rfl
  · have habsent := (absent_append (encoded l)).mpr (absent_text utf8Code hds h)
    rw [← encoded_append] at habsent
    obtain ⟨found, hnext, hfinds⟩ := nextIndex_finds harg hsize' l hsize hm
    rw [hnext]
    cases found with
    | none => rfl
    | some i => exact absurd hfinds.occurs (habsent i hfinds.ge)

end Next

/-! ### Splitting -/

theorem splitLoop_eq {heap : Heap} {delimiter : Value} {ds m : List CodePoint}
    {parts : List (List CodePoint)} (hdelimiter : asString heap delimiter = some (encoded ds))
    (hds : ds ≠ []) (hsize' : (encoded ds).length < 2 ^ 29) (h : Splits ds m parts)
    (l : List CodePoint) (hsize : (encoded (l ++ m)).length < 2 ^ 29) {fuel : Nat}
    (hfuel : m.length < fuel) (result : List ByteString) :
    splitLoop heap (encoded (l ++ m)) delimiter (encoded ds).length fuel (encoded l).length result
      = .ok (result ++ parts.map encoded) := by
  induction h generalizing l fuel result with
  | @last m h =>
      obtain ⟨fuel, rfl⟩ := Nat.exists_eq_succ_of_ne_zero (n := fuel) (by omega)
      unfold splitLoop
      rw [nextIndex_absent hdelimiter hds hsize' l hsize h]
      show (if (encoded l).length < (encoded (l ++ m)).length then
        (subscriptRange (encoded (l ++ m)) ⟨ofNat (encoded l).length, minusOne, true⟩ >>= fun part =>
          Except.ok (result ++ [part])) else Except.ok (result ++ [[]])) = _
      by_cases hm : m = []
      · rw [hm, List.append_nil, if_neg (Nat.lt_irrefl _)]
        rfl
      · obtain ⟨c, m, rfl⟩ := List.exists_cons_of_ne_nil hm
        rw [if_pos (length_encoded_lt l m c), subscriptRange_rest l _ hsize hm]
        rfl
  | @cons p q parts h hrest ih =>
      obtain ⟨fuel, rfl⟩ := Nat.exists_eq_succ_of_ne_zero (n := fuel) (by omega)
      have hnext := nextIndex_first hdelimiter hds hsize' l hsize h
      have hpos := List.length_pos_iff.mpr hds
      rw [List.append_assoc p, List.take_left] at hnext
      have hpart := subscriptRange_part l p (ds ++ q) (by rwa [List.append_assoc, ← List.append_assoc p])
        (by simp [hds])
      have hsplit : l ++ (p ++ ds ++ q) = (l ++ p ++ ds) ++ q := by simp
      have hsplit' : l ++ p ++ (ds ++ q) = (l ++ p ++ ds) ++ q := by simp
      have hsplit'' : l ++ (p ++ (ds ++ q)) = (l ++ p ++ ds) ++ q := by simp
      have hlen : (encoded (l ++ p)).length + (encoded ds).length
          = (encoded (l ++ p ++ ds)).length := by
        rw [encoded_append (l ++ p), List.length_append]
      simp only [List.length_append] at hfuel
      rw [hsplit] at hsize ⊢
      rw [hsplit''] at hnext
      rw [hsplit'] at hpart
      unfold splitLoop
      rw [hnext]
      show (subscriptRange _ ⟨ofNat (encoded l).length, ofNat (encoded (l ++ p)).length, false⟩ >>=
        fun part => splitLoop heap _ delimiter (encoded ds).length fuel
          ((encoded (l ++ p)).length + (encoded ds).length) (result ++ [part])) = _
      rw [hpart, hlen]
      show splitLoop heap _ delimiter _ fuel _ (result ++ [encoded p]) = _
      rw [ih (l ++ p ++ ds) hsize (by omega)]
      simp

theorem isEmpty_eq {bytes : ByteString} (hsize : bytes.length < 2 ^ 32) :
    isEmpty bytes = .ok (decide (bytes = [])) := by
  cases bytes with
  | nil => rfl
  | cons b bytes =>
      unfold isEmpty string_iterate
      simp only
      rw [if_neg (by rw [List.length_cons]; omega)]
      simp [pure, Except.pure, Bind.bind, Except.bind]

theorem intercalate_cons {α : Type} (sep part : List α) {parts : List (List α)}
    (h : parts ≠ []) : sep.intercalate (part :: parts) = part ++ sep ++ sep.intercalate parts := by
  obtain ⟨next, parts, rfl⟩ := List.exists_cons_of_ne_nil h
  simp [List.intercalate]

theorem encoded_intercalate (ds : List CodePoint) (parts : List (List CodePoint)) :
    encoded (ds.intercalate parts) = (encoded ds).intercalate (parts.map encoded) := by
  induction parts with
  | nil => rfl
  | cons part parts ih =>
      cases parts with
      | nil => simp [List.intercalate]
      | cons next parts =>
          rw [intercalate_cons ds part (List.cons_ne_nil next parts), encoded_append, encoded_append,
            ih]
          exact (intercalate_cons (encoded ds) (encoded part)
            (List.cons_ne_nil (encoded next) (parts.map encoded))).symm

/-- **A string is split** into the strings of the parts that its code points split into.  None of
them has the delimiter in it, and to join them gives the string back. -/
theorem string_split_eq {heap : Heap} {delimiter : Value} {cs ds : List CodePoint}
    (hdelimiter : asString heap delimiter = some (encoded ds)) (hds : ds ≠ [])
    (hsize : (encoded cs).length < 2 ^ 29) (hsize' : (encoded ds).length < 2 ^ 29) :
    ∃ parts, string_split heap (encoded cs) delimiter = .ok (parts.map encoded) ∧
      Splits ds cs parts ∧ (∀ part ∈ parts, Absent ds part 0) ∧
        (encoded ds).intercalate (parts.map encoded) = encoded cs := by
  obtain ⟨parts, hparts⟩ := exists_splits hds cs
  have hle := utf8Code.length_le_text cs
  have hloop := splitLoop_eq hdelimiter hds hsize' hparts [] hsize (Nat.lt_succ_of_le hle) []
  refine ⟨parts, ?_, hparts, fun part hpart => hparts.absent hds hpart, ?_⟩
  swap
  · rw [← encoded_intercalate, hparts.intercalate_eq]
  unfold string_split
  rw [hdelimiter]
  show (isEmpty (encoded ds) >>= fun empty => if empty = true then _
    else splitLoop heap _ delimiter (encoded ds).length ((encoded cs).length + 1) 0 []) = _
  rw [isEmpty_eq (by omega), decide_eq_false (encoded_ne_nil hds)]
  exact hloop

/-- The euro sign, a comma and a tab. -/
def euro : CodePoint := ⟨0x20ac, by decide⟩

def comma : CodePoint := ⟨0x2c, by decide⟩

def tab : CodePoint := ⟨0x09, by decide⟩

/-- Some strings to split at, to replace and to trim. -/
def someStrings : Heap := fun address =>
  if address = 0 then .string (encoded [comma]) else .string (encoded [tab])

theorem string_split_euro : ∃ parts : List (List CodePoint),
    string_split someStrings [0xe2, 0x82, 0xac, 0x2c, 0x2c] (.obj 0) = .ok (parts.map encoded) ∧
      [0x2c].intercalate (parts.map encoded) = [0xe2, 0x82, 0xac, 0x2c, 0x2c] := by
  obtain ⟨parts, hsplit, -, -, hjoin⟩ := @string_split_eq someStrings (.obj 0)
    [euro, comma, comma] [comma] rfl (by decide) (by decide) (by decide)
  exact ⟨parts, hsplit, hjoin⟩

/-! ### Replacing -/

section Replace

variable (heap : Heap) (string : ByteString) (arg : Value) (size : Nat)

/-- The result of the loop is collected from the left. -/
theorem splitLoop_result (fuel last : Nat) (result : List ByteString) :
    splitLoop heap string arg size fuel last result
      = (splitLoop heap string arg size fuel last []).map (result ++ ·) := by
  induction fuel generalizing last result with
  | zero => rfl
  | succ fuel ih =>
      unfold splitLoop
      cases nextIndex heap string arg last with
      | error failure => rfl
      | ok next =>
          cases next with
          | none =>
              by_cases hlast : last < string.length
              · simp only [Bind.bind, Except.bind, if_pos hlast]
                cases subscriptRange string ⟨ofNat last, minusOne, true⟩ <;> rfl
              · simp only [Bind.bind, Except.bind, if_neg hlast]
                rfl
          | some index =>
              simp only [Bind.bind, Except.bind]
              cases subscriptRange string ⟨ofNat last, ofNat index, false⟩ with
              | error failure => rfl
              | ok part =>
                  simp only
                  rw [ih (index + size) (result ++ [part]), ih (index + size) ([] ++ [part])]
                  cases splitLoop heap string arg size fuel (index + size) [] with
                  | error failure => rfl
                  | ok parts => simp [Except.map]

theorem splitLoop_ne_nil {fuel last : Nat} {result parts : List ByteString}
    (h : splitLoop heap string arg size fuel last result = .ok parts) : parts ≠ [] := by
  induction fuel generalizing last result with
  | zero => cases h
  | succ fuel ih =>
      unfold splitLoop at h
      cases hnext : nextIndex heap string arg last with
      | error failure =>
          rw [hnext] at h
          cases h
      | ok next =>
          rw [hnext] at h
          cases next with
          | none =>
              by_cases hlast : last < string.length
              · simp only [Bind.bind, Except.bind, if_pos hlast] at h
                cases hpart : subscriptRange string ⟨ofNat last, minusOne, true⟩ with
                | error failure =>
                    rw [hpart] at h
                    cases h
                | ok part =>
                    rw [hpart] at h
                    cases h
                    simp
              · simp only [Bind.bind, Except.bind, if_neg hlast] at h
                cases h
                simp
          | some index =>
              simp only [Bind.bind, Except.bind] at h
              cases hpart : subscriptRange string ⟨ofNat last, ofNat index, false⟩ with
              | error failure =>
                  rw [hpart] at h
                  cases h
              | ok part =>
                  rw [hpart] at h
                  exact ih h

/-- **To replace is to split and to join**, whatever the strings are. -/
theorem replaceLoop_eq (to_ : ByteString) (fuel last : Nat) (result : ByteString) :
    replaceLoop heap string arg size to_ fuel last result
      = (splitLoop heap string arg size fuel last []).map (result ++ to_.intercalate ·) := by
  induction fuel generalizing last result with
  | zero => rfl
  | succ fuel ih =>
      unfold replaceLoop splitLoop
      cases nextIndex heap string arg last with
      | error failure => rfl
      | ok next =>
          cases next with
          | none =>
              by_cases hlast : last < string.length
              · simp only [Bind.bind, Except.bind, if_pos hlast]
                cases subscriptRange string ⟨ofNat last, minusOne, true⟩ with
                | error failure => rfl
                | ok part => simp [Except.map, pure, Except.pure, List.intercalate]
              · simp only [Bind.bind, Except.bind, if_neg hlast]
                simp [Except.map, pure, Except.pure, List.intercalate]
          | some index =>
              simp only [Bind.bind, Except.bind]
              cases subscriptRange string ⟨ofNat last, ofNat index, false⟩ with
              | error failure => rfl
              | ok part =>
                  simp only
                  rw [ih, splitLoop_result heap string arg size fuel _ ([] ++ [part])]
                  cases hparts : splitLoop heap string arg size fuel (index + size) [] with
                  | error failure => rfl
                  | ok parts =>
                      have hcons := intercalate_cons to_ part (splitLoop_ne_nil _ _ _ _ hparts)
                      show Except.ok (result ++ part ++ to_ ++ to_.intercalate parts)
                        = Except.ok (result ++ to_.intercalate (part :: parts))
                      rw [hcons]
                      simp

end Replace

/-- **A string is replaced in** as `split` and `join` do it: the same parts, or the same failure. -/
theorem string_replace_eq {heap : Heap} (string : ByteString) {from_ to_ : Value}
    {bytes to_bytes : ByteString} (hfrom : asString heap from_ = some bytes) (hbytes : bytes ≠ [])
    (hsize : bytes.length < 2 ^ 32) (hto : asString heap to_ = some to_bytes) :
    string_replace heap string from_ to_
      = (string_split heap string from_).map to_bytes.intercalate := by
  unfold string_replace string_split
  simp only [hfrom, hto, isEmpty_eq hsize, decide_eq_false hbytes]
  exact replaceLoop_eq heap string from_ bytes.length to_bytes (string.length + 1) 0 []

theorem string_replace_invalid : string_replace someStrings [0x80, 0x2c] (.obj 0) (.obj 1)
    = (string_split someStrings [0x80, 0x2c] (.obj 0)).map [0x09].intercalate :=
  @string_replace_eq someStrings [0x80, 0x2c] (.obj 0) (.obj 1) [0x2c] [0x09] rfl (by decide)
    (by decide) rfl

/-! ### Trimming -/

section Trim

variable (ds : List CodePoint)

/-- What `codePoints` in `trim_` holds. -/
abbrev listed : List (Option Nat) := ds.map fun d => some d.val

def isListed (c : CodePoint) : Bool := decide (c ∈ ds)

theorem contains_listed (c : CodePoint) : (listed ds).contains (some c.val) = isListed ds c := by
  unfold isListed
  rw [Bool.eq_iff_iff, List.contains_iff_mem, decide_eq_true_iff, List.mem_map]
  constructor
  · rintro ⟨d, hd, heq⟩
    rwa [← Subtype.ext (Option.some.inj heq)]
  · intro hc
    exact ⟨c, hc, rfl⟩

/-- The first loop stops at the first code point that is not listed. -/
theorem trimStartLoop_eq (l m : List CodePoint) (hsize : (encoded (l ++ m)).length < 2 ^ 32)
    {iterator : Value} (hiterate : string_iterate (encoded (l ++ m)) iterator
      = .ok (if m = [] then .bool false else .num (ofNat (encoded l).length)))
    {fuel : Nat} (hfuel : m.length < fuel) :
    trimStartLoop (encoded (l ++ m)) (listed ds) fuel iterator
      = .ok (if m.dropWhile (isListed ds) = [] then .bool false
        else .num (ofNat (encoded (l ++ m.takeWhile (isListed ds))).length)) := by
  induction m generalizing l iterator fuel with
  | nil =>
      obtain ⟨fuel, rfl⟩ := Nat.exists_eq_succ_of_ne_zero (n := fuel) (by omega)
      unfold trimStartLoop
      rw [hiterate]
      rfl
  | cons c m ih =>
      obtain ⟨fuel, rfl⟩ := Nat.exists_eq_succ_of_ne_zero (n := fuel) (by omega)
      have hsplit : l ++ c :: m = (l ++ [c]) ++ m := by simp
      have hvalue := string_codePointAt_eq l m c hsize
      have hnext := string_iterate_eq l m c hsize
      rw [List.length_cons] at hfuel
      rw [if_neg (List.cons_ne_nil c m)] at hiterate
      unfold trimStartLoop
      rw [hiterate]
      show (string_codePointAt _ (.num (ofNat (encoded l).length)) >>= fun codePoint =>
        if (listed ds).contains codePoint = true then
          trimStartLoop _ (listed ds) fuel (.num (ofNat (encoded l).length))
        else Except.ok (.num (ofNat (encoded l).length))) = _
      rw [hvalue]
      show (if (listed ds).contains (some c.val) = true then _ else _) = _
      rw [contains_listed]
      by_cases hc : isListed ds c = true
      · rw [if_pos hc, List.dropWhile_cons_of_pos hc, List.takeWhile_cons_of_pos hc]
        rw [hsplit] at hsize hnext ⊢
        rw [ih (l ++ [c]) hsize hnext (by omega), List.append_assoc, List.singleton_append]
      · rw [if_neg hc, List.dropWhile_cons_of_neg hc, List.takeWhile_cons_of_neg hc,
          if_neg (List.cons_ne_nil c m), List.append_nil]

section Middle

variable (l m : List CodePoint) (c : CodePoint)
  (hsize : (encoded (l ++ c :: m)).length < 2 ^ 32)
include hsize

/-- A byte in the middle of a sequence has no code point. -/
theorem string_codePointAt_middle {j : Nat} (hj : 0 < j) (hlt : j < (utf8 c.val).length) :
    string_codePointAt (encoded (l ++ c :: m)) (.num (ofNat ((encoded l).length + j)))
      = .ok none := by
  have hlen : (encoded (l ++ c :: m)).length
      = (encoded l).length + ((utf8 c.val).length + (encoded m).length) := by
    rw [encoded_append, encoded_cons, List.length_append, List.length_append]
  have hget : (encoded (l ++ c :: m)).getD ((encoded l).length + j) 0 &&& 0xc0 = 0x80 := by
    obtain ⟨b, bs, hword, -, -, htail⟩ := utf8_shape c.property
    obtain ⟨j, rfl⟩ := Nat.exists_eq_succ_of_ne_zero hj.ne'
    rw [encoded_append, encoded_cons, List.getD_append_right _ _ _ _ (by omega),
      Nat.add_sub_cancel_left, List.getD_append _ _ _ _ hlt]
    rw [hword, List.length_cons] at hlt
    rw [hword, List.getD_cons_succ, List.getD_eq_getElem _ _ (by omega)]
    exact htail _ (List.getElem_mem _)
  unfold string_codePointAt
  rw [validateIndex_ofNat (by omega) (by omega)]
  exact if_pos hget

/-- Bytes in the middle of a sequence are passed over. -/
theorem trimEndLoop_middle (codePoints : List (Option Nat)) {start j : Nat}
    (hstart : start ≤ (encoded l).length) (hlt : j < (utf8 c.val).length) :
    trimEndLoop (encoded (l ++ c :: m)) codePoints start ((encoded l).length + j + 1)
      = trimEndLoop (encoded (l ++ c :: m)) codePoints start ((encoded l).length + 1) := by
  induction j with
  | zero => rfl
  | succ j ih =>
      rw [← ih (by omega), trimEndLoop, if_pos (by omega),
        string_codePointAt_middle l m c hsize (Nat.succ_pos j) hlt]
      rfl

end Middle

/-- The second loop stops at the last code point that is not listed. -/
theorem trimEndLoop_eq (l m k : List CodePoint) (hsize : (encoded (l ++ m ++ k)).length < 2 ^ 32) :
    trimEndLoop (encoded (l ++ m ++ k)) (listed ds) (encoded l).length (encoded (l ++ m)).length
      = .ok (if m.rdropWhile (isListed ds) = [] then none
        else some (encoded (l ++ (m.rdropWhile (isListed ds)).dropLast)).length) := by
  induction m using List.reverseRecOn generalizing k with
  | nil =>
      rw [List.append_nil]
      cases hlen : (encoded l).length with
      | zero => rfl
      | succ n =>
          rw [trimEndLoop, if_neg (by omega)]
          rfl
  | append_singleton m c ih =>
      have hsplit : l ++ (m ++ [c]) ++ k = l ++ m ++ c :: k := by simp
      have hpos : 0 < (utf8 c.val).length := utf8Code.encode_length_pos c
      have hlen : (encoded (l ++ (m ++ [c]))).length
          = (encoded (l ++ m)).length + ((utf8 c.val).length - 1) + 1 := by
        rw [← List.append_assoc, encoded_append (l ++ m), List.length_append, encoded_cons,
          show encoded [] = [] from rfl, List.append_nil]
        omega
      have hle : (encoded l).length ≤ (encoded (l ++ m)).length := by
        rw [encoded_append, List.length_append]
        omega
      rw [hsplit] at hsize ⊢
      rw [hlen, trimEndLoop_middle (l ++ m) k c hsize (listed ds) hle (by omega), trimEndLoop,
        if_pos hle, string_codePointAt_eq (l ++ m) k c hsize, List.rdropWhile_concat]
      show (if some c.val ≠ none ∧ ¬ (listed ds).contains (some c.val) = true then
        Except.ok (some (encoded (l ++ m)).length) else _) = _
      rw [contains_listed]
      by_cases hc : isListed ds c = true
      · rw [if_neg (fun h => h.2 hc), if_pos hc]
        exact ih (c :: k) hsize
      · rw [if_pos ⟨by simp, hc⟩, if_neg hc, if_neg (by simp), List.dropLast_concat]

theorem subscriptRange_nil : subscriptRange [] ⟨ofNat 0, minusOne, true⟩ = .ok [] := by
  have hfrom : decode (ofNat 0) = .finite (0 : Nat) := decode_ofNat (by norm_num)
  have hto := decode_minusOne
  rw [Int.cast_neg, Int.cast_one] at hto
  unfold subscriptRange calculateRange
  rw [if_pos ⟨hfrom, hto⟩]
  rfl

/-- What stays of the part from an index on. -/
theorem trimmedEnd_eq (l m : List CodePoint) (hsize : (encoded (l ++ m)).length < 2 ^ 29)
    (hm : l = [] ∨ m ≠ []) (trimEnd : Bool) :
    trimmedEnd (encoded (l ++ m)) (listed ds) (ofNat (encoded l).length) trimEnd
      = .ok (encoded (if trimEnd then m.rdropWhile (isListed ds) else m)) := by
  have hlen : (encoded l).length ≤ (encoded (l ++ m)).length := by
    rw [encoded_append, List.length_append]
    omega
  have hstart : (decode (ofNat (encoded l).length)).toNat = (encoded l).length := by
    rw [decode_ofNat_int (by omega), toNat_finite, Int.toNat_natCast]
  have hloop := trimEndLoop_eq ds l m [] (by rw [List.append_nil]; omega)
  rw [List.append_nil] at hloop
  unfold trimmedEnd
  cases trimEnd with
  | true =>
      show (trimEndLoop _ _ (decode (ofNat (encoded l).length)).toNat _ >>= _) = _
      rw [hstart, hloop, if_pos rfl]
      rcases List.eq_nil_or_concat (m.rdropWhile (isListed ds)) with hnil | ⟨kept, c, hkept⟩
      · rw [hnil]
        rfl
      · obtain ⟨removed, hremoved⟩ := List.rdropWhile_prefix (isListed ds) m
        rw [List.concat_eq_append] at hkept
        rw [hkept] at hremoved ⊢
        have hpart := subscriptRange_through l kept removed c
          (by rwa [List.append_assoc, hremoved])
        rw [List.append_assoc l (kept ++ [c]), hremoved] at hpart
        rw [if_neg (by simp), List.dropLast_concat]
        exact hpart
  | false =>
      show subscriptRange _ ⟨ofNat (encoded l).length, minusOne, true⟩ = .ok (encoded m)
      by_cases hnil : m = []
      · rcases hm with rfl | hne
        · subst hnil
          exact subscriptRange_nil
        · exact absurd hnil hne
      · exact subscriptRange_rest l m hsize hnil

/-- **A string is trimmed** of the code points that are listed, at the ends that are asked for. -/
theorem string_trim_eq {heap : Heap} {chars : Value} {cs : List CodePoint}
    (hchars : asString heap chars = some (encoded ds)) (hsize : (encoded cs).length < 2 ^ 29)
    (hsize' : (encoded ds).length < 2 ^ 32) (trimStart trimEnd : Bool) :
    string_trim_ heap (encoded cs) chars trimStart trimEnd
      = .ok (encoded
          (let rest := if trimStart then cs.dropWhile (isListed ds) else cs
          if trimEnd then rest.rdropWhile (isListed ds) else rest)) := by
  have hlen := utf8Code.length_le_text cs
  unfold string_trim_
  rw [hchars]
  show (iterateCodePoints (encoded ds) >>= _) = _
  rw [(iterate_encoded hsize').1]
  cases trimStart with
  | false => exact trimmedEnd_eq ds [] cs hsize (Or.inl rfl) trimEnd
  | true =>
      have hmax : (encoded cs).length < 2 ^ 32 := by omega
      have hstart := trimStartLoop_eq ds [] cs hmax (string_iterate_null hmax)
        (Nat.lt_succ_of_le hlen)
      rw [List.nil_append, List.nil_append] at hstart
      show (trimStartLoop (encoded cs) (listed ds) ((encoded cs).length + 1) .null >>= _) = _
      rw [hstart, if_pos rfl]
      by_cases hnil : cs.dropWhile (isListed ds) = []
      · rw [if_pos hnil, hnil]
        cases trimEnd <;> rfl
      · have hsplit := List.takeWhile_append_dropWhile (p := isListed ds) (l := cs)
        have hrest := trimmedEnd_eq ds (cs.takeWhile (isListed ds)) (cs.dropWhile (isListed ds))
          (by rwa [hsplit]) (Or.inr hnil) trimEnd
        rw [if_neg hnil]
        rw [hsplit] at hrest
        exact hrest

end Trim

theorem string_trim_tabs : string_trim_ someStrings [0x09, 0xe2, 0x82, 0xac, 0x09] (.obj 1) true true
    = .ok [0xe2, 0x82, 0xac] :=
  @string_trim_eq [tab] someStrings (.obj 1) [tab, euro, tab] rfl (by decide) (by decide) true true

end WrenVM

end Wrenegade
