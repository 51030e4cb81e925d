/-
Ranges of strings.

The copy of a range allocates what the first bytes of the sequences promise, and writes what
the sequences decode to.  The two agree, so that the copy is defined, if and only if at each
index of the range a sequence in its shortest form begins, or none does.  A string that
encodes code points is of this kind everywhere.
-/
import Wrenegade.Proofs.ObjString

namespace Wrenegade

namespace WrenVM

open Double Cells

/-! ### One code point -/

/-- What is promised at an index. -/
def numBytes (s : ByteString) (i : Nat) : Nat := wrenUtf8DecodeNumBytes (s.getD i 0)

/-- What is written for an index. -/
def piece (s : ByteString) (i : Nat) : ByteString :=
  match wrenUtf8Decode (s.drop i) with
  | none => []
  | some v => utf8 v

/-- What begins at an index can be written. -/
def Writable (s : ByteString) (i : Nat) : Prop :=
  ∀ v, wrenUtf8Decode (s.drop i) = some v → v ≤ 0x10ffff

/-- A sequence in its shortest form begins at the index, or none does. -/
def CleanAt (s : ByteString) (i : Nat) : Prop :=
  s.getD i 0 &&& 0xc0 = 0x80 ∨ ∃ v ≤ 0x10ffff, ∃ rest, s.drop i = utf8 v ++ rest

theorem drop_eq_getD_cons {s : ByteString} {i : Nat} (hi : i < s.length) :
    s.drop i = s.getD i 0 :: s.drop (i + 1) := by
  rw [List.drop_eq_getElem_cons hi, List.getD_eq_getElem _ _ hi]

theorem numBytes_eq_zero {b : Byte} (h : wrenUtf8DecodeNumBytes b = 0) : b &&& 0xc0 = 0x80 := by
  unfold wrenUtf8DecodeNumBytes at h
  split at h
  · assumption
  · split_ifs at h

theorem piece_of_tail {s : ByteString} {i : Nat} (hi : i < s.length)
    (h : s.getD i 0 &&& 0xc0 = 0x80) :
    Writable s i ∧ piece s i = [] ∧ numBytes s i = 0 := by
  obtain ⟨n, -, hn⟩ := tailByte_of_mask h
  obtain ⟨hdecode, hnum⟩ := decode_tailByte n (s.drop (i + 1))
  rw [← hn, ← drop_eq_getD_cons hi] at hdecode
  rw [← hn] at hnum
  refine ⟨?_, ?_, hnum⟩
  · intro v hv
    rw [hdecode] at hv
    cases hv
  · unfold piece
    rw [hdecode]

theorem piece_of_utf8 {s rest : ByteString} {i v : Nat} (hv : v ≤ 0x10ffff)
    (h : s.drop i = utf8 v ++ rest) :
    Writable s i ∧ piece s i = utf8 v ∧ numBytes s i = (utf8 v).length := by
  have hdecode := decode_utf8 hv rest
  obtain ⟨b, bs, hword, -, hnum, -⟩ := utf8_shape hv
  rw [← h] at hdecode
  refine ⟨?_, ?_, ?_⟩
  · intro w hw
    rw [hdecode, Option.some.injEq] at hw
    omega
  · unfold piece
    rw [hdecode]
  · have hget : s.getD i 0 = b := by
      have hhead := congrArg (fun l => l.getD 0 0) h
      rw [hword] at hhead
      simpa [List.getD_eq_getElem?_getD] using hhead
    unfold numBytes
    rw [hget, hnum, hword, List.length_cons]

/-- No more is written than is promised. -/
theorem length_piece_le {s : ByteString} {i : Nat} (hi : i < s.length) (h : Writable s i) :
    (piece s i).length ≤ numBytes s i := by
  unfold piece
  cases hdecode : wrenUtf8Decode (s.drop i) with
  | none => exact Nat.zero_le _
  | some v =>
      have hv := h v hdecode
      rw [drop_eq_getD_cons hi] at hdecode
      exact (decode_eq_some hv hdecode).1

/-- **As much is written as is promised** if and only if the index is clean. -/
theorem cleanAt_iff {s : ByteString} {i : Nat} (hi : i < s.length) :
    CleanAt s i ↔ Writable s i ∧ (piece s i).length = numBytes s i := by
  constructor
  · rintro (htail | ⟨v, hv, rest, hdrop⟩)
    · obtain ⟨hwritable, hpiece, hnum⟩ := piece_of_tail hi htail
      exact ⟨hwritable, by rw [hpiece, hnum]; rfl⟩
    · obtain ⟨hwritable, hpiece, hnum⟩ := piece_of_utf8 hv hdrop
      exact ⟨hwritable, by rw [hpiece, hnum]⟩
  · rintro ⟨hwritable, hlen⟩
    unfold piece at hlen
    cases hdecode : wrenUtf8Decode (s.drop i) with
    | none =>
        rw [hdecode] at hlen
        exact Or.inl (numBytes_eq_zero hlen.symm)
    | some v =>
        have hv := hwritable v hdecode
        rw [hdecode] at hlen
        rw [drop_eq_getD_cons hi] at hdecode
        obtain ⟨rest, hrest⟩ := (decode_eq_some hv hdecode).2 hlen
        exact Or.inr ⟨v, hv, rest, by rw [drop_eq_getD_cons hi, hrest]⟩

/-! ### Blocks with a gap -/

theorem writeBytes_gap (bytes l : List Byte) (room : Nat) :
    writeBytes bytes l.length (l.map some ++ List.replicate (bytes.length + room) none)
      = .ok ((l ++ bytes).map some ++ List.replicate room none) := by
  induction bytes generalizing l with
  | nil => rw [List.length_nil, Nat.zero_add, List.append_nil]; rfl
  | cons b bytes ih =>
      have hsplit : l.map some ++ List.replicate ((b :: bytes).length + room) none
          = l.map some ++ none :: List.replicate (bytes.length + room) none := by
        rw [List.length_cons, show bytes.length + 1 + room = bytes.length + room + 1 by omega,
          List.replicate_succ]
      have hrest := ih (l ++ [b])
      rw [List.length_append, List.length_singleton, List.map_append, List.append_assoc] at hrest
      unfold writeBytes
      rw [hsplit, put_append]
      show writeBytes bytes (l.length + 1) _ = _
      rw [List.append_assoc, List.singleton_append] at hrest
      exact hrest

theorem finishString_gap (l : List Byte) (room : Nat) :
    finishString (l.map some ++ List.replicate room none)
      = if room = 0 then .ok l else .error .undefined := by
  by_cases hroom : room = 0
  · subst hroom
    rw [if_pos rfl]
    exact finishString_eq ⟨_, rfl⟩ (by simp)
  · obtain ⟨room, rfl⟩ := Nat.exists_eq_succ_of_ne_zero hroom
    have hnone : (l.map some ++ List.replicate (room + 1) none).mapM id = (none : Option (List Byte)) := by
      induction l with
      | nil => rfl
      | cons b l ih =>
          rw [List.map_cons, List.cons_append, List.mapM_cons, ih]
          rfl
    rw [if_neg hroom]
    unfold finishString
    rw [hnone]
    rfl

/-! ### All code points -/

theorem copyCodePoint_eq {s : ByteString} {i : Nat} (hi : i < s.length) (h : Writable s i)
    (l : List Byte) (room : Nat) :
    copyCodePoint s (l.length, l.map some ++ List.replicate (numBytes s i + room) none) i
      = .ok ((l ++ piece s i).length,
          (l ++ piece s i).map some ++ List.replicate (numBytes s i - (piece s i).length + room) none) := by
  have hle := length_piece_le hi h
  unfold copyCodePoint
  unfold piece at hle ⊢
  cases hdecode : wrenUtf8Decode (s.drop i) with
  | none => simp; rfl
  | some v =>
      rw [hdecode] at hle
      simp only at hle ⊢
      have hsplit : numBytes s i + room
          = (utf8 v).length + (numBytes s i - (utf8 v).length + room) := by omega
      rw [wrenUtf8Encode_eq (h v hdecode)]
      show (writeBytes (utf8 v) l.length _ >>= fun block =>
        Except.ok (l.length + (utf8 v).length, block)) = _
      rw [hsplit, writeBytes_gap, List.length_append]
      rfl

theorem copyCodePoint_error {s : ByteString} {i : Nat} (h : ¬ Writable s i)
    (result : Nat × Cells Byte) : copyCodePoint s result i = .error .undefined := by
  obtain ⟨v, hdecode, hv⟩ : ∃ v, wrenUtf8Decode (s.drop i) = some v ∧ ¬ v ≤ 0x10ffff := by
    by_contra hall
    exact h fun v hv => by_contra fun hlt => hall ⟨v, hv, hlt⟩
  have hencode : wrenUtf8Encode v = .error .undefined := by
    unfold wrenUtf8Encode
    rw [if_neg (by omega), if_neg (by omega), if_neg (by omega), if_neg (by omega)]
    rfl
  unfold copyCodePoint
  rw [hdecode]
  simp only [hencode]
  rfl

/-- **What is copied**, and how much of the block stays undefined. -/
theorem copy_eq {s : ByteString} {indices : List Nat} (hi : ∀ i ∈ indices, i < s.length)
    (l : List Byte) (room : Nat) (result : Nat × Cells Byte) :
    indices.foldlM (copyCodePoint s) (l.length, l.map some ++
        List.replicate ((indices.map (numBytes s)).sum + room) none) = .ok result ↔
      (∀ i ∈ indices, Writable s i) ∧ result = ((l ++ indices.flatMap (piece s)).length,
        (l ++ indices.flatMap (piece s)).map some ++ List.replicate
          ((indices.map fun i => numBytes s i - (piece s i).length).sum + room) none) := by
  induction indices generalizing l room with
  | nil => simp [pure, Except.pure, eq_comm]
  | cons i indices ih =>
      rw [List.forall_mem_cons] at hi
      obtain ⟨hi, hrest⟩ := hi
      rw [List.foldlM_cons, List.forall_mem_cons]
      by_cases h : Writable s i
      · have hstep := ih hrest (l ++ piece s i) (numBytes s i - (piece s i).length + room)
        have hbefore : ((i :: indices).map (numBytes s)).sum + room
            = numBytes s i + ((indices.map (numBytes s)).sum + room) := by
          rw [List.map_cons, List.sum_cons, Nat.add_assoc]
        have hafter : ((i :: indices).map fun i => numBytes s i - (piece s i).length).sum + room
            = (indices.map fun i => numBytes s i - (piece s i).length).sum
              + (numBytes s i - (piece s i).length + room) := by
          rw [List.map_cons, List.sum_cons]
          omega
        rw [hbefore, copyCodePoint_eq hi h, hafter, List.flatMap_cons, ← List.append_assoc,
          Nat.add_left_comm]
        show (indices.foldlM (copyCodePoint s) _ = _) ↔ _
        rw [hstep]
        simp [h]
      · rw [copyCodePoint_error h]
        constructor
        · intro hok
          cases hok
        · intro hok
          exact absurd hok.1.1 h

theorem promised_eq {s : ByteString} {indices : List Nat} (hi : ∀ i ∈ indices, i < s.length) :
    indices.mapM (fun index => wrenUtf8DecodeNumBytes <$> access (s[index]?))
      = .ok (indices.map (numBytes s)) := by
  induction indices with
  | nil => rfl
  | cons i indices ih =>
      rw [List.forall_mem_cons] at hi
      have hget : access (s[i]?) = .ok (s.getD i 0) := by
        rw [List.getElem?_eq_getElem hi.1, List.getD_eq_getElem _ _ hi.1]
        rfl
      rw [List.mapM_cons, hget, ih hi.2]
      rfl

theorem promised_le (s : ByteString) (indices : List Nat) :
    (indices.map (numBytes s)).sum ≤ 4 * indices.length := by
  induction indices with
  | nil => exact Nat.le_refl 0
  | cons i indices ih =>
      have hle : numBytes s i ≤ 4 := by
        unfold numBytes wrenUtf8DecodeNumBytes
        split_ifs <;> omega
      rw [List.map_cons, List.sum_cons, List.length_cons]
      omega

theorem gap_eq_zero {s : ByteString} {indices : List Nat} (hi : ∀ i ∈ indices, i < s.length)
    (h : ∀ i ∈ indices, Writable s i) :
    (indices.map fun i => numBytes s i - (piece s i).length).sum = 0 ↔
      ∀ i ∈ indices, CleanAt s i := by
  induction indices with
  | nil => simp
  | cons i indices ih =>
      rw [List.forall_mem_cons] at hi h
      have hle := length_piece_le hi.1 h.1
      rw [List.map_cons, List.sum_cons, List.forall_mem_cons, cleanAt_iff hi.1, Nat.add_eq_zero_iff,
        ih hi.2 h.2]
      constructor
      · intro hzero
        exact ⟨⟨h.1, by omega⟩, hzero.2⟩
      · intro hclean
        exact ⟨by omega, hclean.2⟩

/-- **A copy is defined** if and only if all of its indices are clean. -/
theorem copyCodePoints_eq {s : ByteString} {indices : List Nat} (hi : ∀ i ∈ indices, i < s.length)
    (hlen : indices.length < 2 ^ 29) {r : ByteString} :
    copyCodePoints s indices = .ok r ↔
      (∀ i ∈ indices, CleanAt s i) ∧ r = indices.flatMap (piece s) := by
  have hpromised := promised_le s indices
  have hcopy := fun result => copy_eq hi [] 0 result
  simp only [List.map_nil, List.nil_append, List.length_nil, Nat.add_zero] at hcopy
  have hunfold : copyCodePoints s indices = (indices.foldlM (copyCodePoint s)
      (0, List.replicate (indices.map (numBytes s)).sum none) >>= fun result =>
        finishString result.2) := by
    unfold copyCodePoints
    rw [promised_eq hi]
    exact if_neg (by omega)
  rw [hunfold]
  by_cases hwritable : ∀ i ∈ indices, Writable s i
  · rw [(hcopy _).mpr ⟨hwritable, rfl⟩]
    show finishString _ = _ ↔ _
    rw [finishString_gap, ← gap_eq_zero hi hwritable]
    by_cases hgap : (indices.map fun i => numBytes s i - (piece s i).length).sum = 0
    · simp [hgap, eq_comm]
    · simp [hgap]
  · constructor
    · intro hok
      cases hfold : indices.foldlM (copyCodePoint s)
          (0, List.replicate (indices.map (numBytes s)).sum none) with
      | error failure =>
          rw [hfold] at hok
          cases hok
      | ok result => exact absurd ((hcopy result).mp hfold).1 hwritable
    · intro hclean
      exact absurd (fun i hmem => ((cleanAt_iff (hi i hmem)).mp (hclean.1 i hmem)).1) hwritable

/-- **The copy of a range is defined** if and only if all of its indices are clean. -/
theorem wrenNewStringFromRange_eq {s : ByteString} {first last : Nat} (hfirst : first < s.length)
    (hlast : last < s.length) (hsize : s.length < 2 ^ 29) {r : ByteString} :
    wrenNewStringFromRange s (Slice.between first last) = .ok r ↔
      (∀ i ∈ walk (List.range s.length) first last, CleanAt s i) ∧
        r = (walk (List.range s.length) first last).flatMap (piece s) := by
  have hlen := length_walk (l := List.range s.length) (by simpa using hfirst)
    (by simpa using hlast)
  rw [List.length_range] at hlen
  unfold wrenNewStringFromRange
  rw [Slice.indices_between hfirst hlast (by omega)]
  exact copyCodePoints_eq (fun i hi => List.mem_range.mp (mem_walk hi)) (by omega)

/-! ### Subscripts -/

/-- The indices a range stands for. -/
def rangeIndices (count : Nat) (range : ObjRange) : Except Text (List Nat) :=
  (span count range).map fun ends =>
    ends.elim [] fun ends => walk (List.range count) ends.1 ends.2

theorem lt_of_mem_rangeIndices {count i : Nat} {range : ObjRange} {indices : List Nat}
    (h : rangeIndices count range = .ok indices) (hi : i ∈ indices) : i < count := by
  unfold rangeIndices at h
  cases hspan : span count range with
  | error message =>
      rw [hspan] at h
      cases h
  | ok ends =>
      rw [hspan] at h
      cases h
      cases ends with
      | none => cases hi
      | some ends => exact List.mem_range.mp (mem_walk hi)

theorem wrenNewStringFromRange_empty (s : ByteString) (start : Nat) :
    wrenNewStringFromRange s ⟨start, 0, 0⟩ = .ok [] := rfl

/-- A range that is no range of the string is an error. -/
theorem subscriptRange_error {s : ByteString} (hsize : s.length ≤ 2 ^ 31) {range : ObjRange}
    {message : Text} (h : rangeIndices s.length range = .error message) :
    subscriptRange s range = .error (.error message) := by
  have hsliced := calculateRange_eq hsize range
  unfold rangeIndices at h
  unfold subscriptRange
  cases hspan : span s.length range with
  | error text =>
      rw [hspan] at h hsliced
      cases h
      rw [show calculateRange range s.length = _ from hsliced]
      rfl
  | ok ends =>
      rw [hspan] at h
      cases h

/-- **A range of a string is defined** if and only if it is clean everywhere. -/
theorem subscriptRange_ok_iff {s : ByteString} (hsize : s.length < 2 ^ 29) {range : ObjRange}
    {indices : List Nat} (h : rangeIndices s.length range = .ok indices) {r : ByteString} :
    subscriptRange s range = .ok r ↔
      (∀ i ∈ indices, CleanAt s i) ∧ r = indices.flatMap (piece s) := by
  have hsliced := calculateRange_eq (show s.length ≤ 2 ^ 31 by omega) range
  unfold rangeIndices at h
  unfold subscriptRange
  cases hspan : span s.length range with
  | error text =>
      rw [hspan] at h
      cases h
  | ok ends =>
      rw [hspan] at h hsliced
      cases h
      cases ends with
      | none =>
          obtain ⟨start, hstart⟩ := hsliced
          rw [hstart]
          show wrenNewStringFromRange s ⟨start, 0, 0⟩ = _ ↔ _
          rw [wrenNewStringFromRange_empty]
          simp [eq_comm]
      | some ends =>
          obtain ⟨hfirst, hlast, hslice⟩ := hsliced
          rw [hslice]
          exact wrenNewStringFromRange_eq hfirst hlast hsize

theorem string_subscript_range {heap : Heap} {address : Nat} {range : ObjRange}
    (hrange : heap address = .range range) (s : ByteString) :
    string_subscript heap s (.obj address) = subscriptRange s range := by
  unfold string_subscript
  simp only [hrange]

/-- **Of any bytes**, a range that there is has a copy if and only if a sequence in its shortest
form begins at each index of it, or none does; otherwise bytes of the copy are never written. -/
theorem string_subscript_eq {s : ByteString} (hsize : s.length < 2 ^ 29) {heap : Heap}
    {address : Nat} {range : ObjRange} (hrange : heap address = .range range) :
    (∀ message, rangeIndices s.length range = .error message →
      string_subscript heap s (.obj address) = .error (.error message)) ∧
    (∀ indices, rangeIndices s.length range = .ok indices → ∀ r,
      (string_subscript heap s (.obj address) = .ok r ↔
        (∀ i ∈ indices, CleanAt s i) ∧ r = indices.flatMap (piece s))) := by
  rw [string_subscript_range hrange]
  exact ⟨fun message h => subscriptRange_error (by omega) h,
    fun indices h r => subscriptRange_ok_iff hsize h⟩

/-- A range over the first two indices. -/
def firstTwo : Heap := fun _ => .range ⟨ofNat 0, ofNat 1, true⟩

/-- A byte that begins no sequence is promised a place and not written. -/
theorem string_subscript_stray :
    ¬ ∃ r, string_subscript firstTwo [0x61, 0xff, 0x61] (.obj 0) = .ok r := by
  rintro ⟨r, hr⟩
  have hindices : rangeIndices 3 ⟨ofNat 0, ofNat 1, true⟩ = .ok [0, 1] := by decide +kernel
  have heq := @string_subscript_eq [0x61, 0xff, 0x61] (by decide) firstTwo 0 _ rfl
  have hitself := ((heq.2 [0, 1] hindices r).mp hr).1 1 (by decide)
  rw [cleanAt_iff (by decide)] at hitself
  exact absurd hitself.2 (by decide)

/-! ### Well-formed strings -/

/-- The code point that begins at an index, if one does. -/
def startAt : List CodePoint → Nat → Option CodePoint
  | [], _ => none
  | c :: cs, i =>
      if i = 0 then some c
      else if i < (utf8 c.val).length then none
      else startAt cs (i - (utf8 c.val).length)

/-- **Every index of a well-formed string is clean**, and what is copied is what begins there. -/
theorem cleanAt_encoded {cs : List CodePoint} {i : Nat} (hi : i < (encoded cs).length) :
    CleanAt (encoded cs) i ∧ piece (encoded cs) i = encoded (startAt cs i).toList := by
  induction cs generalizing i with
  | nil => simp at hi
  | cons c cs ih =>
      obtain ⟨b, bs, hword, hlead, hnum, htail⟩ := utf8_shape c.property
      unfold startAt
      by_cases hzero : i = 0
      · subst hzero
        obtain ⟨-, hpiece, -⟩ := @piece_of_utf8 (encoded (c :: cs)) (encoded cs) 0 _ c.property rfl
        rw [if_pos rfl, hpiece]
        refine ⟨Or.inr ⟨c.val, c.property, encoded cs, rfl⟩, ?_⟩
        rw [Option.toList_some, encoded_cons]
        exact (List.append_nil _).symm
      rw [if_neg hzero]
      by_cases hlt : i < (utf8 c.val).length
      · have hget : (encoded (c :: cs)).getD i 0 &&& 0xc0 = 0x80 := by
          obtain ⟨j, rfl⟩ := Nat.exists_eq_succ_of_ne_zero hzero
          rw [encoded_cons, List.getD_append _ _ _ _ hlt]
          rw [hword, List.length_cons] at hlt
          rw [hword, List.getD_cons_succ, List.getD_eq_getElem _ _ (by omega)]
          exact htail _ (List.getElem_mem _)
        obtain ⟨-, hpiece, -⟩ := piece_of_tail hi hget
        rw [if_pos hlt, hpiece]
        exact ⟨Or.inl hget, rfl⟩
      · obtain ⟨j, rfl⟩ := Nat.exists_eq_add_of_le (Nat.le_of_not_lt hlt)
        have hdrop : (encoded (c :: cs)).drop ((utf8 c.val).length + j) = (encoded cs).drop j := by
          rw [encoded_cons, List.drop_append, List.drop_of_length_le (by omega), List.nil_append,
            Nat.add_sub_cancel_left]
        have hget : (encoded (c :: cs)).getD ((utf8 c.val).length + j) 0
            = (encoded cs).getD j 0 := by
          rw [encoded_cons, List.getD_append_right _ _ _ _ (by omega), Nat.add_sub_cancel_left]
        have hlen : (encoded (c :: cs)).length = (utf8 c.val).length + (encoded cs).length := by
          rw [encoded_cons, List.length_append]
        obtain ⟨hclean, hpiece⟩ := @ih j (by omega)
        rw [if_neg hlt, Nat.add_sub_cancel_left, ← hpiece]
        refine ⟨?_, ?_⟩
        · unfold CleanAt
          rw [hget, hdrop]
          exact hclean
        · unfold piece
          rw [hdrop]

theorem flatMap_piece_encoded {cs : List CodePoint} {indices : List Nat}
    (hi : ∀ i ∈ indices, i < (encoded cs).length) :
    indices.flatMap (piece (encoded cs)) = encoded (indices.filterMap (startAt cs)) := by
  induction indices with
  | nil => rfl
  | cons i indices ih =>
      rw [List.forall_mem_cons] at hi
      rw [List.flatMap_cons, (cleanAt_encoded hi.1).2, ih hi.2, List.filterMap_cons,
        ← encoded_append]
      cases startAt cs i <;> rfl

/-- **A range of a well-formed string** is the string of the code points that begin in it, and
one that is no range is an error. -/
theorem subscriptRange_encoded {cs : List CodePoint} (hsize : (encoded cs).length < 2 ^ 29)
    (range : ObjRange) : subscriptRange (encoded cs) range
      = ((rangeIndices (encoded cs).length range).map fun indices =>
          encoded (indices.filterMap (startAt cs))).mapError .error := by
  cases h : rangeIndices (encoded cs).length range with
  | error message => exact subscriptRange_error (by omega) h
  | ok indices =>
      have hi := fun i => @lt_of_mem_rangeIndices _ i _ _ h
      exact (subscriptRange_ok_iff hsize h).mpr
        ⟨fun i hmem => (cleanAt_encoded (hi i hmem)).1, (flatMap_piece_encoded hi).symm⟩

theorem startAt_append (l m : List CodePoint) (i : Nat) :
    startAt (l ++ m) ((encoded l).length + i) = startAt m i := by
  induction l with
  | nil => rw [List.nil_append, show (encoded []).length + i = i from Nat.zero_add i]
  | cons c l ih =>
      have hpos : 0 < (utf8 c.val).length := utf8Code.encode_length_pos c
      rw [encoded_cons, List.length_append, List.cons_append, startAt, if_neg (by omega),
        if_neg (by omega), Nat.add_assoc, Nat.add_sub_cancel_left, ih]

theorem filterMap_startAt_cons (c : CodePoint) (m : List CodePoint) :
    (List.range (utf8 c.val).length).filterMap (startAt (c :: m)) = [c] := by
  obtain ⟨b, bs, hword, -⟩ := utf8_shape c.property
  have hrest : ((List.range bs.length).map Nat.succ).filterMap (startAt (c :: m)) = [] := by
    rw [List.filterMap_eq_nil_iff]
    intro i hi
    obtain ⟨j, hj, rfl⟩ := List.mem_map.mp hi
    rw [List.mem_range] at hj
    rw [startAt, if_neg (Nat.succ_ne_zero j), if_pos (by rw [hword, List.length_cons]; omega)]
  rw [hword, List.length_cons, List.range_succ_eq_map, List.filterMap_cons, hrest]
  rfl

/-- The code points that begin in some part of a string are those of the part. -/
theorem filterMap_startAt (l m k : List CodePoint) :
    (List.range' (encoded l).length (encoded m).length).filterMap (startAt (l ++ m ++ k)) = m := by
  have hzero : ∀ m : List CodePoint,
      (List.range (encoded m).length).filterMap (startAt (m ++ k)) = m := by
    intro m
    induction m with
    | nil => rfl
    | cons c m ih =>
        have hshift : startAt (c :: m ++ k) ∘ (fun i => (utf8 c.val).length + i)
            = startAt (m ++ k) := by
          funext i
          have happend := startAt_append [c] (m ++ k) i
          rwa [encoded_cons, show encoded [] = [] from rfl, List.append_nil] at happend
        rw [encoded_cons, List.length_append, List.range_add, List.filterMap_append,
          List.filterMap_map, hshift, ih, List.cons_append, filterMap_startAt_cons]
        rfl
  have hshift : startAt (l ++ m ++ k) ∘ (fun i => (encoded l).length + i) = startAt (m ++ k) := by
    funext i
    rw [Function.comp_apply, List.append_assoc, startAt_append]
  rw [List.range'_eq_map_range, List.filterMap_map, hshift, hzero]

/-- **Of a well-formed string**, a range is the string of the code points that begin in it, in
its direction; and where the range is cut along code points, it is the string of these. -/
theorem string_subscript_encoded {cs : List CodePoint} (hsize : (encoded cs).length < 2 ^ 29)
    {heap : Heap} {address : Nat} {range : ObjRange} (hrange : heap address = .range range) :
    string_subscript heap (encoded cs) (.obj address)
      = ((rangeIndices (encoded cs).length range).map fun indices =>
          encoded (indices.filterMap (startAt cs))).mapError .error ∧
    ∀ l m k, cs = l ++ m ++ k → (List.range' (encoded l).length (encoded m).length).filterMap
      (startAt cs) = m := by
  rw [string_subscript_range hrange, subscriptRange_encoded hsize]
  refine ⟨rfl, fun l m k hcs => ?_⟩
  rw [hcs, filterMap_startAt]

/-- Backwards over the first two bytes of "é" and "a". -/
theorem string_subscript_backwards : string_subscript (fun _ => .range ⟨ofNat 2, ofNat 0, true⟩)
    [0xc3, 0xa9, 0x61] (.obj 0) = .ok [0x61, 0xc3, 0xa9] := by
  have heq := (@string_subscript_encoded [⟨0xe9, by decide⟩, ⟨0x61, by decide⟩] (by decide)
    (fun _ => .range ⟨ofNat 2, ofNat 0, true⟩) 0 _ rfl).1
  have hindices : rangeIndices 3 ⟨ofNat 2, ofNat 0, true⟩ = .ok [2, 1, 0] := by decide +kernel
  rw [show (encoded [⟨0xe9, by decide⟩, ⟨0x61, by decide⟩]).length = 3 from rfl, hindices] at heq
  exact heq

/-! ### Ranges that are written out -/

theorem walk_range {n first last : Nat} (hle : first ≤ last) (hlast : last < n) :
    walk (List.range n) first last = List.range' first (last + 1 - first) := by
  unfold walk
  rw [if_pos hle, List.range_eq_range', List.drop_range',
    List.take_range'_of_length_ge (by omega), Nat.zero_add, Nat.mul_one]

theorem index_ofNat {count i : Nat} (hi : i < count) (hcount : count ≤ 2 ^ 53) (argName : Text) :
    index count (decode (ofNat i)) argName = .ok i := by
  have hvalid := validateIndex_ofNat hi hcount argName
  rw [show validateIndex (.num (ofNat i)) count argName = validateIndexValue count _ argName from rfl,
    validateIndexValue_eq] at hvalid
  cases h : index count (decode (ofNat i)) argName with
  | error message =>
      rw [h] at hvalid
      cases hvalid
  | ok j =>
      rw [h] at hvalid
      cases hvalid
      rfl

theorem rangeEnd_finite {count first : Nat} {range : ObjRange} {z : ℤ}
    (hto : decode range.to_ = .finite z) : rangeEnd count first range =
      if range.isInclusive then some <$> inBounds count (some (resolve count z)) "Range end"
      else if resolve count z = first then .ok none
      else some <$> inBounds count (some (if resolve count z < first then resolve count z + 1
        else resolve count z - 1)) "Range end" := by
  unfold rangeEnd
  rw [hto, whole_finite]
  simp only [Bind.bind, Except.bind, Option.map_some, Option.some.injEq]
  rfl

theorem resolve_natCast (count n : Nat) : resolve count n = n := if_neg (by omega)

theorem decode_ofNat_int {n : Nat} (hn : n < 2 ^ 53) :
    decode (ofNat n) = .finite ((n : ℤ) : ℚ) := by
  rw [decode_ofNat hn, Int.cast_natCast]

theorem decode_minusOne : decode minusOne = .finite ((-1 : ℤ) : ℚ) := by decide +kernel

section Ranges

variable {count first last : Nat} (hcount : count ≤ 2 ^ 53)
include hcount

theorem rangeIndices_of_rangeEnd (hfirst : first < count) {range : ObjRange} {end_ : Option Nat}
    (hfrom : range.from_ = ofNat first) (hend : rangeEnd count first range = .ok end_) :
    rangeIndices count range
      = .ok (end_.elim [] fun end_ => walk (List.range count) first end_) := by
  have hne : ¬ (decode range.from_ = .finite count ∧
      decode range.to_ = .finite (if range.isInclusive then -1 else count)) := by
    intro hedge
    have hfinite := hedge.1
    rw [hfrom, decode_ofNat (by omega), Datum.finite.injEq, Nat.cast_inj] at hfinite
    omega
  unfold rangeIndices span
  rw [if_neg hne, hfrom, index_ofNat (by omega) hcount]
  show Except.map _ (rangeEnd count first range >>= fun last =>
    Except.ok (last.map fun last => (first, last))) = _
  rw [hend]
  cases end_ <;> rfl

theorem rangeIndices_inclusive (hle : first ≤ last) (hlast : last < count) :
    rangeIndices count ⟨ofNat first, ofNat last, true⟩
      = .ok (List.range' first (last + 1 - first)) := by
  have hend : rangeEnd count first ⟨ofNat first, ofNat last, true⟩ = .ok (some last) := by
    rw [rangeEnd_finite (decode_ofNat_int (by omega)), resolve_natCast, if_pos rfl, inBounds_some,
      if_pos (by omega)]
    rfl
  rw [rangeIndices_of_rangeEnd hcount (show first < count by omega) rfl hend, ← walk_range hle hlast]
  rfl

theorem rangeIndices_exclusive (hle : first ≤ last) (hlast : last < count) :
    rangeIndices count ⟨ofNat first, ofNat last, false⟩
      = .ok (List.range' first (last - first)) := by
  by_cases heq : first = last
  · subst heq
    have hend : rangeEnd count first ⟨ofNat first, ofNat first, false⟩ = .ok none := by
      rw [rangeEnd_finite (decode_ofNat_int (by omega)), resolve_natCast, if_neg (by simp),
        if_pos rfl]
    rw [rangeIndices_of_rangeEnd hcount (show first < count by omega) rfl hend, Nat.sub_self]
    rfl
  · have hend : rangeEnd count first ⟨ofNat first, ofNat last, false⟩ = .ok (some (last - 1)) := by
      rw [rangeEnd_finite (decode_ofNat_int (by omega)), resolve_natCast, if_neg (by simp),
        if_neg (by omega), if_neg (by omega), inBounds_some, if_pos (by omega),
        show ((last : ℤ) - 1).toNat = last - 1 by omega]
      rfl
    rw [rangeIndices_of_rangeEnd hcount (show first < count by omega) rfl hend]
    show Except.ok (walk (List.range count) first (last - 1)) = _
    rw [walk_range (by omega) (by omega), show last - 1 + 1 - first = last - first by omega]

theorem rangeIndices_rest (hfirst : first < count) :
    rangeIndices count ⟨ofNat first, minusOne, true⟩
      = .ok (List.range' first (count - first)) := by
  have hend : rangeEnd count first ⟨ofNat first, minusOne, true⟩ = .ok (some (count - 1)) := by
    rw [rangeEnd_finite decode_minusOne, if_pos rfl, inBounds_some, resolve, if_pos (by omega),
      if_pos (by omega), show ((count : ℤ) + -1).toNat = count - 1 by omega]
    rfl
  rw [rangeIndices_of_rangeEnd hcount hfirst rfl hend]
  show Except.ok (walk (List.range count) first (count - 1)) = _
  rw [walk_range (by omega) (by omega), show count - 1 + 1 - first = count - first by omega]

end Ranges

section Parts

variable (l m k : List CodePoint)

/-- **The part between two indices** where code points begin. -/
theorem subscriptRange_part (hsize : (encoded (l ++ m ++ k)).length < 2 ^ 29) (hk : k ≠ []) :
    subscriptRange (encoded (l ++ m ++ k))
      ⟨ofNat (encoded l).length, ofNat (encoded (l ++ m)).length, false⟩ = .ok (encoded m) := by
  obtain ⟨c, k, rfl⟩ := List.exists_cons_of_ne_nil hk
  have hlt := length_encoded_lt (l ++ m) k c
  have hle : (encoded l).length ≤ (encoded (l ++ m)).length := by
    rw [encoded_append, List.length_append]
    omega
  have hlen : (encoded (l ++ m)).length - (encoded l).length = (encoded m).length := by
    rw [encoded_append, List.length_append, Nat.add_sub_cancel_left]
  rw [subscriptRange_encoded hsize, rangeIndices_exclusive (by omega) hle hlt, hlen]
  show Except.ok (encoded ((List.range' _ _).filterMap (startAt (l ++ m ++ c :: k)))) = _
  rw [filterMap_startAt]

/-- **The part from an index on** where a code point begins. -/
theorem subscriptRange_rest (hsize : (encoded (l ++ m)).length < 2 ^ 29) (hm : m ≠ []) :
    subscriptRange (encoded (l ++ m)) ⟨ofNat (encoded l).length, minusOne, true⟩
      = .ok (encoded m) := by
  obtain ⟨c, m, rfl⟩ := List.exists_cons_of_ne_nil hm
  have hlt := length_encoded_lt l m c
  have hlen : (encoded (l ++ c :: m)).length - (encoded l).length = (encoded (c :: m)).length := by
    rw [encoded_append, List.length_append, Nat.add_sub_cancel_left]
  have hpart := filterMap_startAt l (c :: m) []
  rw [List.append_nil] at hpart
  rw [subscriptRange_encoded hsize, rangeIndices_rest (by omega) hlt, hlen]
  show Except.ok (encoded ((List.range' _ _).filterMap (startAt (l ++ c :: m)))) = _
  rw [hpart]

/-- **The part from one code point to another**, both of which are named by their first bytes. -/
theorem subscriptRange_through (c : CodePoint)
    (hsize : (encoded (l ++ (m ++ [c]) ++ k)).length < 2 ^ 29) :
    subscriptRange (encoded (l ++ (m ++ [c]) ++ k))
      ⟨ofNat (encoded l).length, ofNat (encoded (l ++ m)).length, true⟩
        = .ok (encoded (m ++ [c])) := by
  have hsplit : l ++ (m ++ [c]) ++ k = l ++ m ++ c :: k := by simp
  have hlt := length_encoded_lt (l ++ m) k c
  have hlen : (encoded (l ++ m)).length = (encoded l).length + (encoded m).length := by
    rw [encoded_append, List.length_append]
  have hlast := startAt_append (l ++ m) (c :: k) 0
  rw [hsplit] at hsize ⊢
  rw [subscriptRange_encoded hsize, rangeIndices_inclusive (by omega) (by omega) hlt, hlen,
    show (encoded l).length + (encoded m).length + 1 - (encoded l).length
      = (encoded m).length + 1 by omega, List.range'_concat, Nat.one_mul]
  show Except.ok (encoded ((_ ++ [_]).filterMap (startAt (l ++ m ++ c :: k)))) = _
  rw [List.filterMap_append, filterMap_startAt, ← hlen]
  rw [Nat.add_zero] at hlast
  rw [List.filterMap_cons, hlast]
  rfl

end Parts

end WrenVM

end Wrenegade
