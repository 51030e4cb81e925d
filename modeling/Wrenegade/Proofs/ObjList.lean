/-
A list of Wren is a list.

As long as it has fewer than 2^30 elements, every call on it does what the operation on
lists does, its elements live in the first cells of its block, no cell outside of the block
is touched and none is read before it was set.
-/
import Wrenegade.Model.ObjList
import Wrenegade.Proofs.Primitive

namespace Wrenegade

namespace WrenVM

open Double Cells

/-! ### Powers of two -/

/-- The highest bit that is set is the `k`-th, and the `m` bits from it downwards are set. -/
structure Smeared (k m : Nat) (x : BitVec 32) : Prop where
  low : ∀ i ≤ k, k < i + m → x.getLsbD i = true
  high : ∀ i, k < i → x.getLsbD i = false

theorem Smeared.step {k m : Nat} {x : BitVec 32} (h : Smeared k m x) (hk : k < 31) :
    Smeared k (2 * m) (x ||| x.sshiftRight m) := by
  have hmsb : x.msb = false := by
    rw [BitVec.msb_eq_getLsbD_last]
    exact h.high _ (by omega)
  constructor
  · intro i hi hlt
    rw [BitVec.getLsbD_or, BitVec.getLsbD_sshiftRight]
    by_cases hnear : k < i + m
    · rw [h.low i hi hnear, Bool.true_or]
    · have hbit := h.low (m + i) (by omega) (by omega)
      rw [if_pos (by omega), hbit]
      simp
      omega
  · intro i hi
    rw [BitVec.getLsbD_or, BitVec.getLsbD_sshiftRight, h.high i hi, hmsb, h.high (m + i) (by omega)]
    simp

theorem smeared_start {x : BitVec 32} {k : Nat} (hlow : 2 ^ k ≤ x.toNat)
    (hhigh : x.toNat < 2 ^ (k + 1)) : Smeared k 1 x := by
  constructor
  · intro i hi hlt
    obtain rfl : i = k := by omega
    unfold BitVec.getLsbD
    rw [Nat.testBit_eq_decide_div_mod_eq, decide_eq_true_iff]
    have hdiv : x.toNat / 2 ^ i = 1 := by
      rw [Nat.div_eq_iff (Nat.two_pow_pos i)]
      rw [Nat.pow_succ] at hhigh
      omega
    rw [hdiv]
  · intro i hi
    unfold BitVec.getLsbD
    refine Nat.testBit_lt_two_pow (hhigh.trans_le (Nat.pow_le_pow_right (by norm_num) hi))

theorem Smeared.toNat_eq {k : Nat} {x : BitVec 32} (h : Smeared k 32 x) (hk : k < 31) :
    x.toNat = 2 ^ (k + 1) - 1 := by
  refine Nat.eq_of_testBit_eq fun i => ?_
  rw [Nat.testBit_two_pow_sub_one]
  by_cases hi : i ≤ k
  · rw [decide_eq_true (by omega)]
    exact h.low i hi (by omega)
  · rw [decide_eq_false (by omega)]
    exact h.high i (by omega)

/-- **The least power of two** that is at least the number. -/
theorem wrenPowerOf2Ceil_eq {n : BitVec 32} (hpos : 1 ≤ n.toNat) (hle : n.toNat ≤ 2 ^ 30) :
    (wrenPowerOf2Ceil n).toNat = 2 ^ Nat.clog 2 n.toNat := by
  have hsub : (n - 1).toNat = n.toNat - 1 := by
    rw [BitVec.toNat_sub]
    have hone : (1 : BitVec 32).toNat = 1 := rfl
    omega
  by_cases hone : n.toNat = 1
  · obtain rfl : n = 1 := BitVec.eq_of_toNat_eq hone
    decide
  · obtain ⟨k, hk⟩ : ∃ k, k = (n.toNat - 1).log2 := ⟨_, rfl⟩
    have hlow : 2 ^ k ≤ (n - 1).toNat := by
      rw [hsub, hk]
      exact Nat.log2_self_le (by omega)
    have hhigh : (n - 1).toNat < 2 ^ (k + 1) := by
      rw [hsub, hk]
      exact Nat.lt_log2_self
    have hlt : k < 31 := by
      by_contra hge
      have hpow : 2 ^ 31 ≤ 2 ^ k := Nat.pow_le_pow_right (by norm_num) (by omega)
      omega
    have hsmear := ((((((smeared_start hlow hhigh).step hlt).step hlt).step hlt).step hlt).step
      hlt).toNat_eq hlt
    have hclog : Nat.clog 2 n.toNat = k + 1 := by
      refine Nat.le_antisymm (Nat.clog_le_of_le_pow (by omega)) ?_
      exact (Nat.lt_clog_iff_pow_lt (by norm_num)).mpr (by omega)
    have hpow : 2 ^ (k + 1) ≤ 2 ^ 31 := Nat.pow_le_pow_right (by norm_num) (by omega)
    have hpos' := Nat.two_pow_pos (k + 1)
    unfold wrenPowerOf2Ceil
    rw [hclog]
    refine (BitVec.toNat_add _ _).trans ?_
    rw [hsmear]
    have hone : (1 : BitVec 32).toNat = 1 := rfl
    omega

/-! ### Slices -/

/-- The elements that a range picks. -/
def cut (l : List Value) (range : ObjRange) : Except Text (List Value) := do
  return (← span l.length range).elim [] fun (first, last) => walk l first last

/-! ### The buffer -/

/-- The buffer holds these values, in the first of its cells. -/
structure BufferHolds (buffer : ValueBuffer) (l : List Value) : Prop where
  data : Holds buffer.data l
  count : buffer.count = l.length

section Buffer

variable {list : ValueBuffer} {l : List Value}

theorem bufferHolds_clear : BufferHolds wrenValueBufferClear [] := ⟨holds_nil _, rfl⟩

theorem BufferHolds.get {i : Nat} (h : BufferHolds list l) (hi : i < l.length) :
    list.get i = .ok l[i] := by
  unfold ValueBuffer.get
  rw [h.data.get hi]
  rfl

theorem BufferHolds.put {i : Nat} (h : BufferHolds list l) (hi : i < l.length) (value : Value) :
    ∃ list', list.put i value = .ok list' ∧ BufferHolds list' (l.set i value) := by
  obtain ⟨data, hput, -, hdata⟩ := h.data.put hi value
  refine ⟨{ list with data }, ?_, hdata, h.count.trans List.length_set.symm⟩
  unfold ValueBuffer.put
  rw [hput]
  rfl

/-- **An element that is written** comes behind the others; the block grows if it must. -/
theorem wrenValueBufferWrite_eq (h : BufferHolds list l) (hsize : l.length < 2 ^ 30)
    (value : Value) : ∃ list', wrenValueBufferWrite list value = .ok list' ∧
      BufferHolds list' (l ++ [value]) := by
  have hcount := h.count
  have hroom : ∃ data, (if list.capacity < list.count + 1 then
        list.data.resize (wrenPowerOf2Ceil (BitVec.ofNat 32 (list.count + 1))).toNat
      else list.data) = data ∧ Holds data l ∧ l.length < data.length := by
    by_cases hfull : list.capacity < list.count + 1
    · have htoNat : (BitVec.ofNat 32 (list.count + 1)).toNat = list.count + 1 := by
        rw [BitVec.toNat_ofNat, Nat.mod_eq_of_lt (by omega)]
      have hceil := wrenPowerOf2Ceil_eq (n := BitVec.ofNat 32 (list.count + 1)) (by omega) (by omega)
      have hle := Nat.le_pow_clog (b := 2) (by norm_num) (list.count + 1)
      rw [htoNat] at hceil
      obtain ⟨hholds, hlen⟩ := h.data.resize (n := 2 ^ Nat.clog 2 (list.count + 1)) (by omega)
      rw [if_pos hfull, hceil]
      exact ⟨_, rfl, hholds, by omega⟩
    · rw [if_neg hfull]
      unfold ValueBuffer.capacity at hfull
      exact ⟨_, rfl, h.data, by omega⟩
  obtain ⟨data, hdata, hholds, hlen⟩ := hroom
  obtain ⟨data', hput, -, hholds'⟩ := hholds.push hlen value
  refine ⟨⟨data', list.count + 1⟩, ?_, hholds', by simp [hcount]⟩
  unfold wrenValueBufferWrite wrenValueBufferFill
  rw [hdata, hcount]
  show (access (data.put l.length value) >>= fun data => _) >>= _ = _
  rw [hput]
  rfl

/-- **An element that is inserted** pushes the ones behind it down. -/
theorem wrenListInsert_eq (h : BufferHolds list l) (hsize : l.length < 2 ^ 30) {index : Nat}
    (hindex : index ≤ l.length) (value : Value) :
    ∃ list', wrenListInsert list value index = .ok list' ∧
      BufferHolds list' (l.take index ++ value :: l.drop index) := by
  obtain ⟨list₁, hwrite, ⟨rest, hdata⟩, hcount⟩ := wrenValueBufferWrite_eq h hsize .null
  have hsplit : (l ++ [Value.null]).map some ++ rest
      = (l.take index ++ l.drop index).map some ++ some Value.null :: rest := by
    rw [List.take_append_drop]
    simp
  have hlen : (l.take index).length = index := by
    rw [List.length_take]
    omega
  obtain ⟨gap, hshift⟩ := shiftDown_eq (l.take index) (l.drop index) (some .null) rest
  have hput := put_append (l.take index) gap ((l.drop index).map some ++ rest) value
  rw [hlen] at hput hshift
  have hlast : list₁.count - 1 = index + (l.drop index).length := by
    rw [hcount, List.length_append, List.length_singleton, List.length_drop]
    omega
  refine ⟨⟨(l.take index).map some ++ some value :: ((l.drop index).map some ++ rest),
    list₁.count⟩, ?_, ⟨rest, ?_⟩, ?_⟩
  · unfold wrenListInsert
    rw [hwrite]
    show (access (list₁.data.shiftDown index (list₁.count - 1)) >>= fun data =>
      access (data.put index value) >>= fun data => Except.ok (ValueBuffer.mk data list₁.count)) = _
    rw [hdata, hsplit, hlast, hshift]
    show (access (Cells.put _ index value) >>= fun data =>
      Except.ok (ValueBuffer.mk data list₁.count)) = _
    rw [hput]
    rfl
  · simp
  · simp only [hcount, List.length_append, List.length_cons, List.length_nil, List.length_drop,
      List.length_take]
    omega

/-- **An element that is removed** is given back, and the ones behind it move up. -/
theorem wrenListRemoveAt_eq (h : BufferHolds list l) {index : Nat} (hindex : index < l.length) :
    ∃ list', wrenListRemoveAt list index = .ok (l[index], list') ∧
      BufferHolds list' (l.eraseIdx index) := by
  have hcount := h.count
  obtain ⟨rest, hdata⟩ := h.data
  have hlen : (l.take index).length = index := by
    rw [List.length_take]
    omega
  have hsplit : l.map some ++ rest = (l.take index).map some
      ++ some l[index] :: ((l.drop (index + 1)).map some ++ rest) := by
    conv_lhs => rw [← List.take_append_drop index l, List.drop_eq_getElem_cons hindex]
    simp only [List.map_append, List.map_cons, List.append_assoc, List.cons_append]
  obtain ⟨last, hshift⟩ := shiftUp_eq (l.take index) (l.drop (index + 1)) (some l[index]) rest
  have htimes : list.count - 1 - index = (l.drop (index + 1)).length := by
    rw [List.length_drop]
    omega
  rw [hlen, ← htimes, ← hsplit, ← hdata] at hshift
  have hless : (l.eraseIdx index).length = list.count - 1 := by
    rw [List.length_eraseIdx_of_lt hindex]
    omega
  have hholds : Holds ((l.take index ++ l.drop (index + 1)).map some ++ last :: rest)
      (l.eraseIdx index) := ⟨last :: rest, by rw [List.eraseIdx_eq_take_drop_succ]⟩
  unfold wrenListRemoveAt
  rw [h.get hindex]
  show ∃ list', (access (Cells.shiftUp (list.count - 1 - index) index list.data) >>= _) = _ ∧ _
  rw [hshift]
  refine ⟨_, rfl, ?_, hless.symm⟩
  split
  · exact (hholds.resize (by omega)).1
  · exact hholds

/-! ### Copies -/

/-- A buffer that is filled element by element. -/
theorem fill_eq {n : Nat} {f : Nat → Value} {g : ValueBuffer → Nat → Result ValueBuffer}
    (hg : ∀ buffer, ∀ i < n, g buffer i = buffer.put i (f i)) :
    ∃ buffer, (List.range n).foldlM g (wrenNewList n) = .ok buffer ∧
      BufferHolds buffer ((List.range n).map f) := by
  have hall : ∀ k ≤ n, ∃ buffer, (List.range k).foldlM g (wrenNewList n) = .ok buffer ∧
      buffer.count = n ∧ buffer.data.length = n ∧ Holds buffer.data ((List.range k).map f) := by
    intro k
    induction k with
    | zero =>
        intro hk
        exact ⟨wrenNewList n, rfl, rfl, List.length_replicate, holds_nil _⟩
    | succ k ih =>
        intro hk
        obtain ⟨buffer, hfold, hcount, hlen, hholds⟩ := ih (by omega)
        have hk' : ((List.range k).map f).length = k := by simp
        obtain ⟨data, hput, hlen', hholds'⟩ := hholds.push (by omega) (f k)
        rw [hk'] at hput
        refine ⟨{ buffer with data }, ?_, hcount, hlen'.trans hlen, ?_⟩
        · rw [List.range_succ, List.foldlM_append, hfold]
          show (g buffer k >>= pure) = _
          rw [hg buffer k (by omega)]
          unfold ValueBuffer.put
          rw [hput]
          rfl
        · rw [List.range_succ, List.map_append]
          exact hholds'
  obtain ⟨buffer, hfold, hcount, -, hholds⟩ := hall n (Nat.le_refl n)
  exact ⟨buffer, hfold, hholds, by simp [hcount]⟩

/-- **The slice between two indices** has the elements from the one to the other. -/
theorem copySlice_eq (h : BufferHolds list l) (hsize : l.length ≤ 2 ^ 31) {first last : Nat}
    (hfirst : first < l.length) (hlast : last < l.length) :
    ∃ list', copySlice list (Slice.between first last) = .ok list' ∧
      BufferHolds list' (walk l first last) := by
  rw [walk_eq hfirst hlast .null]
  refine fill_eq fun buffer i hi => ?_
  have hindex := Slice.index_between (by omega) (by omega) hi
  have hlt : (if first < last then first + i else first - i) < l.length := by
    unfold Slice.between at hi
    simp only at hi
    split <;> omega
  rw [hindex, h.get hlt, List.getD_eq_getElem _ _ hlt]
  rfl

end Buffer

/-! ### What a list is for -/

abbrev ListReply := Except Text (ListAnswer (List Value)) × List Value

/-- A call with an index; one that does not pass changes nothing. -/
def withIndex (l : List Value) (count : Nat) (arg : Value) (argName : Text)
    (f : Nat → ListAnswer (List Value) × List Value) : ListReply :=
  match place count arg argName with
  | .ok i => (.ok (f i).1, (f i).2)
  | .error message => (.error message, l)

/-- The iterator after an iterator. -/
def following (l : List Value) (iterator : Value) : Except Text Value :=
  match iterator with
  | .null => .ok (if l = [] then .bool false else .num (ofNat 0))
  | .num x => do
      match ← whole (decode x) "Iterator" with
      | some z =>
          return if 0 ≤ z ∧ z + 1 < l.length then .num (ofNat (z.toNat + 1)) else .bool false
      | none => return .bool false
  | _ => .error "Iterator must be a number."

/-- The element at an index, or the elements of a range. -/
def select (heap : Heap) (l : List Value) (arg : Value) :
    Except Text (ListAnswer (List Value)) :=
  match arg with
  | .num _ => (place l.length arg "Subscript").map fun i => .value (l.getD i .null)
  | .obj address =>
      match heap address with
      | .range range => (cut l range).map .newList
      | _ => .error "Subscript must be a number or a range."
  | _ => .error "Subscript must be a number or a range."

/-- What a call answers, and what it does to the elements. -/
def ListCall.spec (heap : Heap) (l : List Value) : ListCall → ListReply
  | .add value => (.ok (.value value), l ++ [value])
  | .addCore value => (.ok .list, l ++ [value])
  | .clear => (.ok (.value .null), [])
  | .count => (.ok (.value (.num (ofNat l.length))), l)
  | .insert arg value => withIndex l (l.length + 1) arg "Index" fun i =>
      (.value value, l.take i ++ value :: l.drop i)
  | .iterate iterator => ((following l iterator).map .value, l)
  | .iteratorValue iterator => withIndex l l.length iterator "Iterator" fun i =>
      (.value (l.getD i .null), l)
  | .removeAt arg => withIndex l l.length arg "Index" fun i =>
      (.value (l.getD i .null), l.eraseIdx i)
  | .subscript arg => (select heap l arg, l)
  | .subscriptSetter arg value => withIndex l l.length arg "Subscript" fun i =>
      (.value value, l.set i value)

def specList (heap : Heap) (l : List Value) :
    List ListCall → List (Except Text (ListAnswer (List Value))) × List Value
  | [] => ([], l)
  | call :: calls =>
      ((call.spec heap l).1 :: (specList heap (call.spec heap l).2 calls).1,
        (specList heap (call.spec heap l).2 calls).2)

/-- The same answer; a new list holds what it should. -/
def ListAnswer.Agrees : ListAnswer ValueBuffer → ListAnswer (List Value) → Prop
  | .value v, .value w => v = w
  | .list, .list => True
  | .newList buffer, .newList l => BufferHolds buffer l
  | _, _ => False

/-- The same answer or the same error. -/
def AnswersAgree : Except Text (ListAnswer ValueBuffer) →
    Except Text (ListAnswer (List Value)) → Prop
  | .ok answer, .ok answer' => answer.Agrees answer'
  | .error message, .error message' => message = message'
  | _, _ => False

/-- What a call comes to, and what it was to come to. -/
def ReplyAgrees (r : Result (ListAnswer ValueBuffer × ValueBuffer)) (spec : ListReply)
    (l : List Value) : Prop :=
  (∃ answer answer' list, r = .ok (answer, list) ∧ spec.1 = .ok answer' ∧
    answer.Agrees answer' ∧ BufferHolds list spec.2) ∨
  (∃ message, r = .error (.error message) ∧ spec.1 = .error message ∧ spec.2 = l)

section Calls

variable {heap : Heap} {list : ValueBuffer} {l : List Value}

theorem withIndex_agrees {count : Nat} {arg : Value} {argName : Text}
    {f : Nat → Result (ListAnswer ValueBuffer × ValueBuffer)}
    {g : Nat → ListAnswer (List Value) × List Value}
    (hf : ∀ i < count, ∃ answer list, f i = .ok (answer, list) ∧ answer.Agrees (g i).1 ∧
      BufferHolds list (g i).2) :
    ReplyAgrees (validateIndex arg count argName >>= f) (withIndex l count arg argName g) l := by
  rw [validateIndex_eq]
  unfold withIndex
  cases hplace : place count arg argName with
  | error message => exact Or.inr ⟨message, rfl, rfl, rfl⟩
  | ok i =>
      obtain ⟨answer, list, hok, hanswer, hholds⟩ := hf i (place_lt hplace)
      exact Or.inl ⟨answer, (g i).1, list, hok, rfl, hanswer, hholds⟩

theorem list_iterate_eq (h : BufferHolds list l) (iterator : Value) :
    list_iterate list iterator = (following l iterator).mapError .error := by
  have hcount := h.count
  cases iterator with
  | null =>
      unfold list_iterate following
      by_cases hl : l = []
      · rw [if_pos (by rw [hcount, hl]; rfl), if_pos hl]
        rfl
      · rw [if_neg (by rw [hcount, List.length_eq_zero_iff]; exact hl), if_neg hl]
        rfl
  | bool b => rfl
  | obj address => rfl
  | num x =>
      unfold list_iterate following validateInt validateNum
      simp only [pure_bind]
      by_cases hint : (decode x).isInteger = true
      · rcases isInteger_iff.mp hint with ⟨z, hz⟩ | ⟨negative, hn⟩
        · rw [hz, whole_finite, validateIntValue_finite]
          have hlast : (Datum.finite z).lt (.finite (list.count - 1))
              = decide (z < (l.length : ℤ) - 1) := by
            have hlt := lt_finite z ((l.length : ℤ) - 1)
            rw [Int.cast_sub, Int.cast_natCast, Int.cast_one] at hlt
            rw [hcount]
            exact hlt
          show (if (Datum.finite z).lt (.finite 0) = true ∨
              ¬ (Datum.finite z).lt (.finite (list.count - 1)) = true then
            pure (.bool false) else pure (.num (ofNat ((Datum.finite z).toNat + 1))) :
              Result Value) = Except.ok (if 0 ≤ z ∧ z + 1 < l.length then _ else _)
          rw [lt_finite_zero, hlast, toNat_finite]
          by_cases hz : 0 ≤ z ∧ z + 1 < l.length
          · rw [if_neg (by simp only [decide_eq_true_eq]; omega), if_pos hz]
            rfl
          · rw [if_pos (by simp only [decide_eq_true_eq]; omega), if_neg hz]
            rfl
        · rw [hn]
          cases negative <;> rfl
      · rw [whole_of_not_isInteger hint, validateIntValue_eq, if_neg hint]
        rfl

theorem list_subscript_agrees (h : BufferHolds list l) (hsize : l.length ≤ 2 ^ 31) (arg : Value) :
    ReplyAgrees (list_subscript heap list arg >>= fun answer => pure (answer, list))
      (select heap l arg, l) l := by
  have hnone : ReplyAgrees
      ((throw (.error "Subscript must be a number or a range.") : Result (ListAnswer ValueBuffer))
        >>= fun answer => pure (answer, list))
      (.error "Subscript must be a number or a range.", l) l := Or.inr ⟨_, rfl, rfl, rfl⟩
  cases arg with
  | null => exact hnone
  | bool b => exact hnone
  | num x =>
      unfold list_subscript select
      simp only
      rw [validateIndex_eq, h.count]
      cases hplace : place l.length (.num x) "Subscript" with
      | error message => exact Or.inr ⟨message, rfl, rfl, rfl⟩
      | ok i =>
          have hi := place_lt hplace
          refine Or.inl ⟨.value l[i], .value l[i], list, ?_, ?_, rfl, h⟩
          · show (list.get i >>= _) >>= _ = _
            rw [h.get hi]
            rfl
          · show Except.ok (ListAnswer.value (l.getD i .null)) = _
            rw [List.getD_eq_getElem _ _ hi]
  | obj address =>
      unfold list_subscript select
      cases hobj : heap address with
      | class_ name => simpa only [hobj] using hnone
      | fn arity codeCount => simpa only [hobj] using hnone
      | string value => simpa only [hobj] using hnone
      | other => simpa only [hobj] using hnone
      | range range =>
          have hslice := calculateRange_eq hsize range
          simp only [hobj]
          unfold cut
          rw [h.count]
          cases hspan : span l.length range with
          | error message =>
              rw [hspan] at hslice
              rw [show calculateRange range l.length = _ from hslice]
              exact Or.inr ⟨message, rfl, rfl, rfl⟩
          | ok ends =>
              rw [hspan] at hslice
              cases ends with
              | none =>
                  obtain ⟨start, hslice⟩ := hslice
                  rw [hslice]
                  exact Or.inl ⟨.newList (wrenNewList 0), .newList [], list, rfl, rfl,
                    ⟨holds_nil _, rfl⟩, h⟩
              | some ends =>
                  obtain ⟨hfirst, hlast, hslice⟩ := hslice
                  obtain ⟨buffer, hcopy, hholds⟩ := copySlice_eq h hsize hfirst hlast
                  rw [hslice]
                  refine Or.inl ⟨.newList buffer, .newList (walk l ends.1 ends.2), list, ?_, rfl,
                    hholds, h⟩
                  show (copySlice list (Slice.between ends.1 ends.2) >>= _) >>= _ = _
                  rw [hcopy]
                  rfl

theorem list_perform_agrees (h : BufferHolds list l) (hsize : l.length < 2 ^ 30)
    (call : ListCall) : ReplyAgrees (call.perform heap list) (call.spec heap l) l := by
  have hcount := h.count
  cases call with
  | add value =>
      obtain ⟨list', hwrite, hholds⟩ := wrenValueBufferWrite_eq h hsize value
      exact Or.inl ⟨.value value, .value value, list', by rw [ListCall.perform, hwrite]; rfl, rfl,
        rfl, hholds⟩
  | addCore value =>
      obtain ⟨list', hwrite, hholds⟩ := wrenValueBufferWrite_eq h hsize value
      exact Or.inl ⟨.list, .list, list', by rw [ListCall.perform, hwrite]; rfl, rfl, trivial, hholds⟩
  | clear =>
      exact Or.inl ⟨.value .null, .value .null, _, rfl, rfl, rfl, bufferHolds_clear⟩
  | count =>
      refine Or.inl ⟨.value (.num (ofNat l.length)), _, list, ?_, rfl, rfl, h⟩
      rw [← hcount]
      rfl
  | insert arg value =>
      unfold ListCall.perform list_insert
      rw [hcount]
      refine withIndex_agrees fun i hi => ?_
      obtain ⟨list', hinsert, hholds⟩ := wrenListInsert_eq h hsize (Nat.le_of_lt_succ hi) value
      exact ⟨.value value, list', by rw [hinsert]; rfl, rfl, hholds⟩
  | iterate iterator =>
      show ReplyAgrees (list_iterate list iterator >>= fun value => pure (.value value, list))
        ((following l iterator).map .value, l) l
      rw [list_iterate_eq h]
      cases following l iterator with
      | error message => exact Or.inr ⟨message, rfl, rfl, rfl⟩
      | ok next => exact Or.inl ⟨.value next, .value next, list, rfl, rfl, rfl, h⟩
  | iteratorValue iterator =>
      show ReplyAgrees (list_iteratorValue list iterator >>= fun value => pure (.value value, list))
        _ l
      unfold list_iteratorValue
      rw [hcount, bind_assoc]
      refine withIndex_agrees fun i hi => ?_
      rw [h.get hi, List.getD_eq_getElem _ _ hi]
      exact ⟨.value l[i], list, rfl, rfl, h⟩
  | removeAt arg =>
      unfold ListCall.perform list_removeAt
      rw [hcount]
      refine withIndex_agrees fun i hi => ?_
      obtain ⟨list', hremove, hholds⟩ := wrenListRemoveAt_eq h hi
      rw [hremove, List.getD_eq_getElem _ _ hi]
      exact ⟨.value l[i], list', rfl, rfl, hholds⟩
  | subscript arg => exact list_subscript_agrees h (by omega) arg
  | subscriptSetter arg value =>
      unfold ListCall.perform list_subscriptSetter
      rw [hcount]
      refine withIndex_agrees fun i hi => ?_
      obtain ⟨list', hput, hholds⟩ := h.put hi value
      exact ⟨.value value, list', by rw [hput]; rfl, rfl, hholds⟩

/-- **A list is a list**: in a run no access goes wrong, and every answer is that of the
operation on lists. -/
theorem runList_eq {calls : List ListCall} (h : BufferHolds list l)
    (hsize : ∀ done, done <+: calls → (specList heap l done).2.length < 2 ^ 30) :
    ∃ answers list', runList heap list calls = .ok (answers, list') ∧
      List.Forall₂ AnswersAgree answers (specList heap l calls).1 ∧
      BufferHolds list' (specList heap l calls).2 := by
  induction calls generalizing list l with
  | nil => exact ⟨[], list, rfl, List.Forall₂.nil, h⟩
  | cons call calls ih =>
      have hrest : ∀ done, done <+: calls →
          (specList heap (call.spec heap l).2 done).2.length < 2 ^ 30 :=
        fun done hdone => hsize (call :: done) (List.cons_prefix_cons.mpr ⟨rfl, hdone⟩)
      unfold runList specList
      rcases @list_perform_agrees heap _ _ h (hsize [] List.nil_prefix) call with
        ⟨answer, answer', list₁, hperform, hanswer, hagrees, h₁⟩ | ⟨message, hperform, hanswer, hsame⟩
      · obtain ⟨answers, list', hrun, hall, h'⟩ := ih h₁ hrest
        rw [hperform, hanswer]
        refine ⟨.ok answer :: answers, list', ?_, List.Forall₂.cons hagrees hall, h'⟩
        show (runList heap list₁ calls >>= fun r => Except.ok (Except.ok answer :: r.1, r.2)) = _
        rw [hrun]
        rfl
      · rw [hsame] at hrest ⊢
        obtain ⟨answers, list', hrun, hall, h'⟩ := ih h hrest
        rw [hperform, hanswer]
        refine ⟨.error message :: answers, list', ?_, List.Forall₂.cons rfl hall, h'⟩
        show (runList heap list calls >>= fun r => Except.ok (Except.error message :: r.1, r.2)) = _
        rw [hrun]
        rfl

/-- From an index on, the elements come one after the other. -/
theorem list_steps {n i : Nat} {iterator : Value} (h : BufferHolds list l)
    (hsize : l.length < 2 ^ 30) (hn : l.length - i = n)
    (hiterate : list_iterate list iterator
      = .ok (if i < l.length then .num (ofNat i) else .bool false)) :
    Steps (list_iterate list) (list_iteratorValue list) iterator (l.drop i) := by
  induction n generalizing i iterator with
  | zero =>
      rw [if_neg (by omega)] at hiterate
      rw [List.drop_eq_nil_of_le (by omega)]
      exact Steps.done hiterate
  | succ n ih =>
      have hi : i < l.length := by omega
      rw [if_pos hi] at hiterate
      have hvalue : list_iteratorValue list (.num (ofNat i)) = .ok l[i] := by
        unfold list_iteratorValue
        rw [h.count, validateIndex_ofNat hi (by omega)]
        exact h.get hi
      have hnext : list_iterate list (.num (ofNat i))
          = .ok (if i + 1 < l.length then .num (ofNat (i + 1)) else .bool false) := by
        have hwhole := whole_finite i "Iterator"
        rw [Int.cast_natCast] at hwhole
        have hdecode := decode_ofNat (n := i) (by omega)
        rw [list_iterate_eq h]
        unfold following
        simp only [hdecode, hwhole]
        show Except.ok (if 0 ≤ (i : ℤ) ∧ (i : ℤ) + 1 < l.length then
          Value.num (ofNat ((i : ℤ).toNat + 1)) else .bool false) = _
        rw [Int.toNat_natCast]
        by_cases hlast : i + 1 < l.length
        · rw [if_pos (by omega), if_pos hlast]
        · rw [if_neg (by omega), if_neg hlast]
      rw [List.drop_eq_getElem_cons hi]
      exact Steps.step hiterate hvalue (ih (by omega) hnext)

/-- **Iteration gives the elements**, in order. -/
theorem iterateList_eq (h : BufferHolds list l) (hsize : l.length < 2 ^ 30) :
    iterateList list = .ok l := by
  refine Steps.forLoop_eq ?_ (by rw [h.count]; omega)
  refine list_steps (i := 0) h hsize rfl ?_
  rw [list_iterate_eq h]
  unfold following
  cases l with
  | nil => rfl
  | cons v l => rfl

end Calls

/-- **A new list is an empty list**, and stays a list as long as it is short: in a run no
access goes wrong, every answer is that of the operation on lists, and what it iterates over
in the end are the elements the operations leave. -/
theorem runList_new (heap : Heap) {calls : List ListCall}
    (hsize : ∀ done, done <+: calls → (specList heap [] done).2.length < 2 ^ 30) :
    ∃ answers list, runList heap (wrenNewList 0) calls = .ok (answers, list) ∧
      List.Forall₂ AnswersAgree answers (specList heap [] calls).1 ∧
      iterateList list = .ok (specList heap [] calls).2 ∧
      list.count ≤ list.capacity := by
  obtain ⟨answers, list, hrun, hagree, hholds⟩ :=
    @runList_eq heap (wrenNewList 0) [] calls ⟨holds_nil _, rfl⟩ hsize
  have hlen := hholds.data.length_le
  exact ⟨answers, list, hrun, hagree, iterateList_eq hholds (hsize calls (List.prefix_refl _)),
    by rw [hholds.count]; exact hlen⟩

/-- The heap of a program that has one range, `-1..0`. -/
def backwards : Heap := fun _ => .range ⟨0xbff0000000000000, 0, true⟩

def backwardsCalls : List ListCall :=
  [.add .null, .insert (.num 0) (.bool true), .subscript (.obj 0), .removeAt (.num (ofNat 5)),
    .removeAt (.num 0)]

theorem runList_new_backwards : ∃ answers list,
    runList backwards (wrenNewList 0) backwardsCalls = .ok (answers, list) ∧
      List.Forall₂ AnswersAgree answers [.ok (.value .null), .ok (.value (.bool true)),
        .ok (.newList [.null, .bool true]), .error "Index out of bounds.",
        .ok (.value (.bool true))] ∧
      iterateList list = .ok [.null] := by
  have hsize : ∀ done ∈ backwardsCalls.inits, (specList backwards [] done).2.length < 2 ^ 30 := by
    decide +kernel
  have hspec : specList backwards [] backwardsCalls = ([.ok (.value .null),
      .ok (.value (.bool true)), .ok (.newList [.null, .bool true]), .error "Index out of bounds.",
      .ok (.value (.bool true))], [.null]) := by decide +kernel
  obtain ⟨answers, list, hrun, hagree, hiterate, -⟩ := @runList_new backwards backwardsCalls
    fun done hdone => hsize done ((List.mem_inits _ _).mpr hdone)
  rw [hspec] at hagree hiterate
  exact ⟨answers, list, hrun, hagree, hiterate⟩

end WrenVM

end Wrenegade
