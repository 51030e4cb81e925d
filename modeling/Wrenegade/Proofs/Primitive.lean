/-
What an index and a range come to once they are checked.

An index that passes is within bounds, and so is every element of a range that passes: a
list or a string that is cut out is cut out of what there is.
-/
import Wrenegade.Model.Primitive

namespace Wrenegade

namespace WrenVM

open Double

/-! ### Whole numbers -/

theorem isInteger_iff {d : Datum} : d.isInteger = true ↔
    (∃ z : ℤ, d = .finite z) ∨ ∃ negative, d = .infinite negative := by
  cases d with
  | finite q =>
      unfold Datum.isInteger
      rw [decide_eq_true_iff]
      constructor
      · intro hq
        exact Or.inl ⟨q.num, by rw [Rat.den_eq_one_iff q |>.mp hq]⟩
      · rintro (⟨z, hz⟩ | ⟨negative, hn⟩)
        · rw [Datum.finite.injEq] at hz
          rw [hz, Rat.den_intCast]
        · simp at hn
  | infinite negative => simp [Datum.isInteger]
  | nan => simp [Datum.isInteger]

theorem lt_finite (y z : ℤ) : (Datum.finite y).lt (.finite z) = decide (y < z) := by
  unfold Datum.lt
  rw [decide_eq_decide, Int.cast_lt]

theorem lt_finite_nat (m n : Nat) : (Datum.finite m).lt (.finite n) = decide (m < n) := by
  unfold Datum.lt
  rw [decide_eq_decide, Nat.cast_lt]

theorem toNat_finite (z : ℤ) : (Datum.finite z).toNat = z.toNat :=
  congrArg Int.toNat (Rat.floor_intCast z)

theorem validateIntValue_eq (value : Datum) (argName : Text) : validateIntValue value argName =
    if value.isInteger then .ok () else .error (.error (argName ++ " must be an integer.")) := rfl

theorem validateIntValue_finite (z : ℤ) (argName : Text) :
    validateIntValue (.finite z) argName = .ok () := by
  rw [validateIntValue_eq, if_pos (isInteger_iff.mpr (Or.inl ⟨z, rfl⟩))]

/-- The index a whole number stands for in a sequence. -/
def resolve (count : Nat) (z : ℤ) : ℤ := if z < 0 then count + z else z

theorem resolve_datum (count : Nat) (z : ℤ) :
    (if (Datum.finite z).lt (.finite 0) then (Datum.finite z).add count else .finite z)
      = .finite (resolve count z) := by
  have hlt := lt_finite z 0
  rw [Int.cast_zero] at hlt
  unfold resolve
  rw [hlt]
  by_cases hz : z < 0
  · rw [if_pos (by simpa using hz), if_pos hz]
    unfold Datum.add
    rw [Int.cast_add, add_comm, Int.cast_natCast]
  · rw [if_neg (by simpa using hz), if_neg hz]

theorem validateIndexValue_finite (count : Nat) (z : ℤ) (argName : Text) :
    validateIndexValue count (.finite z) argName =
      if 0 ≤ resolve count z ∧ resolve count z < count then .ok (resolve count z).toNat
      else .error (.error (argName ++ " out of bounds.")) := by
  have hneg := lt_finite (resolve count z) 0
  have hcount := lt_finite (resolve count z) count
  rw [Int.cast_zero] at hneg
  rw [Int.cast_natCast] at hcount
  unfold validateIndexValue
  rw [validateIntValue_finite, resolve_datum]
  show (if ¬ (Datum.finite (resolve count z)).lt (.finite 0) = true ∧
      (Datum.finite (resolve count z)).lt (.finite count) = true then
    Except.ok (Datum.finite (resolve count z)).toNat else _) = _
  rw [hneg, hcount, toNat_finite]
  simp only [decide_eq_true_eq, not_lt]
  rfl

/-- **An index passes** if and only if it is whole and within bounds. -/
theorem validateIndexValue_eq_ok_iff {count : Nat} {value : Datum} {argName : Text} {i : Nat} :
    validateIndexValue count value argName = .ok i ↔
      ∃ z : ℤ, value = .finite z ∧ resolve count z = i ∧ i < count := by
  by_cases hint : value.isInteger = true
  · rcases isInteger_iff.mp hint with ⟨z, rfl⟩ | ⟨negative, rfl⟩
    · rw [validateIndexValue_finite]
      constructor
      · intro h
        split at h
        · rename_i hbounds
          rw [Except.ok.injEq] at h
          exact ⟨z, rfl, by omega, by omega⟩
        · simp at h
      · rintro ⟨y, hy, hi, hlt⟩
        rw [Datum.finite.injEq, Int.cast_inj] at hy
        subst hy
        rw [if_pos (by omega), hi, Int.toNat_natCast]
    · constructor
      · intro h
        cases negative <;> simp [validateIndexValue, validateIntValue, Datum.isInteger, Datum.lt,
          Datum.add] at h
      · rintro ⟨y, hy, -⟩
        simp at hy
  · constructor
    · intro h
      unfold validateIndexValue at h
      rw [validateIntValue_eq, if_neg hint] at h
      exact absurd h (by intro h; cases h)
    · rintro ⟨z, rfl, -⟩
      exact absurd (isInteger_iff.mpr (Or.inl ⟨z, rfl⟩)) hint

/-- The double of an index passes as that index. -/
theorem validateIndex_ofNat {count i : Nat} (hi : i < count) (hcount : count ≤ 2 ^ 53)
    (argName : Text) : validateIndex (.num (ofNat i)) count argName = .ok i := by
  have hdecode := decode_ofNat (n := i) (by omega)
  show validateIndexValue count (decode (ofNat i)) argName = .ok i
  rw [hdecode, validateIndexValue_eq_ok_iff]
  refine ⟨i, by rw [Int.cast_natCast], ?_, hi⟩
  unfold resolve
  rw [if_neg (by omega)]

theorem validateInt_ofNat {i : Nat} (hi : i < 2 ^ 53) (argName : Text) :
    validateInt (.num (ofNat i)) argName = .ok (.finite i) := by
  have hvalid := validateIntValue_finite i argName
  rw [Int.cast_natCast] at hvalid
  show (validateIntValue (decode (ofNat i)) argName >>= fun _ => _) = _
  rw [decode_ofNat hi, hvalid]
  rfl

/-! ### What indices and ranges mean -/

/-- The whole number a double is; an infinity is one that is out of all bounds. -/
def whole (d : Datum) (argName : Text) : Except Text (Option ℤ) :=
  match d with
  | .finite q => if q.den = 1 then .ok (some q.num) else .error (argName ++ " must be an integer.")
  | .infinite _ => .ok none
  | .nan => .error (argName ++ " must be an integer.")

def inBounds (count : Nat) (z : Option ℤ) (argName : Text) : Except Text Nat :=
  match z with
  | some z => if 0 ≤ z ∧ z < count then .ok z.toNat else .error (argName ++ " out of bounds.")
  | none => .error (argName ++ " out of bounds.")

/-- The index a value stands for. -/
def index (count : Nat) (d : Datum) (argName : Text) : Except Text Nat := do
  inBounds count ((← whole d argName).map (resolve count)) argName

/-- The last index of a range that begins at an index, if it has any. -/
def rangeEnd (count first : Nat) (range : ObjRange) : Except Text (Option Nat) := do
  let last := (← whole (decode range.to_) "Range end").map (resolve count)
  if range.isInclusive then some <$> inBounds count last "Range end"
  else if last = some (first : ℤ) then pure none
  else some <$> inBounds count (last.map fun z : ℤ => if z < first then z + 1 else z - 1) "Range end"

/-- The first and the last index of a range, unless it is empty. -/
def span (count : Nat) (range : ObjRange) : Except Text (Option (Nat × Nat)) :=
  if decode range.from_ = .finite count ∧
      decode range.to_ = .finite (if range.isInclusive then -1 else count) then .ok none
  else do
    let first ← index count (decode range.from_) "Range start"
    return (← rangeEnd count first range).map fun last => (first, last)

theorem inBounds_some (count : Nat) (z : ℤ) (argName : Text) : inBounds count (some z) argName =
    if 0 ≤ z ∧ z < count then .ok z.toNat else .error (argName ++ " out of bounds.") := rfl

theorem whole_finite (z : ℤ) (argName : Text) : whole (.finite z) argName = .ok (some z) := by
  unfold whole
  simp

theorem whole_of_not_isInteger {d : Datum} (h : ¬ d.isInteger = true) (argName : Text) :
    whole d argName = .error (argName ++ " must be an integer.") := by
  cases d with
  | finite q =>
      unfold Datum.isInteger at h
      rw [decide_eq_true_iff] at h
      exact if_neg h
  | infinite negative => simp [Datum.isInteger] at h
  | nan => rfl

theorem validateIndexValue_infinite (count : Nat) (negative : Bool) (argName : Text) :
    validateIndexValue count (.infinite negative) argName
      = .error (.error (argName ++ " out of bounds.")) := by
  cases negative <;> rfl

/-- **The index that passes** is the one the value stands for. -/
theorem validateIndexValue_eq (count : Nat) (d : Datum) (argName : Text) :
    validateIndexValue count d argName = (index count d argName).mapError .error := by
  unfold index
  by_cases hint : d.isInteger = true
  · rcases isInteger_iff.mp hint with ⟨z, rfl⟩ | ⟨negative, rfl⟩
    · rw [validateIndexValue_finite, whole_finite]
      show _ = Except.mapError _ (if _ then _ else _)
      split <;> rfl
    · rw [validateIndexValue_infinite]
      rfl
  · rw [whole_of_not_isInteger hint]
    unfold validateIndexValue
    rw [validateIntValue_eq, if_neg hint]
    rfl

/-- The index an argument stands for. -/
def place (count : Nat) (arg : Value) (argName : Text) : Except Text Nat :=
  match arg with
  | .num x => index count (decode x) argName
  | _ => .error (argName ++ " must be a number.")

theorem validateIndex_eq (arg : Value) (count : Nat) (argName : Text) :
    validateIndex arg count argName = (place count arg argName).mapError .error := by
  cases arg with
  | num x => exact validateIndexValue_eq count (decode x) argName
  | null => rfl
  | bool b => rfl
  | obj address => rfl

theorem place_lt {count i : Nat} {arg : Value} {argName : Text}
    (h : place count arg argName = .ok i) : i < count := by
  cases arg with
  | num x =>
      have hvalid := validateIndexValue_eq count (decode x) argName
      rw [show index count (decode x) argName = .ok i from h] at hvalid
      obtain ⟨-, -, -, hlt⟩ := validateIndexValue_eq_ok_iff.mp hvalid
      exact hlt
  | null => cases h
  | bool b => cases h
  | obj address => cases h

/-- The slice from one index to another. -/
def Slice.between (first last : Nat) : Slice :=
  ⟨first, ((first : ℤ) - last).natAbs + 1, if first < last then 1 else -1⟩

theorem Slice.index_between {first last i : Nat} (hfirst : first < 2 ^ 31) (hlast : last < 2 ^ 31)
    (hi : i < (Slice.between first last).length) :
    (Slice.between first last).index i = if first < last then first + i else first - i := by
  unfold Slice.between Slice.index at *
  simp only at hi ⊢
  split <;> omega

/-- The elements from one index to another, in whichever direction. -/
def walk {α : Type} (l : List α) (first last : Nat) : List α :=
  if first ≤ last then (l.drop first).take (last + 1 - first)
  else ((l.drop last).take (first + 1 - last)).reverse

theorem walk_eq {α : Type} {l : List α} {first last : Nat} (hfirst : first < l.length)
    (hlast : last < l.length) (a : α) :
    walk l first last = (List.range (Slice.between first last).length).map fun i =>
      l.getD (if first < last then first + i else first - i) a := by
  rw [show (Slice.between first last).length = ((first : ℤ) - last).natAbs + 1 from rfl]
  unfold walk
  by_cases hle : first ≤ last
  · rw [if_pos hle]
    refine List.ext_getElem (by simp; omega) fun i hi hi' => ?_
    rw [List.length_map, List.length_range] at hi'
    have hindex : (if first < last then first + i else first - i) = first + i := by
      split <;> omega
    rw [List.getElem_take, List.getElem_drop, List.getElem_map, List.getElem_range, hindex,
      List.getD_eq_getElem _ _ (by omega)]
  · rw [if_neg hle]
    refine List.ext_getElem (by simp; omega) fun i hi hi' => ?_
    rw [List.length_map, List.length_range] at hi'
    have hlen : ((l.drop last).take (first + 1 - last)).length = first + 1 - last := by
      rw [List.length_take, List.length_drop]
      omega
    rw [List.getElem_reverse, List.getElem_take, List.getElem_drop, List.getElem_map,
      List.getElem_range, if_neg (by omega), List.getD_eq_getElem _ _ (by omega)]
    congr 1
    omega

theorem length_walk {α : Type} {l : List α} {first last : Nat} (hfirst : first < l.length)
    (hlast : last < l.length) : (walk l first last).length ≤ l.length := by
  unfold walk
  by_cases hle : first ≤ last
  · rw [if_pos hle, List.length_take, List.length_drop]
    omega
  · rw [if_neg hle, List.length_reverse, List.length_take, List.length_drop]
    omega

theorem mem_walk {α : Type} {l : List α} {first last : Nat} {a : α} (h : a ∈ walk l first last) :
    a ∈ l := by
  unfold walk at h
  by_cases hle : first ≤ last
  · rw [if_pos hle] at h
    exact List.mem_of_mem_drop (List.mem_of_mem_take h)
  · rw [if_neg hle, List.mem_reverse] at h
    exact List.mem_of_mem_drop (List.mem_of_mem_take h)

/-- The indices of a slice. -/
theorem Slice.indices_between {n first last : Nat} (hfirst : first < n) (hlast : last < n)
    (hn : n ≤ 2 ^ 31) :
    (List.range (Slice.between first last).length).map (Slice.between first last).index
      = walk (List.range n) first last := by
  rw [walk_eq (by simpa using hfirst) (by simpa using hlast) 0]
  refine List.map_congr_left fun i hi => ?_
  rw [List.mem_range] at hi
  have hlen : (Slice.between first last).length = ((first : ℤ) - last).natAbs + 1 := rfl
  rw [Slice.index_between (by omega) (by omega) hi]
  by_cases hlt : first < last
  · rw [if_pos hlt, List.getD_eq_getElem _ _ (by rw [List.length_range]; omega),
      List.getElem_range]
  · rw [if_neg hlt, List.getD_eq_getElem _ _ (by rw [List.length_range]; omega),
      List.getElem_range]

theorem distance_eq {first last : Nat} (hfirst : first < 2 ^ 31) (hlast : last < 2 ^ 31) :
    (BitVec.ofNat 32 first - BitVec.ofNat 32 last).toInt.natAbs
      = ((first : ℤ) - last).natAbs := by
  have htoInt : ∀ n : Nat, n < 2 ^ 31 → (BitVec.ofNat 32 n).toInt = n := by
    intro n hn
    rw [BitVec.toInt_eq_toNat_of_lt (by rw [BitVec.toNat_ofNat]; omega), BitVec.toNat_ofNat,
      Nat.mod_eq_of_lt (by omega)]
  rw [BitVec.toInt_sub, htoInt first hfirst, htoInt last hlast]
  refine congrArg Int.natAbs (Int.bmod_eq_of_le ?_ ?_) <;> omega

theorem lt_finite_zero (z : ℤ) : (Datum.finite z).lt (.finite 0) = decide (z < 0) := by
  have hlt := lt_finite z 0
  rwa [Int.cast_zero] at hlt

theorem lt_finite_count (z : ℤ) (n : Nat) :
    (Datum.finite z).lt (.finite n) = decide (z < n) := by
  have hlt := lt_finite z n
  rwa [Int.cast_natCast] at hlt

theorem checkEnd_finite (count : Nat) (z : ℤ) :
    (if (Datum.finite z).lt (.finite 0) = true ∨ ¬ (Datum.finite z).lt (.finite count) = true then
        throw (.error "Range end out of bounds.")
      else pure (some (Datum.finite z).toNat) : Result (Option Nat))
      = (some <$> inBounds count (some z) "Range end").mapError .error := by
  rw [lt_finite_zero, lt_finite_count, toNat_finite, inBounds_some]
  by_cases hz : 0 ≤ z ∧ z < count
  · rw [if_neg (by simpa using hz), if_pos hz]
    rfl
  · rw [if_pos (by simp only [decide_eq_true_eq]; omega), if_neg hz]
    rfl

/-- **The end of a range** that passes is the one the range stands for. -/
theorem calculateRangeEnd_eq {count first : Nat} (range : ObjRange) :
    calculateRangeEnd range count first = (rangeEnd count first range).mapError .error := by
  unfold calculateRangeEnd rangeEnd
  by_cases hint : (decode range.to_).isInteger = true
  · rcases isInteger_iff.mp hint with ⟨z, hz⟩ | ⟨negative, hn⟩
    · rw [hz, whole_finite]
      simp only [validateIntValue_finite, resolve_datum]
      by_cases hincl : range.isInclusive = true
      · simp only [hincl]
        exact checkEnd_finite count _
      · have heq : Datum.finite (resolve count z) = .finite first ↔ resolve count z = first := by
          rw [Datum.finite.injEq, ← Int.cast_natCast, Int.cast_inj]
        have hsome : some (resolve count z) = some (first : ℤ) ↔ resolve count z = first :=
          Option.some_inj
        simp only [hincl]
        show (if ¬ (false = true) ∧ Datum.finite (resolve count z) = .finite first then pure none
          else _ : Result (Option Nat)) = Except.mapError Failure.error
            (if some (resolve count z) = some (first : ℤ) then pure none
              else some <$> inBounds count (some (if resolve count z < first then
                resolve count z + 1 else resolve count z - 1)) "Range end")
        by_cases hw : resolve count z = first
        · rw [if_pos ⟨by simp, heq.mpr hw⟩, if_pos (hsome.mpr hw)]
          rfl
        · rw [if_neg fun h => hw (heq.mp h.2), if_neg fun h => hw (hsome.mp h), ← checkEnd_finite]
          have hshift : (Datum.finite (resolve count z)).add
              (if (Datum.finite (resolve count z)).lt (.finite first) then 1 else -1)
              = .finite ((if resolve count z < first then resolve count z + 1
                else resolve count z - 1 : ℤ) : ℚ) := by
            rw [lt_finite_count]
            unfold Datum.add
            by_cases hlt : resolve count z < first
            · rw [if_pos (by simpa using hlt), if_pos hlt, Int.cast_add, Int.cast_one]
            · rw [if_neg (by simpa using hlt), if_neg hlt, Int.cast_sub, Int.cast_one, sub_eq_add_neg]
          rw [← hshift]
          rfl
    · rw [hn]
      cases negative <;> cases range.isInclusive <;> rfl
  · rw [whole_of_not_isInteger hint]
    simp only [validateIntValue_eq, if_neg hint]
    rfl

/-- What a range comes to. -/
def SlicedAs (count : Nat) (r : Result Slice) : Except Text (Option (Nat × Nat)) → Prop
  | .error message => r = .error (.error message)
  | .ok none => ∃ start, r = .ok ⟨start, 0, 0⟩
  | .ok (some (first, last)) => first < count ∧ last < count ∧ r = .ok (Slice.between first last)

theorem index_lt {count i : Nat} {d : Datum} {argName : Text} (h : index count d argName = .ok i) :
    i < count := by
  have hvalid := validateIndexValue_eq count d argName
  rw [h] at hvalid
  obtain ⟨-, -, -, hlt⟩ := validateIndexValue_eq_ok_iff.mp hvalid
  exact hlt

theorem inBounds_lt {count i : Nat} {z : Option ℤ} {argName : Text}
    (h : inBounds count z argName = .ok i) : i < count := by
  cases z with
  | none => cases h
  | some z =>
      rw [inBounds_some] at h
      split at h
      · rw [Except.ok.injEq] at h
        omega
      · cases h

theorem rangeEnd_lt {count first last : Nat} {range : ObjRange}
    (h : rangeEnd count first range = .ok (some last)) : last < count := by
  have hmap : ∀ z, some <$> inBounds count z "Range end" = .ok (some last) → last < count := by
    intro z hz
    cases hin : inBounds count z "Range end" with
    | error message =>
        rw [hin] at hz
        cases hz
    | ok i =>
        rw [hin] at hz
        cases hz
        exact inBounds_lt hin
  unfold rangeEnd at h
  cases hwhole : whole (decode range.to_) "Range end" with
  | error message =>
      rw [hwhole] at h
      cases h
  | ok z =>
      rw [hwhole] at h
      simp only [Bind.bind, Except.bind] at h
      split at h
      · exact hmap _ h
      · split at h
        · cases h
        · exact hmap _ h

/-- **A range that passes** is the slice between two indices that there are, or empty. -/
theorem calculateRange_eq {count : Nat} (hcount : count ≤ 2 ^ 31) (range : ObjRange) :
    SlicedAs count (calculateRange range count) (span count range) := by
  unfold calculateRange span
  by_cases hedge : decode range.from_ = .finite count ∧
      decode range.to_ = .finite (if range.isInclusive then -1 else count)
  · rw [if_pos hedge, if_pos hedge]
    exact ⟨0, rfl⟩
  · rw [if_neg hedge, if_neg hedge, validateIndexValue_eq]
    cases hfirst : index count (decode range.from_) "Range start" with
    | error message => rfl
    | ok first =>
        show SlicedAs count (calculateRangeEnd range count first >>= _)
          (rangeEnd count first range >>= fun last => Except.ok (last.map fun last => (first, last)))
        rw [calculateRangeEnd_eq]
        cases hlast : rangeEnd count first range with
        | error message => rfl
        | ok last =>
            cases last with
            | none => exact ⟨first, rfl⟩
            | some last =>
                have hfirst' := index_lt hfirst
                have hlast' := rangeEnd_lt hlast
                refine ⟨hfirst', hlast', ?_⟩
                show Except.ok (Slice.mk first
                  ((BitVec.ofNat 32 first - BitVec.ofNat 32 last).toInt.natAbs + 1)
                    (if first < last then 1 else -1)) = _
                rw [distance_eq (by omega) (by omega)]
                rfl

/-! ### Loops -/

theorem range'_cons {i n : Nat} (h : i < n) :
    List.range' i (n - i) = i :: List.range' (i + 1) (n - (i + 1)) := by
  obtain ⟨m, hm⟩ : ∃ m, n - i = m + 1 := ⟨n - i - 1, by omega⟩
  rw [hm, List.range'_succ]
  congr 2
  omega

/-- What a loop goes through from an iterator on. -/
inductive Steps {α : Type} (iterate : Value → Result Value) (iteratorValue : Value → Result α) :
    Value → List α → Prop
  | done {iterator : Value} (h : iterate iterator = .ok (.bool false)) :
      Steps iterate iteratorValue iterator []
  | step {iterator : Value} {i : Nat} {element : α} {rest : List α}
      (h : iterate iterator = .ok (.num (ofNat i)))
      (hvalue : iteratorValue (.num (ofNat i)) = .ok element)
      (hrest : Steps iterate iteratorValue (.num (ofNat i)) rest) :
      Steps iterate iteratorValue iterator (element :: rest)

/-- **A loop with enough fuel** goes through all of it. -/
theorem Steps.forLoop_eq {α : Type} {iterate : Value → Result Value}
    {iteratorValue : Value → Result α} {iterator : Value} {elements : List α}
    (h : Steps iterate iteratorValue iterator elements) {fuel : Nat}
    (hfuel : elements.length < fuel) :
    forLoop iterate iteratorValue fuel iterator = .ok elements := by
  induction h generalizing fuel with
  | done h =>
      obtain ⟨fuel, rfl⟩ := Nat.exists_eq_succ_of_ne_zero (n := fuel) (by omega)
      unfold forLoop
      rw [h]
      rfl
  | @step iterator i element rest h hvalue hrest ih =>
      obtain ⟨fuel, rfl⟩ := Nat.exists_eq_succ_of_ne_zero (n := fuel) (by omega)
      rw [List.length_cons] at hfuel
      unfold forLoop
      rw [h]
      show (iteratorValue (.num (ofNat i)) >>= fun element =>
        forLoop iterate iteratorValue fuel (.num (ofNat i)) >>= fun rest =>
          Except.ok (element :: rest)) = _
      rw [hvalue, ih (by omega)]
      rfl

end WrenVM

end Wrenegade
