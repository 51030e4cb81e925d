/-
The two helpers are the same operation.

Written in two languages, they make the same calls in the same order: on every
state of the slots they leave the same contents behind, return the same values and
raise in the same cases.  Only the texts thrown differ.  For lists the loop of the
C++ side is shown to be the loop of the Haxe side, and the comparison goes by
induction on the fuel.

Enough fuel is there as soon as it exceeds the depth of the lists.  What has to be
watched is slot 0, which may itself hold the list that is being read: its content
gets less deep with every element brought there.
-/
import Wrenegade.Model.Helper

namespace Wrenegade

open Text Operation

variable {ν ω : Type}

/-- Errors of the same kind; the texts the helpers throw are their own. -/
inductive SlotError.Alike : SlotError → SlotError → Prop
  | assertion (message : Text) : Alike (.assertion message) (.assertion message)
  | outOfRange : Alike .outOfRange .outOfRange
  | thrown (message message' : Text) : Alike (.thrown message) (.thrown message')
  | outOfFuel : Alike .outOfFuel .outOfFuel

theorem SlotError.Alike.refl (e : SlotError) : Alike e e := by
  cases e with
  | assertion m => exact .assertion m
  | outOfRange => exact .outOfRange
  | thrown m => exact .thrown m m
  | outOfFuel => exact .outOfFuel

/-! ### The same calls -/

theorem saveToSlot_same (hx : Conversions ν ω) (slot : Int) (value : Dynamic ν ω)
    (type : ValueType) :
    Same SlotError.Alike (Helper.saveToSlot hx slot value type)
      (CppHelper.saveToSlot hx slot value type) := by
  cases type with
  | TNull => exact Same.refl SlotError.Alike.refl _
  | TInt => exact Same.refl SlotError.Alike.refl _
  | TFloat => exact Same.refl SlotError.Alike.refl _
  | TBool => exact Same.refl SlotError.Alike.refl _
  | TObject => exact Same.throw (.thrown _ _)
  | TFunction => exact Same.throw (.thrown _ _)
  | TClass c => cases c <;> exact Same.refl SlotError.Alike.refl _
  | TEnum e => exact Same.throw (.thrown _ _)
  | TUnknown => exact Same.refl SlotError.Alike.refl _

/-- The loop with a counter is the loop over the range. -/
theorem bucketLoop_eq (elem : Api ν ω (Dynamic ν ω)) (slot : Int) (n g : Nat)
    (bucket : List (Dynamic ν ω)) :
    CppHelper.bucketLoop elem slot (g + n) g bucket
      = (List.range' g n).foldlM (fun bucket i => do
          wrenGetListElement slot i 0
          let e ← elem
          pure (bucket ++ [e])) bucket := by
  induction n generalizing g bucket with
  | zero =>
      rw [CppHelper.bucketLoop, if_neg (by omega)]
      rfl
  | succ n ih =>
      rw [CppHelper.bucketLoop, if_pos (by omega), List.range'_succ, List.foldlM_cons]
      simp only [bind_assoc, pure_bind, Nat.add_sub_cancel]
      refine bind_congr fun _ => bind_congr fun e => ?_
      rw [show g + (n + 1) = g + 1 + n by omega]
      exact ih (g + 1) (bucket ++ [e])

theorem getFromSlot_same (fuel : Nat) (slot : Int) :
    Same SlotError.Alike (Helper.getFromSlot (ν := ν) (ω := ω) fuel slot)
      (CppHelper.getFromSlot fuel slot) := by
  have hrefl := SlotError.Alike.refl
  induction fuel generalizing slot with
  | zero => exact Same.refl hrefl _
  | succ fuel ih =>
      rw [Helper.getFromSlot, Helper.getValue, CppHelper.getFromSlot, map_eq_pure_bind, bind_assoc]
      refine Same.bind_left hrefl fun type => ?_
      rw [pure_bind]
      cases type with
      | WREN_TYPE_BOOL => exact Same.refl hrefl _
      | WREN_TYPE_NUM => exact Same.refl hrefl _
      | WREN_TYPE_FOREIGN => exact Same.refl hrefl _
      | WREN_TYPE_LIST =>
          refine Same.bind_left hrefl fun count => ?_
          refine Same.bind ?_ fun bucket => Same.refl hrefl _
          have hloop := bucketLoop_eq (CppHelper.getFromSlot (ν := ν) (ω := ω) fuel 0) slot count 0 []
          rw [Nat.zero_add] at hloop
          rw [hloop, List.range_eq_range']
          refine Same.foldlM (fun bucket i => ?_) hrefl _ _
          exact Same.bind_left hrefl fun _ => (ih 0).bind fun e => Same.refl hrefl _
      | WREN_TYPE_NULL => exact Same.refl hrefl _
      | WREN_TYPE_STRING => exact Same.refl hrefl _
      | WREN_TYPE_UNKNOWN => exact Same.throw (.thrown _ _)

/-! ### Depth -/

/-- No more than so many lists stand inside each other. -/
def WrenValue.Within : Nat → WrenValue ν ω → Prop
  | 0, .list _ => False
  | n + 1, .list elements => ∀ e ∈ elements, e.Within n
  | _, _ => True

theorem WrenValue.Within.succ {n : Nat} : ∀ {v : WrenValue ν ω}, v.Within n → v.Within (n + 1) := by
  induction n with
  | zero =>
      intro v h
      cases v with
      | list elements => exact h.elim
      | _ => trivial
  | succ n ih =>
      intro v h
      cases v with
      | list elements => exact fun e he => ih (h e he)
      | _ => trivial

theorem WrenValue.Within.mono {n m : Nat} (hnm : n ≤ m) {v : WrenValue ν ω} (h : v.Within n) :
    v.Within m := by
  induction hnm with
  | refl => exact h
  | step _ ih => exact ih.succ

/-- Many values, each within some depth, are within a common one. -/
theorem exists_common_depth {vs : List (WrenValue ν ω)} (h : ∀ v ∈ vs, ∃ n, v.Within n) :
    ∃ n, ∀ v ∈ vs, v.Within n := by
  induction vs with
  | nil => exact ⟨0, by simp⟩
  | cons v vs ih =>
      obtain ⟨n, hn⟩ := h v (by simp)
      obtain ⟨m, hm⟩ := ih fun w hw => h w (by simp [hw])
      refine ⟨max n m, fun w hw => ?_⟩
      rcases List.mem_cons.mp hw with rfl | hw
      · exact hn.mono (le_max_left n m)
      · exact (hm w hw).mono (le_max_right n m)

theorem WrenValue.exists_within : ∀ v : WrenValue ν ω, ∃ n, v.Within n
  | .bool _ => ⟨0, trivial⟩
  | .num _ => ⟨0, trivial⟩
  | .foreign _ => ⟨0, trivial⟩
  | .null => ⟨0, trivial⟩
  | .string _ => ⟨0, trivial⟩
  | .unknown => ⟨0, trivial⟩
  | .list elements => by
      obtain ⟨n, hn⟩ := exists_common_depth fun v (_ : v ∈ elements) => v.exists_within
      exact ⟨n + 1, hn⟩

/-! ### Enough fuel -/

/-- Reading a slot changes nothing. -/
theorem apply_apiStack (slot : Int) (s : Slots ν ω) : (apiStack slot).apply s =
    if slot < 0 then (.error (.assertion "Slot cannot be negative."), s)
    else match s[slot.toNat]? with
      | some v => (.ok v, s)
      | none => (.error (.assertion "Not that many slots."), s) := by
  show Op.apply (if slot < 0 then _ else _) s = _
  split
  · rfl
  · cases s[slot.toNat]? <;> rfl

theorem apiStack_cases (slot : Int) (s : Slots ν ω) :
    (∃ v, s[slot.toNat]? = some v ∧ (apiStack slot).apply s = (.ok v, s)) ∨
      ∃ m, (apiStack slot).apply s = (.error (.assertion m), s) := by
  rw [apply_apiStack]
  split
  · exact Or.inr ⟨_, rfl⟩
  · cases h : s[slot.toNat]? with
    | some v => exact Or.inl ⟨v, rfl, rfl⟩
    | none => exact Or.inr ⟨_, rfl⟩

/-- A read that fails otherwise than by assertion does not run out of fuel either. -/
theorem keeps_read {α : Type} {P : Slots ν ω → Prop} (slot : Int) (f : WrenValue ν ω → Api ν ω α)
    (hf : ∀ v, Keeps P (· = .outOfFuel) (f v)) :
    Keeps P (· = .outOfFuel) (apiStack slot >>= f) := by
  intro s hs
  rcases apiStack_cases slot s with ⟨v, -, happ⟩ | ⟨m, happ⟩
  · rw [apply_bind_ok happ]
    exact hf v s hs
  · rw [apply_bind_error happ]
    exact ⟨hs, fun e he => by cases he; simp⟩

/-- So the functions that read a slot and check what it holds do neither. -/
theorem keeps_wrenGetSlotType {P : Slots ν ω → Prop} (slot : Int) :
    Keeps P (· = .outOfFuel) (wrenGetSlotType (ν := ν) (ω := ω) slot) :=
  keeps_read slot _ fun v => by cases v <;> exact Keeps.pure _

theorem keeps_wrenGetSlotBool {P : Slots ν ω → Prop} (slot : Int) :
    Keeps P (· = .outOfFuel) (wrenGetSlotBool (ν := ν) (ω := ω) slot) :=
  keeps_read slot _ fun v => by
    cases v with
    | bool b => exact Keeps.pure b
    | _ => exact Keeps.throw (by simp)

theorem keeps_wrenGetSlotDouble {P : Slots ν ω → Prop} (slot : Int) :
    Keeps P (· = .outOfFuel) (wrenGetSlotDouble (ν := ν) (ω := ω) slot) :=
  keeps_read slot _ fun v => by
    cases v with
    | num x => exact Keeps.pure x
    | _ => exact Keeps.throw (by simp)

theorem keeps_wrenGetSlotForeign {P : Slots ν ω → Prop} (slot : Int) :
    Keeps P (· = .outOfFuel) (wrenGetSlotForeign (ν := ν) (ω := ω) slot) :=
  keeps_read slot _ fun v => by
    cases v with
    | foreign data => exact Keeps.pure data
    | _ => exact Keeps.throw (by simp)

theorem keeps_wrenGetSlotString {P : Slots ν ω → Prop} (slot : Int) :
    Keeps P (· = .outOfFuel) (wrenGetSlotString (ν := ν) (ω := ω) slot) :=
  keeps_read slot _ fun v => by
    cases v with
    | string text => exact Keeps.pure (cString text)
    | _ => exact Keeps.throw (by simp)

theorem keeps_wrenGetListCount {P : Slots ν ω → Prop} (slot : Int) :
    Keeps P (· = .outOfFuel) (wrenGetListCount (ν := ν) (ω := ω) slot) :=
  keeps_read slot _ fun v => by
    cases v with
    | list elements => exact Keeps.pure elements.length
    | _ => exact Keeps.throw (by simp)

/-- An element that is brought to slot 0 comes from a list in the slot. -/
theorem wrenGetListElement_cases (slot : Int) (i : Nat) (s : Slots ν ω) :
    (∃ elements e, s[slot.toNat]? = some (.list elements) ∧ e ∈ elements ∧
        (wrenGetListElement slot i 0).apply s = (.ok (), s.set 0 e)) ∨
      ∃ err, (wrenGetListElement slot i 0).apply s = (.error err, s) ∧ err ≠ .outOfFuel := by
  rw [wrenGetListElement]
  rcases apiStack_cases slot s with ⟨v, hv, happ⟩ | ⟨m, happ⟩
  · rw [apply_bind_ok happ]
    rcases apiStack_cases 0 s with ⟨w, -, happ⟩ | ⟨m, happ⟩
    · rw [apply_bind_ok happ]
      cases v with
      | list elements =>
          simp only
          cases he : elements[i]? with
          | some e => exact Or.inl ⟨elements, e, hv, List.mem_of_getElem? he, rfl⟩
          | none => exact Or.inr ⟨_, rfl, by simp⟩
      | _ => exact Or.inr ⟨_, rfl, by simp⟩
    · rw [apply_bind_error happ]
      exact Or.inr ⟨_, rfl, by simp⟩
  · rw [apply_bind_error happ]
    exact Or.inr ⟨_, rfl, by simp⟩

/-- The slots behind slot 0 are `rest`, and what the slot holds is within the depth. -/
def SlotWithin (rest : Slots ν ω) (slot : Nat) (n : Nat) (s : Slots ν ω) : Prop :=
  s.tail = rest ∧ ∀ v, s[slot]? = some v → v.Within n

/-- Only slot 0 changes, and another slot is as deep as it was. -/
theorem SlotWithin.after {rest s s' : Slots ν ω} {slot n : Nat} (h : SlotWithin rest slot (n + 1) s)
    (h' : SlotWithin rest 0 n s') : SlotWithin rest slot (n + 1) s' := by
  refine ⟨h'.1, fun v hv => ?_⟩
  cases slot with
  | zero => exact (h'.2 v hv).succ
  | succ k =>
      refine h.2 v ?_
      rw [← List.getElem?_tail, h.1, ← h'.1, List.getElem?_tail]
      exact hv

/-- The element is less deep than the list it comes from. -/
theorem SlotWithin.element {rest s : Slots ν ω} {slot n : Nat} (h : SlotWithin rest slot (n + 1) s)
    {elements : List (WrenValue ν ω)} {e : WrenValue ν ω} (hlist : s[slot]? = some (.list elements))
    (he : e ∈ elements) : SlotWithin rest 0 n (s.set 0 e) := by
  refine ⟨?_, fun v hv => ?_⟩
  · rw [← h.1]
    cases s <;> rfl
  · cases s with
    | nil => simp at hv
    | cons a s =>
        simp only [List.set_cons_zero, List.getElem?_cons_zero, Option.some.injEq] at hv
        rw [← hv]
        exact h.2 _ hlist e he

/-- An element is read out of the list in the slot with less fuel than the list. -/
theorem keeps_element {fuel n : Nat} {rest : Slots ν ω} {slot : Int}
    (hread : ∀ m, n = m + 1 → Keeps (SlotWithin rest 0 m) (· = .outOfFuel)
      (Helper.getValue (ν := ν) (ω := ω) fuel 0)) (bucket : List (Dynamic ν ω)) (i : Nat) :
    Keeps (SlotWithin rest slot.toNat n) (· = .outOfFuel)
      (do
        wrenGetListElement slot i 0
        let elem ← Helper.getValue (ν := ν) (ω := ω) fuel 0
        pure (bucket ++ [elem])) := by
  intro s hs
  rcases wrenGetListElement_cases slot i s with ⟨elements, e, hlist, he, happ⟩ | ⟨err, happ, herr⟩
  · rw [apply_bind_ok happ]
    cases n with
    | zero => exact (hs.2 _ hlist).elim
    | succ n =>
        obtain ⟨hP, hF⟩ := ((hread n rfl).bind fun elem => Keeps.pure (bucket ++ [elem])) _
          (hs.element hlist he)
        exact ⟨hs.after hP, hF⟩
  · rw [apply_bind_error happ]
    refine ⟨hs, fun e he => ?_⟩
    rw [Except.error.injEq] at he
    rw [← he]
    exact herr

/-- **With more fuel than depth a read does not run out of fuel.** -/
theorem getValue_keeps (fuel n : Nat) (hn : n < fuel) (rest : Slots ν ω) (slot : Int) :
    Keeps (SlotWithin rest slot.toNat n) (· = .outOfFuel)
      (Helper.getValue (ν := ν) (ω := ω) fuel slot) := by
  induction fuel generalizing n slot with
  | zero => omega
  | succ fuel ih =>
      rw [Helper.getValue]
      refine Keeps.bind ((keeps_wrenGetSlotType slot).map _) fun type => ?_
      by_cases hbool : type = Helper.WREN_TYPE_BOOL
      · rw [if_pos hbool]
        exact (keeps_wrenGetSlotBool slot).map _
      rw [if_neg hbool]
      by_cases hnum : type = Helper.WREN_TYPE_NUM
      · rw [if_pos hnum]
        exact (keeps_wrenGetSlotDouble slot).map _
      rw [if_neg hnum]
      by_cases hforeign : type = Helper.WREN_TYPE_FOREIGN
      · rw [if_pos hforeign]
        exact keeps_wrenGetSlotForeign slot
      rw [if_neg hforeign]
      by_cases hlist : type = Helper.WREN_TYPE_LIST
      · rw [if_pos hlist]
        exact (keeps_wrenGetListCount slot).bind fun count =>
          (Keeps.foldlM (keeps_element fun m hm => ih m (by omega) 0) _ _).bind fun bucket =>
            Keeps.pure _
      rw [if_neg hlist]
      by_cases hnull : type = Helper.WREN_TYPE_NULL
      · rw [if_pos hnull]
        exact Keeps.pure _
      rw [if_neg hnull]
      by_cases hstring : type = Helper.WREN_TYPE_STRING
      · rw [if_pos hstring]
        exact (keeps_wrenGetSlotString slot).map _
      rw [if_neg hstring]
      split
      · exact Keeps.throw (by simp)
      · exact Keeps.throw (by simp)

/-- A read that came to an end comes to the same with more fuel. -/
theorem getValue_extends (fuel : Nat) (slot : Int) :
    Extends (· = .outOfFuel) (Helper.getValue (ν := ν) (ω := ω) fuel slot)
      (Helper.getValue (fuel + 1) slot) := by
  induction fuel generalizing slot with
  | zero =>
      intro s hs
      exact absurd rfl (hs .outOfFuel rfl)
  | succ fuel ih =>
      rw [Helper.getValue, Helper.getValue]
      refine (Extends.refl _).bind fun type => ?_
      by_cases hlist : type = Helper.WREN_TYPE_LIST
      · subst hlist
        refine (Extends.refl _).bind fun count => Extends.bind ?_ fun bucket => Extends.refl _
        refine Extends.foldlM (fun bucket i => ?_) _ _
        exact (Extends.refl _).bind fun _ => (ih 0).bind fun elem => Extends.refl _
      · rw [if_neg hlist, if_neg hlist]
        exact Extends.refl _

theorem bucketLoop_extends {x y : Api ν ω (Dynamic ν ω)} (h : Extends (· = .outOfFuel) x y)
    (slot : Int) (count : Nat) :
    Extends (· = .outOfFuel) (CppHelper.bucketLoop x slot count 0 [])
      (CppHelper.bucketLoop y slot count 0 []) := by
  have hx := bucketLoop_eq x slot count 0 []
  have hy := bucketLoop_eq y slot count 0 []
  rw [Nat.zero_add] at hx hy
  rw [hx, hy]
  refine Extends.foldlM (fun bucket i => ?_) _ _
  exact (Extends.refl _).bind fun _ => h.bind fun elem => Extends.refl _

theorem getFromSlot_extends (fuel : Nat) (slot : Int) :
    Extends (· = .outOfFuel) (CppHelper.getFromSlot (ν := ν) (ω := ω) fuel slot)
      (CppHelper.getFromSlot (fuel + 1) slot) := by
  induction fuel generalizing slot with
  | zero =>
      intro s hs
      exact absurd rfl (hs .outOfFuel rfl)
  | succ fuel ih =>
      rw [CppHelper.getFromSlot, CppHelper.getFromSlot]
      refine (Extends.refl _).bind fun type => ?_
      cases type with
      | WREN_TYPE_LIST =>
          exact (Extends.refl _).bind fun count =>
            (bucketLoop_extends (ih 0) slot count).bind fun bucket => Extends.refl _
      | _ => exact Extends.refl _

/-! ### One operation -/

/-- What two runs on the same slots leave: the same contents, and the same value or errors
of one kind, not for want of fuel. -/
structure AgreeOn {α : Type} (x y : Except SlotError α × Slots ν ω) : Prop where
  outcome : SameOutcome SlotError.Alike x.1 y.1
  slots : x.2 = y.2
  fuel : x.1 ≠ .error .outOfFuel

theorem getFromSlot_agree (slots : Slots ν ω) (slot : Int) :
    ∃ r r', Settles (fun fuel => Helper.getFromSlot fuel slot) slots r ∧
      Settles (fun fuel => CppHelper.getFromSlot fuel slot) slots r' ∧ AgreeOn r r' := by
  obtain ⟨n, hn⟩ := exists_common_depth fun v (_ : v ∈ slots) => v.exists_within
  have hstart : SlotWithin slots.tail slot.toNat n slots :=
    ⟨rfl, fun v hv => hn v (List.mem_of_getElem? hv)⟩
  obtain ⟨hout, hslots⟩ := getFromSlot_same (n + 1) slot slots
  have hfuel := (getValue_keeps (n + 1) n (by omega) slots.tail slot slots hstart).2
  refine ⟨_, _, settles_of_extends (fun fuel => getValue_extends fuel slot) hfuel,
    settles_of_extends (fun fuel => getFromSlot_extends fuel slot) (n := n) ?_,
    hout, hslots, fun h => hfuel _ h rfl⟩
  -- the C++ side would run out of fuel only together with the Haxe side
  rintro e he rfl
  rw [he] at hout
  generalize hr : (Op.apply (Helper.getFromSlot (n + 1) slot) slots).1 = r at hout
  cases hout with
  | raised halike =>
      cases halike
      exact hfuel _ hr rfl

theorem saveToSlot_agree (hx : Conversions ν ω) (slots : Slots ν ω) (slot : Int)
    (value : Dynamic ν ω) (type : ValueType) :
    AgreeOn ((Helper.saveToSlot hx slot value type).apply slots)
      ((CppHelper.saveToSlot hx slot value type).apply slots) := by
  obtain ⟨hout, hslots⟩ := saveToSlot_same hx slot value type slots
  refine ⟨hout, hslots, ?_⟩
  have hset : ∀ w : WrenValue ν ω, ((setSlot slot w).apply slots).1 ≠ .error .outOfFuel := by
    intro w
    have hkeeps : Keeps (fun _ => True) (· = .outOfFuel) (setSlot (ν := ν) (ω := ω) slot w) :=
      keeps_read slot _ fun _ _ _ => ⟨trivial, fun _ he => nomatch he⟩
    exact fun h => (hkeeps slots trivial).2 _ h rfl
  cases type with
  | TNull => exact hset _
  | TInt => exact hset _
  | TFloat => exact hset _
  | TBool => exact hset _
  | TObject => exact fun h => nomatch h
  | TFunction => exact fun h => nomatch h
  | TClass c =>
      cases c with
      | String =>
          show ((wrenSetSlotString slot (hx.toCString value)).apply slots).1 ≠ _
          cases hx.toCString value with
          | none => exact fun h => nomatch h
          | some text => exact hset _
      | other name => exact fun h => nomatch h
  | TEnum e => exact fun h => nomatch h
  | TUnknown => exact hset _

/--
**The two helpers are the same operation.**  On every state of the slots and for every
slot both reads come to an end, with the same value or an error on both sides, and
leave the same contents; and for every value and value type so do both writes.
-/
theorem helpers_agree (hx : Conversions ν ω) (slots : Slots ν ω) (slot : Int) :
    (∃ r r', Settles (fun fuel => Helper.getFromSlot fuel slot) slots r ∧
      Settles (fun fuel => CppHelper.getFromSlot fuel slot) slots r' ∧ AgreeOn r r') ∧
    ∀ value type, AgreeOn ((Helper.saveToSlot hx slot value type).apply slots)
      ((CppHelper.saveToSlot hx slot value type).apply slots) :=
  ⟨getFromSlot_agree slots slot, saveToSlot_agree hx slots slot⟩

/-- A list of lists in slot 0 cannot be read: its first element takes its place. -/
example : ((Helper.getFromSlot (ν := Nat) (ω := Unit) 3 0).apply
    [.list [.list [.num 1], .num 2]]).1 matches .error (.assertion _) := by decide

/-- In another slot it can. -/
example : ((Helper.getFromSlot (ν := Nat) (ω := Unit) 3 1).apply
    [.null, .list [.list [.num 1], .num 2]]).1 matches .ok (.array [.array [.num 1], .num 2]) := by
  decide

end Wrenegade
