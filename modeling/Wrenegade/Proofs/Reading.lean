/-
What reading a slot does, in closed form.

`getFromSlot` brings every element of a list into slot 0 and reads it there.  From
any other slot this goes well as long as the elements are no lists of two or more,
but a list that itself lies in slot 0 is gone once its first element has been
brought in, so a second element is asked of whatever the first one left behind.

`readZero` says what a read of slot 0 returns and what it leaves there, by recursion
over the value, and `readSlot` says the same of all slots.  Both helpers do this, on
every state of the slots, with any fuel above the depth of the values.  Everything
that follows about reads is about these two functions.
-/
import Wrenegade.Proofs.Helper

namespace Wrenegade

open Text Operation

variable {ν ω : Type}

/-! ### The closed form -/

/-- What a read of slot 0 returns, if it returns, and what it leaves in the slot. -/
def readZero : WrenValue ν ω → Option (Dynamic ν ω) × WrenValue ν ω
  | .bool b => (some (.bool b), .bool b)
  | .num x => (some (.num x), .num x)
  | .foreign data => (some data, .foreign data)
  | .null => (some .null, .null)
  | .string text => (some (.string (cString text)), .string text)
  | .unknown => (none, .unknown)
  | .list [] => (some (.array []), .list [])
  | .list [e] => ((readZero e).1.map fun d => .array [d], (readZero e).2)
  | .list (e :: _ :: _) => (none, (readZero e).2)

/-- The elements of a list of another slot, read one after the other in slot 0, and what
stands there in the end; `zero` stood there before. -/
def readElements : List (WrenValue ν ω) → WrenValue ν ω →
    Option (List (Dynamic ν ω)) × WrenValue ν ω
  | [], zero => (some [], zero)
  | e :: es, _ =>
      match (readZero e).1 with
      | some d => ((readElements es (readZero e).2).1.map (d :: ·),
          (readElements es (readZero e).2).2)
      | none => (none, (readZero e).2)

/-- What a read of a slot returns, if it returns, and the slots it leaves. -/
def readSlot (slots : Slots ν ω) (slot : Nat) : Option (Dynamic ν ω) × Slots ν ω :=
  match slots, slots[slot]? with
  | zero :: rest, some (.list elements) =>
      if slot = 0 then
        ((readZero (.list elements)).1, (readZero (.list elements)).2 :: rest)
      else
        ((readElements elements zero).1.map .array, (readElements elements zero).2 :: rest)
  | _, some v => ((readZero v).1, slots)
  | _, none => (none, slots)

theorem readSlot_none {slots : Slots ν ω} {slot : Nat} (hv : slots[slot]? = none) :
    readSlot slots slot = (none, slots) := by
  unfold readSlot
  split
  · rename_i h
    rw [hv] at h
    cases h
  · rename_i h
    rw [hv] at h
    cases h
  · rfl

theorem readSlot_scalar {slots : Slots ν ω} {slot : Nat} {v : WrenValue ν ω}
    (hv : slots[slot]? = some v) (hlist : ∀ elements, v ≠ .list elements) :
    readSlot slots slot = ((readZero v).1, slots) := by
  unfold readSlot
  split
  · rename_i h
    rw [hv, Option.some.injEq] at h
    exact absurd h (hlist _)
  · rename_i h
    rw [hv, Option.some.injEq] at h
    rw [h]
  · rename_i h
    rw [hv] at h
    cases h

/-- A list in slot 0 is consumed. -/
theorem readSlot_zero (v : WrenValue ν ω) (rest : Slots ν ω) :
    readSlot (v :: rest) 0 = ((readZero v).1, (readZero v).2 :: rest) := by
  cases v with
  | list elements => rfl
  | _ => rfl

/-- A list in another slot is read through slot 0. -/
theorem readSlot_list {zero : WrenValue ν ω} {rest : Slots ν ω} {slot : Nat}
    {elements : List (WrenValue ν ω)} (hv : rest[slot]? = some (.list elements)) :
    readSlot (zero :: rest) (slot + 1)
      = ((readElements elements zero).1.map Dynamic.array,
          (readElements elements zero).2 :: rest) := by
  unfold readSlot
  rw [List.getElem?_cons_succ, hv]
  rfl

/-! ### One call -/

/-- The type of a value. -/
def WrenValue.type : WrenValue ν ω → WrenType
  | .bool _ => .WREN_TYPE_BOOL
  | .num _ => .WREN_TYPE_NUM
  | .foreign _ => .WREN_TYPE_FOREIGN
  | .list _ => .WREN_TYPE_LIST
  | .null => .WREN_TYPE_NULL
  | .string _ => .WREN_TYPE_STRING
  | .unknown => .WREN_TYPE_UNKNOWN

section Calls

variable {slots : Slots ν ω} {slot : Nat}

theorem apply_apiStack_of_get {v : WrenValue ν ω} (hv : slots[slot]? = some v) :
    (apiStack (slot : Int)).apply slots = (.ok v, slots) := by
  rw [apply_apiStack, if_neg (by omega), Int.toNat_natCast, hv]

theorem apply_apiStack_of_none (hv : slots[slot]? = none) :
    (apiStack (slot : Int)).apply slots = (.error (.assertion "Not that many slots."), slots) := by
  rw [apply_apiStack, if_neg (by omega), Int.toNat_natCast, hv]

theorem apply_wrenGetSlotType {v : WrenValue ν ω} (hv : slots[slot]? = some v) :
    (wrenGetSlotType (slot : Int)).apply slots = (.ok v.type, slots) := by
  unfold wrenGetSlotType
  rw [apply_bind_ok (apply_apiStack_of_get hv)]
  cases v <;> rfl

theorem apply_wrenGetListCount {elements : List (WrenValue ν ω)}
    (hv : slots[slot]? = some (.list elements)) :
    (wrenGetListCount (slot : Int)).apply slots = (.ok elements.length, slots) := by
  unfold wrenGetListCount
  rw [apply_bind_ok (apply_apiStack_of_get hv)]
  rfl

/-- An element is brought to slot 0. -/
theorem apply_wrenGetListElement {elements : List (WrenValue ν ω)} {zero : WrenValue ν ω}
    {rest : Slots ν ω} (hv : (zero :: rest)[slot]? = some (.list elements)) {i : Nat}
    {e : WrenValue ν ω} (he : elements[i]? = some e) :
    (wrenGetListElement (slot : Int) i 0).apply (zero :: rest) = (.ok (), e :: rest) := by
  have hzero : (apiStack (0 : Int)).apply (zero :: rest) = (.ok zero, zero :: rest) :=
    @apply_apiStack_of_get ν ω _ 0 zero rfl
  unfold wrenGetListElement
  rw [apply_bind_ok (apply_apiStack_of_get hv), apply_bind_ok hzero]
  simp only [he]
  rfl

/-- After a list in slot 0 has been left by its first element, it has no second one. -/
theorem apply_wrenGetListElement_left {left : WrenValue ν ω} (rest : Slots ν ω)
    (hleft : ∀ e es, left ≠ .list (e :: es)) (i : Nat) :
    ∃ err, (wrenGetListElement 0 i 0).apply (left :: rest) = (.error err, left :: rest) ∧
      err ≠ .outOfFuel := by
  have hzero : (apiStack (0 : Int)).apply (left :: rest) = (.ok left, left :: rest) :=
    @apply_apiStack_of_get ν ω _ 0 left rfl
  unfold wrenGetListElement
  rw [apply_bind_ok hzero, apply_bind_ok hzero]
  cases left with
  | list elements =>
      cases elements with
      | nil => exact ⟨_, rfl, by simp⟩
      | cons e es => exact absurd rfl (hleft e es)
  | _ => exact ⟨_, rfl, by simp⟩

end Calls

/-! ### The helper in Haxe -/

/-- What is left in slot 0 is no list with elements. -/
theorem readZero_left (v : WrenValue ν ω) : ∀ e es, (readZero v).2 ≠ .list (e :: es) := by
  induction v using readZero.induct with
  | case8 e ih => exact ih
  | case9 e _ _ ih => exact ih
  | _ => intro e es h; exact nomatch h

/-- An outcome, errors not told apart; none is for want of fuel. -/
inductive Gives {α : Type} : Except SlotError α → Option α → Prop
  | returned (a : α) : Gives (.ok a) (some a)
  | raised {e : SlotError} (h : e ≠ .outOfFuel) : Gives (.error e) none

theorem gives_ok {α : Type} {a : α} {o : Option α} : Gives (.ok a) o ↔ o = some a := by
  constructor
  · intro h
    cases h
    rfl
  · intro h
    rw [h]
    exact .returned a

theorem gives_error {α : Type} {e : SlotError} {o : Option α} :
    Gives (.error e) o ↔ o = none ∧ e ≠ .outOfFuel := by
  constructor
  · intro h
    cases h with
    | raised h => exact ⟨rfl, h⟩
  · intro h
    rw [h.1]
    exact .raised h.2

theorem Gives.map {α β : Type} {r : Except SlotError α} {o : Option α} (h : Gives r o)
    (f : α → β) : Gives (f <$> r) (o.map f) := by
  cases h with
  | returned a => exact .returned (f a)
  | raised h => exact .raised h

/-- One turn of the loop over the elements. -/
def bringElement (fuel : Nat) (slot : Int) (bucket : List (Dynamic ν ω)) (i : Nat) :
    Api ν ω (List (Dynamic ν ω)) := do
  wrenGetListElement slot i 0
  let elem ← Helper.getValue fuel 0
  pure (bucket ++ [elem])

section Haxe

variable {slots : Slots ν ω} {slot : Nat} (fuel : Nat)

theorem getValue_scalar {v : WrenValue ν ω} (hv : slots[slot]? = some v)
    (hlist : ∀ elements, v ≠ .list elements) :
    ∃ r, (Helper.getValue (fuel + 1) (slot : Int)).apply slots = (r, slots) ∧
      Gives r (readZero v).1 := by
  have hstack := apply_apiStack_of_get hv
  rw [Helper.getValue, map_eq_pure_bind, bind_assoc, apply_bind_ok (apply_wrenGetSlotType hv),
    pure_bind]
  cases v with
  | bool b =>
      refine ⟨_, ?_, Gives.returned (Dynamic.bool b)⟩
      show Op.apply (Dynamic.bool <$> wrenGetSlotBool (slot : Int)) slots = _
      rw [map_eq_pure_bind, wrenGetSlotBool, bind_assoc, apply_bind_ok hstack]
      rfl
  | num x =>
      refine ⟨_, ?_, Gives.returned (Dynamic.num x)⟩
      show Op.apply (Dynamic.num <$> wrenGetSlotDouble (slot : Int)) slots = _
      rw [map_eq_pure_bind, wrenGetSlotDouble, bind_assoc, apply_bind_ok hstack]
      rfl
  | foreign data =>
      refine ⟨_, ?_, Gives.returned data⟩
      show Op.apply (wrenGetSlotForeign (slot : Int)) slots = _
      rw [wrenGetSlotForeign, apply_bind_ok hstack]
      rfl
  | list elements => exact absurd rfl (hlist elements)
  | null => exact ⟨_, rfl, Gives.returned Dynamic.null⟩
  | string text =>
      refine ⟨_, ?_, Gives.returned (Dynamic.string (cString text))⟩
      show Op.apply (Dynamic.string <$> wrenGetSlotString (slot : Int)) slots = _
      rw [map_eq_pure_bind, wrenGetSlotString, bind_assoc, apply_bind_ok hstack]
      rfl
  | unknown => exact ⟨_, rfl, Gives.raised (by simp)⟩

theorem getValue_list {elements : List (WrenValue ν ω)}
    (hv : slots[slot]? = some (.list elements)) :
    (Helper.getValue (fuel + 1) (slot : Int)).apply slots =
      (Dynamic.array <$> (List.range' 0 elements.length).foldlM
        (bringElement fuel (slot : Int)) []).apply slots := by
  rw [Helper.getValue, map_eq_pure_bind, bind_assoc, apply_bind_ok (apply_wrenGetSlotType hv),
    pure_bind]
  show Op.apply (do
    let count ← wrenGetListCount (slot : Int)
    let bucket ← (List.range count).foldlM (bringElement fuel (slot : Int)) []
    pure (Dynamic.array bucket)) slots = _
  rw [apply_bind_ok (apply_wrenGetListCount hv), List.range_eq_range', map_eq_pure_bind]

/-- One turn, when the element can be read. -/
theorem bringElement_apply {elements : List (WrenValue ν ω)} {zero e : WrenValue ν ω}
    {rest : Slots ν ω} (hv : (zero :: rest)[slot]? = some (.list elements)) {i : Nat}
    (he : elements[i]? = some e) {left : WrenValue ν ω} {r : Except SlotError (Dynamic ν ω)}
    (hread : (Helper.getValue fuel 0).apply (e :: rest) = (r, left :: rest))
    (bucket : List (Dynamic ν ω)) :
    (bringElement fuel (slot : Int) bucket i).apply (zero :: rest)
      = ((fun d => bucket ++ [d]) <$> r, left :: rest) := by
  unfold bringElement
  rw [apply_bind_ok (apply_wrenGetListElement hv he)]
  cases r with
  | ok d =>
      rw [apply_bind_ok hread]
      rfl
  | error err =>
      rw [apply_bind_error hread]
      rfl

end Haxe

/-- **A read of slot 0 does what `readZero` says**, with any fuel above the depth. -/
theorem getValue_zero (fuel n : Nat) (hn : n < fuel) (v : WrenValue ν ω) (hv : v.Within n)
    (rest : Slots ν ω) :
    ∃ r, (Helper.getValue fuel 0).apply (v :: rest) = (r, (readZero v).2 :: rest) ∧
      Gives r (readZero v).1 := by
  induction fuel generalizing n v with
  | zero => omega
  | succ fuel ih =>
      have hget : (v :: rest)[0]? = some v := rfl
      by_cases hlist : ∃ elements, v = .list elements
      · obtain ⟨elements, rfl⟩ := hlist
        cases n with
        | zero => exact hv.elim
        | succ n =>
            have heq := getValue_list fuel hget
            rw [Nat.cast_zero] at heq
            rw [heq, map_eq_pure_bind]
            cases elements with
            | nil => exact ⟨_, rfl, Gives.returned (Dynamic.array [])⟩
            | cons e es =>
                -- the first element takes the place of the list
                obtain ⟨r, happ, hr⟩ := ih n (by omega) e (hv e (by simp))
                have hturn := @bringElement_apply ν ω 0 fuel _ _ _ _ hget 0 rfl _ _ happ []
                rw [Nat.cast_zero] at hturn
                rw [List.length_cons, List.range'_succ, List.foldlM_cons, bind_assoc]
                cases r with
                | error err =>
                    rw [apply_bind_error hturn]
                    obtain ⟨hnone, herr⟩ := gives_error.mp hr
                    cases es with
                    | nil =>
                        refine ⟨_, rfl, ?_⟩
                        rw [readZero, hnone]
                        exact .raised herr
                    | cons e' es => exact ⟨_, rfl, .raised herr⟩
                | ok d =>
                    rw [apply_bind_ok hturn]
                    have hsome := gives_ok.mp hr
                    cases es with
                    | nil =>
                        refine ⟨_, rfl, ?_⟩
                        rw [readZero, hsome]
                        exact .returned _
                    | cons e' es =>
                        obtain ⟨err, hfail, herr⟩ :=
                          apply_wrenGetListElement_left rest (readZero_left e) 1
                        refine ⟨.error err, ?_, .raised herr⟩
                        rw [List.length_cons, List.range'_succ, List.foldlM_cons, bind_assoc,
                          bringElement, bind_assoc, apply_bind_error hfail]
                        rfl
      · have h := getValue_scalar fuel hget fun elements h => hlist ⟨elements, h⟩
        obtain ⟨r, happ, hr⟩ := h
        rw [Nat.cast_zero] at happ
        refine ⟨r, ?_, hr⟩
        rw [happ]
        cases v with
        | list elements => exact absurd ⟨elements, rfl⟩ hlist
        | _ => rfl

/-- The loop over the elements of a list in another slot, from some element on. -/
theorem bringElements_apply (fuel n : Nat) (hn : n < fuel) {slot : Nat} {rest : Slots ν ω}
    {elements : List (WrenValue ν ω)} (hv : rest[slot]? = some (.list elements)) :
    ∀ (todo read : List (WrenValue ν ω)) (zero : WrenValue ν ω) (bucket : List (Dynamic ν ω)),
      elements = read ++ todo → (∀ e ∈ todo, e.Within n) →
      ∃ r, ((List.range' read.length todo.length).foldlM
          (bringElement fuel ((slot + 1 : Nat) : Int)) bucket).apply (zero :: rest)
            = (r, (readElements todo zero).2 :: rest) ∧
        Gives r ((readElements todo zero).1.map (bucket ++ ·)) := by
  intro todo
  induction todo with
  | nil =>
      intro read zero bucket _ _
      refine ⟨_, rfl, ?_⟩
      have hnil : bucket ++ [] = bucket := List.append_nil bucket
      rw [readElements, Option.map_some, hnil]
      exact .returned bucket
  | cons e todo ih =>
      intro read zero bucket hsplit hdepth
      have he : elements[read.length]? = some e := by
        rw [hsplit]
        simp
      obtain ⟨r, happ, hr⟩ := getValue_zero fuel n hn e (hdepth e (by simp)) rest
      have hget : (zero :: rest)[slot + 1]? = some (.list elements) := hv
      have hturn := bringElement_apply fuel hget he happ bucket
      rw [List.length_cons, List.range'_succ, List.foldlM_cons]
      cases r with
      | error err =>
          obtain ⟨hnone, herr⟩ := gives_error.mp hr
          rw [apply_bind_error hturn, readElements, hnone]
          exact ⟨_, rfl, .raised herr⟩
      | ok d =>
          rw [apply_bind_ok hturn, readElements, gives_ok.mp hr]
          have hlen : (read ++ [e]).length = read.length + 1 := by simp
          obtain ⟨r', happ', hr'⟩ := ih (read ++ [e]) (readZero e).2 (bucket ++ [d])
            (by rw [hsplit]; simp) fun x hx => hdepth x (by simp [hx])
          rw [hlen] at happ'
          refine ⟨r', happ', ?_⟩
          have hbucket : ((readElements todo (readZero e).2).1.map (d :: ·)).map (bucket ++ ·)
              = (readElements todo (readZero e).2).1.map ((bucket ++ [d]) ++ ·) := by
            rw [Option.map_map]
            congr 1
            funext ds
            simp
          rw [hbucket]
          exact hr'

theorem getValue_none {slots : Slots ν ω} {slot : Nat} (hv : slots[slot]? = none) (fuel : Nat) :
    (Helper.getValue (fuel + 1) (slot : Int)).apply slots
      = (.error (.assertion "Not that many slots."), slots) := by
  rw [Helper.getValue, map_eq_pure_bind, bind_assoc, wrenGetSlotType, bind_assoc,
    apply_bind_error (apply_apiStack_of_none hv)]

/-- **A read of any slot does what `readSlot` says.** -/
theorem getFromSlot_readSlot (fuel n : Nat) (hn : n < fuel) (slots : Slots ν ω)
    (hdepth : ∀ v ∈ slots, v.Within n) (slot : Nat) :
    ∃ r, (Helper.getFromSlot fuel (slot : Int)).apply slots = (r, (readSlot slots slot).2) ∧
      Gives r (readSlot slots slot).1 := by
  unfold Helper.getFromSlot
  obtain ⟨fuel, rfl⟩ : ∃ k, fuel = k + 1 := ⟨fuel - 1, by omega⟩
  cases hv : slots[slot]? with
  | none =>
      rw [readSlot_none hv, getValue_none hv]
      exact ⟨_, rfl, .raised (by simp)⟩
  | some v =>
      by_cases hlist : ∃ elements, v = .list elements
      · obtain ⟨elements, rfl⟩ := hlist
        have hwithin : (WrenValue.list elements).Within n := hdepth _ (List.mem_of_getElem? hv)
        obtain ⟨zero, rest, rfl⟩ := List.exists_cons_of_ne_nil
          (List.ne_nil_of_mem (List.mem_of_getElem? hv))
        cases slot with
        | zero =>
            rw [readSlot_zero]
            exact getValue_zero (fuel + 1) n hn zero (hdepth zero (by simp)) rest
        | succ slot =>
            have hv' : rest[slot]? = some (.list elements) := hv
            obtain ⟨n, rfl⟩ : ∃ k, n = k + 1 := by
              cases n with
              | zero => exact hwithin.elim
              | succ n => exact ⟨n, rfl⟩
            obtain ⟨r, happ, hr⟩ := bringElements_apply fuel n (by omega) hv'
              elements [] zero [] rfl hwithin
            have happ : (List.foldlM (bringElement fuel ((slot + 1 : Nat) : Int)) []
                (List.range' 0 elements.length)).apply (zero :: rest)
                = (r, (readElements elements zero).2 :: rest) := happ
            have hout : (readElements elements zero).1.map ([] ++ ·)
                = (readElements elements zero).1 := by
              cases (readElements elements zero).1 <;> rfl
            rw [hout] at hr
            rw [readSlot_list hv', getValue_list fuel hv, map_eq_pure_bind]
            refine ⟨Dynamic.array <$> r, ?_, hr.map Dynamic.array⟩
            cases r with
            | ok ds =>
                rw [apply_bind_ok happ]
                rfl
            | error err =>
                rw [apply_bind_error happ]
                rfl
      · have hscalar : ∀ elements, v ≠ .list elements := fun elements h => hlist ⟨elements, h⟩
        rw [readSlot_scalar hv hscalar]
        exact getValue_scalar fuel hv hscalar

/-! ### Both helpers -/

/-- With enough fuel the read returns so, or raises where nothing is returned, and leaves
these slots. -/
def Reads (read : Nat → Int → Api ν ω (Dynamic ν ω)) (slots : Slots ν ω) (slot : Nat)
    (o : Option (Dynamic ν ω) × Slots ν ω) : Prop :=
  ∃ r, Settles (fun fuel => read fuel (slot : Int)) slots (r, o.2) ∧ Gives r o.1

theorem settles_unique {ε σ α : Type} {x : Nat → Op ε σ α} {s : σ} {r r' : Except ε α × σ}
    (h : Settles x s r) (h' : Settles x s r') : r = r' := by
  obtain ⟨n, hn⟩ := h
  obtain ⟨m, hm⟩ := h'
  rw [← hn (n + m + 1) (by omega), hm (n + m + 1) (by omega)]

theorem Reads.unique {read : Nat → Int → Api ν ω (Dynamic ν ω)} {slots : Slots ν ω} {slot : Nat}
    {o o' : Option (Dynamic ν ω) × Slots ν ω} (h : Reads read slots slot o)
    (h' : Reads read slots slot o') : o = o' := by
  obtain ⟨r, hs, hg⟩ := h
  obtain ⟨r', hs', hg'⟩ := h'
  obtain ⟨rfl, hslots⟩ := Prod.mk.inj (settles_unique hs hs')
  refine Prod.ext ?_ hslots
  cases r with
  | ok a => rw [gives_ok.mp hg, gives_ok.mp hg']
  | error e => rw [(gives_error.mp hg).1, (gives_error.mp hg').1]

/-- **Both helpers read as `readSlot` says.** -/
theorem reads_readSlot (slots : Slots ν ω) (slot : Nat) :
    Reads Helper.getFromSlot slots slot (readSlot slots slot) ∧
      Reads CppHelper.getFromSlot slots slot (readSlot slots slot) := by
  obtain ⟨n, hn⟩ := exists_common_depth fun v (_ : v ∈ slots) => v.exists_within
  obtain ⟨r, r', hs, hs', hagree⟩ := getFromSlot_agree slots (slot : Int)
  obtain ⟨m, hm⟩ := hs
  obtain ⟨q, happ, hgives⟩ := getFromSlot_readSlot (n + m + 1) n (by omega) slots hn slot
  have hr : r = (q, (readSlot slots slot).2) := by rw [← hm (n + m + 1) (by omega), happ]
  subst hr
  have hcpp : Gives r'.1 (readSlot slots slot).1 := by
    have hout := hagree.outcome
    generalize r'.1 = q' at hout
    cases hout with
    | returned a => exact hgives
    | raised halike =>
        obtain ⟨hnone, hfuel⟩ := gives_error.mp hgives
        refine gives_error.mpr ⟨hnone, ?_⟩
        rintro rfl
        cases halike
        exact hfuel rfl
  refine ⟨⟨q, ⟨m, hm⟩, hgives⟩, ⟨r'.1, ?_, hcpp⟩⟩
  have hslots : r' = (r'.1, (readSlot slots slot).2) := Prod.ext rfl hagree.slots.symm
  rw [hslots] at hs'
  exact hs'

end Wrenegade
