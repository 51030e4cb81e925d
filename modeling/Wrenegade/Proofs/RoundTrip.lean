/-
What survives being saved to a slot and read back.

`saveToSlot` has one of three effects, told by the value alone: it stores a Wren
value, it throws, or it returns having done nothing.  The last is what happens to
every instance of a class other than `String`, arrays among them, since the switch
over the class has a single case; the slot then still holds what it held.

A value round-trips, whatever the slot held, exactly if it is none of these and,
being a string, has no NUL in it.
-/
import Wrenegade.Proofs.Decoding

namespace Wrenegade

open Text Operation

variable {ν ω : Type}

/-! ### What a save does -/

/-- The effect of saving a value. -/
inductive Saving (ν ω : Type)
  | stores (w : WrenValue ν ω)
  | keeps
  | throws

def Runtime.saving (rt : Runtime ν ω) : Dynamic ν ω → Saving ν ω
  | .null => .stores .null
  | .bool b => .stores (.bool b)
  | .num x => .stores (.num x)
  | .string text => .stores (.string (cString text))
  | .array _ => .keeps
  | .object o =>
      match rt.kind o with
      | .instance_ _ => .keeps
      | _ => .throws

/-- The outcome on the slots is the one with this effect. -/
def Saving.Does (effect : Saving ν ω) (slots : Slots ν ω) (slot : Nat)
    (r : Except SlotError Unit × Slots ν ω) : Prop :=
  match effect with
  | .stores w => r = (.ok (), slots.set slot w)
  | .keeps => r = (.ok (), slots)
  | .throws => ∃ m, r = (.error (.thrown m), slots)

theorem saving_object (rt : Runtime ν ω) (o : ω) : rt.saving (.object o) =
    match rt.kind o with
    | .instance_ _ => .keeps
    | _ => .throws := rfl

theorem typeof_object (rt : Runtime ν ω) (o : ω) : rt.typeof (.object o) =
    match rt.kind o with
    | .anonymous => .TObject
    | .function => .TFunction
    | .instance_ c => .TClass (.other c)
    | .enum e => .TEnum e := rfl

theorem apply_setSlot {slots : Slots ν ω} {slot : Nat} (hslot : slot < slots.length)
    (w : WrenValue ν ω) :
    (setSlot (slot : Int) w).apply slots = (.ok (), slots.set slot w) := by
  unfold setSlot
  rw [apply_bind_ok (apply_apiStack_of_get (List.getElem?_eq_getElem hslot))]
  rfl

/-- **Every save has the effect its value tells.** -/
theorem saveToSlot_saving {hx : Conversions ν ω} (hlaw : hx.Lawful) (rt : Runtime ν ω)
    {slots : Slots ν ω} {slot : Nat} (hslot : slot < slots.length) (v : Dynamic ν ω) :
    (rt.saving v).Does slots slot
      ((Helper.saveToSlot hx (slot : Int) v (rt.typeof v)).apply slots) := by
  have hset := apply_setSlot hslot
  cases v with
  | null => exact hset .null
  | bool b =>
      show (wrenSetSlotBool (slot : Int) (hx.toBool (.bool b))).apply slots = _
      rw [hlaw.toBool]
      exact hset (.bool b)
  | num x =>
      have hdouble : (wrenSetSlotDouble (slot : Int) (hx.toFloat (.num x))).apply slots
          = (.ok (), slots.set slot (.num x)) := by
        rw [hlaw.toFloat]
        exact hset (.num x)
      have htype : rt.typeof (.num x) = if rt.isInt x then .TInt else .TFloat := rfl
      by_cases hint : rt.isInt x = true
      · rw [htype, if_pos hint]
        exact hdouble
      · rw [htype, if_neg hint]
        exact hdouble
  | string text =>
      show (wrenSetSlotString (slot : Int) (hx.toCString (.string text))).apply slots = _
      rw [hlaw.toCString]
      exact hset (.string (cString text))
  | array elements => rfl
  | object o =>
      rw [saving_object, typeof_object]
      cases rt.kind o with
      | instance_ c => rfl
      | anonymous => exact ⟨_, rfl⟩
      | function => exact ⟨_, rfl⟩
      | enum e => exact ⟨_, rfl⟩

/-- The helper in C++ has the same effect. -/
theorem saveToSlot_saving_cpp {hx : Conversions ν ω} (hlaw : hx.Lawful) (rt : Runtime ν ω)
    {slots : Slots ν ω} {slot : Nat} (hslot : slot < slots.length) (v : Dynamic ν ω) :
    (rt.saving v).Does slots slot
      ((CppHelper.saveToSlot hx (slot : Int) v (rt.typeof v)).apply slots) := by
  have h := saveToSlot_saving hlaw rt hslot v
  obtain ⟨hout, hslots⟩ := saveToSlot_same hx (slot : Int) v (rt.typeof v) slots
  generalize hr : (Helper.saveToSlot hx (slot : Int) v (rt.typeof v)).apply slots = r at h hout hslots
  generalize (CppHelper.saveToSlot hx (slot : Int) v (rt.typeof v)).apply slots = r' at hout hslots
  obtain ⟨r₁, s₁⟩ := r
  obtain ⟨r₁', s₁'⟩ := r'
  simp only at hout hslots
  subst hslots
  cases hs : rt.saving v with
  | stores w =>
      rw [hs] at h
      obtain ⟨rfl, rfl⟩ := Prod.mk.inj h
      cases hout
      rfl
  | keeps =>
      rw [hs] at h
      obtain ⟨rfl, rfl⟩ := Prod.mk.inj h
      cases hout
      rfl
  | throws =>
      rw [hs] at h
      obtain ⟨m, h⟩ := h
      obtain ⟨rfl, rfl⟩ := Prod.mk.inj h
      cases hout with
      | raised halike =>
          cases halike with
          | thrown _ m' => exact ⟨m', rfl⟩

/-! ### Saved and read back -/

/-- The values a script can be given: null, booleans, numbers, strings, arrays of such
values, and instances of the classes that are bound. -/
inductive Dynamic.HasWren (rt : Runtime ν ω) (bound : Text → Prop) : Dynamic ν ω → Prop
  | null : HasWren rt bound .null
  | bool (b : Bool) : HasWren rt bound (.bool b)
  | num (x : ν) : HasWren rt bound (.num x)
  | string (text : Text) : HasWren rt bound (.string text)
  | array {elements : List (Dynamic ν ω)} (h : ∀ e ∈ elements, HasWren rt bound e) :
      HasWren rt bound (.array elements)
  | object {o : ω} {c : Text} (hkind : rt.kind o = .instance_ c) (hbound : bound c) :
      HasWren rt bound (.object o)

/-- A helper that saves, and the one that reads. -/
structure SlotHelper (ν ω : Type) where
  save : Int → Dynamic ν ω → ValueType → Api ν ω Unit
  read : Nat → Int → Api ν ω (Dynamic ν ω)

/-- The value round-trips through every slot, over any old content: a save that returns has
stored something the read gives back, and one that throws had no other choice and changed
nothing. -/
structure RoundTrips (helper : SlotHelper ν ω) (rt : Runtime ν ω) (bound : Text → Prop)
    (v : Dynamic ν ω) : Prop where
  back : ∀ (slots : Slots ν ω) (slot : Nat) (slots' : Slots ν ω), slot < slots.length →
    (helper.save (slot : Int) v (rt.typeof v)).apply slots = (.ok (), slots') →
      ∃ left, Reads helper.read slots' slot (some v, left)
  refused : ¬ v.HasWren rt bound → ∀ (slots : Slots ν ω) (slot : Nat), slot < slots.length →
    ∃ e, (helper.save (slot : Int) v (rt.typeof v)).apply slots = (.error e, slots)
  stored : ∃ w : WrenValue ν ω, ∀ (slots : Slots ν ω) (slot : Nat) (slots' : Slots ν ω),
    slot < slots.length →
    (helper.save (slot : Int) v (rt.typeof v)).apply slots = (.ok (), slots') →
      slots' = slots.set slot w

/-- Neither an instance of a class other than `String`, nor a string with a NUL. -/
def Storable (rt : Runtime ν ω) : Dynamic ν ω → Prop
  | .array _ => False
  | .string text => '\x00' ∉ text
  | .object o => ∀ c, rt.kind o ≠ .instance_ c
  | _ => True

/-- A helper that does what saves and reads do. -/
structure SlotHelper.Sound (helper : SlotHelper ν ω) (rt : Runtime ν ω) : Prop where
  save : ∀ {slots : Slots ν ω} {slot : Nat}, slot < slots.length → ∀ v,
    (rt.saving v).Does slots slot ((helper.save (slot : Int) v (rt.typeof v)).apply slots)
  read : ∀ (slots : Slots ν ω) (slot : Nat), Reads helper.read slots slot (readSlot slots slot)

section Sound

variable {helper : SlotHelper ν ω} {rt : Runtime ν ω} {bound : Text → Prop} {v : Dynamic ν ω}

/-- A value that is stored round-trips if the read of slot gives it back. -/
theorem roundTrips_of_stores (hsound : helper.Sound rt) {w : WrenValue ν ω}
    (hstores : rt.saving v = .stores w) (hlist : ∀ elements, w ≠ .list elements)
    (hwren : v.HasWren rt bound) :
    RoundTrips helper rt bound v ↔ (readZero w).1 = some v := by
  have hsave : ∀ {slots : Slots ν ω} {slot : Nat}, slot < slots.length →
      (helper.save (slot : Int) v (rt.typeof v)).apply slots = (.ok (), slots.set slot w) := by
    intro slots slot hslot
    have h := hsound.save hslot v
    rw [hstores] at h
    exact h
  have hread : ∀ {slots : Slots ν ω} {slot : Nat}, slot < slots.length →
      readSlot (slots.set slot w) slot = ((readZero w).1, slots.set slot w) := by
    intro slots slot hslot
    exact readSlot_scalar (List.getElem?_set_self hslot) hlist
  constructor
  · intro h
    have hone : 0 < [(WrenValue.null : WrenValue ν ω)].length := by simp
    obtain ⟨left, hback⟩ := h.back _ 0 _ hone (hsave hone)
    have heq := hback.unique (hsound.read _ 0)
    rw [hread hone] at heq
    exact (congrArg Prod.fst heq).symm
  · intro h
    refine ⟨fun slots slot slots' hslot happ => ?_, fun hno => absurd hwren hno,
      ⟨w, fun slots slot slots' hslot happ => ?_⟩⟩
    · rw [hsave hslot, Prod.mk.injEq] at happ
      rw [← happ.2]
      have hres := hsound.read (slots.set slot w) slot
      rw [hread hslot, h] at hres
      exact ⟨_, hres⟩
    · rw [hsave hslot, Prod.mk.injEq] at happ
      exact happ.2.symm

/-- A value that is passed over does not: what was in the slot is read back. -/
theorem not_roundTrips_of_keeps (hsound : helper.Sound rt) (hkeeps : rt.saving v = .keeps)
    (hnull : v ≠ .null) : ¬ RoundTrips helper rt bound v := by
  intro h
  have hone : 0 < [(WrenValue.null : WrenValue ν ω)].length := by simp
  have hsave := hsound.save hone v
  rw [hkeeps] at hsave
  obtain ⟨left, hback⟩ := h.back _ 0 _ hone hsave
  have heq := hback.unique (hsound.read _ 0)
  exact hnull (Option.some.inj (congrArg Prod.fst heq))

/-- One that is refused does, having no counterpart. -/
theorem roundTrips_of_throws (hsound : helper.Sound rt) (hthrows : rt.saving v = .throws) :
    RoundTrips helper rt bound v := by
  have hsave : ∀ {slots : Slots ν ω} {slot : Nat}, slot < slots.length →
      ∃ m, (helper.save (slot : Int) v (rt.typeof v)).apply slots
        = (.error (.thrown m), slots) := by
    intro slots slot hslot
    have h := hsound.save hslot v
    rw [hthrows] at h
    exact h
  refine ⟨fun slots slot slots' hslot happ => ?_, fun _ slots slot hslot => ?_,
    ⟨.null, fun slots slot slots' hslot happ => ?_⟩⟩
  · obtain ⟨m, hm⟩ := hsave hslot
    rw [hm] at happ
    cases happ
  · obtain ⟨m, hm⟩ := hsave hslot
    exact ⟨_, hm⟩
  · obtain ⟨m, hm⟩ := hsave hslot
    rw [hm] at happ
    cases happ

theorem roundTrips_iff_storable (hsound : helper.Sound rt) (v : Dynamic ν ω) :
    RoundTrips helper rt bound v ↔ Storable rt v := by
  cases v with
  | null =>
      rw [roundTrips_of_stores hsound rfl (by simp) .null]
      exact ⟨fun _ => trivial, fun _ => rfl⟩
  | bool b =>
      rw [roundTrips_of_stores hsound rfl (by simp) (.bool b)]
      exact ⟨fun _ => trivial, fun _ => rfl⟩
  | num x =>
      rw [roundTrips_of_stores hsound rfl (by simp) (.num x)]
      exact ⟨fun _ => trivial, fun _ => rfl⟩
  | string text =>
      rw [roundTrips_of_stores hsound rfl (by simp) (.string text), readZero, Option.some.injEq,
        Dynamic.string.injEq, Storable]
      -- the text is cut when it is stored, so the read cuts nothing more
      have hcut : cString (cString text) = cString text := by
        rw [cString_eq_iff]
        intro hmem
        have hne := List.mem_takeWhile_imp hmem
        simp at hne
      rw [hcut, cString_eq_iff]
  | array elements =>
      exact ⟨fun h => absurd h (not_roundTrips_of_keeps hsound rfl (by simp)), fun h => h.elim⟩
  | object o =>
      cases hkind : rt.kind o with
      | instance_ c =>
          have hkeeps : rt.saving (.object o) = .keeps := by rw [saving_object, hkind]
          exact ⟨fun h => absurd h (not_roundTrips_of_keeps hsound hkeeps (by simp)),
            fun h => absurd hkind (h c)⟩
      | _ =>
          have hthrows : rt.saving (.object o) = .throws := by rw [saving_object, hkind]
          refine ⟨fun _ c => ?_, fun _ => roundTrips_of_throws hsound hthrows⟩
          rw [hkind]
          intro heq
          cases heq

end Sound

/-- The helper in Haxe, and the one in C++. -/
def haxeHelper (hx : Conversions ν ω) : SlotHelper ν ω :=
  { save := Helper.saveToSlot hx, read := Helper.getFromSlot }

def cppHelper (hx : Conversions ν ω) : SlotHelper ν ω :=
  { save := CppHelper.saveToSlot hx, read := CppHelper.getFromSlot }

theorem haxeHelper_sound {hx : Conversions ν ω} (hlaw : hx.Lawful) (rt : Runtime ν ω) :
    (haxeHelper hx).Sound rt :=
  ⟨saveToSlot_saving hlaw rt, fun slots slot => (reads_readSlot slots slot).1⟩

theorem cppHelper_sound {hx : Conversions ν ω} (hlaw : hx.Lawful) (rt : Runtime ν ω) :
    (cppHelper hx).Sound rt :=
  ⟨saveToSlot_saving_cpp hlaw rt, fun slots slot => (reads_readSlot slots slot).2⟩

/--
**What round-trips.**  A value round-trips through the slots, by the helpers of both
languages, if and only if it is no instance of a class other than `String`, arrays
included, and no string with a NUL in it.
-/
theorem roundTrips_iff {hx : Conversions ν ω} (hlaw : hx.Lawful) (rt : Runtime ν ω)
    (bound : Text → Prop) (v : Dynamic ν ω) :
    (RoundTrips (haxeHelper hx) rt bound v ∧ RoundTrips (cppHelper hx) rt bound v) ↔
      Storable rt v := by
  rw [roundTrips_iff_storable (haxeHelper_sound hlaw rt),
    roundTrips_iff_storable (cppHelper_sound hlaw rt), and_self]

namespace Sample

/-- The conversions of the runtime, with natural numbers for its numbers. -/
def hx : Conversions Nat Unit where
  toFloat
    | .num x => x
    | _ => 0
  toBool
    | .bool b => b
    | _ => false
  toCString
    | .string text => some text
    | _ => none
  string := fun _ => "TUnknown"

theorem hx_lawful : hx.Lawful := ⟨fun _ => rfl, fun _ => rfl, fun _ => rfl⟩

def runtime : Runtime Nat Unit where
  isInt := fun _ => true
  kind := fun _ => .instance_ "myclass.MyClass"

theorem roundTrips_greeting :
    RoundTrips (haxeHelper hx) runtime (· = "myclass.MyClass") (.string "hello") ∧
      RoundTrips (cppHelper hx) runtime (· = "myclass.MyClass") (.string "hello") :=
  (roundTrips_iff hx_lawful runtime _ _).mpr (show '\x00' ∉ ("hello" : Text) by decide)

/-- An array is passed over, and so is an instance of a bound class. -/
theorem array_not_roundTrips :
    ¬ RoundTrips (haxeHelper hx) runtime (· = "myclass.MyClass") (.array [.num 1]) ∧
      ¬ RoundTrips (cppHelper hx) runtime (· = "myclass.MyClass") (.array [.num 1]) ∧
      ¬ RoundTrips (cppHelper hx) runtime (· = "myclass.MyClass") (.object ()) :=
  ⟨not_roundTrips_of_keeps (haxeHelper_sound hx_lawful runtime) rfl (by simp),
    not_roundTrips_of_keeps (cppHelper_sound hx_lawful runtime) rfl (by simp),
    not_roundTrips_of_keeps (cppHelper_sound hx_lawful runtime) rfl (by simp)⟩

end Sample

end Wrenegade
