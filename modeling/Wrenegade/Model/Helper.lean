/-
The two helpers: `wren.Helper` in Haxe and `wrenegade::helper` in C++.

Both move values between slots and the host.  The Haxe one switches on the
constructors of `ValueType` and on the constants of `WrenType`, the C++ one on
their numbers.  A list is read by bringing its elements one after the other into
slot 0 and reading that; the recursion is driven by a fuel.
-/
import Wrenegade.Model.WrenApi

namespace Wrenegade

open Text Operation

/-! ### Value types -/

/-- A class object; only `String` is told apart. -/
inductive HxClass
  | String
  | other (name : Text)
deriving DecidableEq

/-- `Type.ValueType`. -/
inductive ValueType
  | TNull
  | TInt
  | TFloat
  | TBool
  | TObject
  | TFunction
  | TClass (c : HxClass)
  | TEnum (e : Text)
  | TUnknown
deriving DecidableEq

namespace ValueType

/-- `_hx_getIndex`. -/
def hx_getIndex : ValueType → Nat
  | TNull => 0
  | TInt => 1
  | TFloat => 2
  | TBool => 3
  | TObject => 4
  | TFunction => 5
  | TClass _ => 6
  | TEnum _ => 7
  | TUnknown => 8

/-- `_hx_getObject(0)`, as a class. -/
def hx_getObject : ValueType → Option HxClass
  | TClass c => some c
  | _ => none

end ValueType

variable {ν ω : Type}

/-- The conversions of the Haxe runtime that both helpers call. -/
structure Conversions (ν ω : Type) where
  toFloat : Dynamic ν ω → ν
  toBool : Dynamic ν ω → Bool
  /-- As a C string; a `null` string is the `NULL` pointer. -/
  toCString : Dynamic ν ω → Option Text
  /-- `Std.string`. -/
  string : ValueType → Text

/-- What the conversions do to a value of the right kind. -/
structure Conversions.Lawful (hx : Conversions ν ω) : Prop where
  toFloat : ∀ x, hx.toFloat (.num x) = x
  toBool : ∀ b, hx.toBool (.bool b) = b
  toCString : ∀ text, hx.toCString (.string text) = some text

/-- What an object is to the runtime. -/
inductive ObjectKind
  | anonymous
  | function
  | instance_ (cls : Text)
  | enum (e : Text)
deriving DecidableEq

/-- What the runtime knows of its numbers and objects. -/
structure Runtime (ν ω : Type) where
  isInt : ν → Bool
  kind : ω → ObjectKind

/-- `Type.typeof`.  An array is an instance of a class too; nothing is unknown. -/
def Runtime.typeof (rt : Runtime ν ω) : Dynamic ν ω → ValueType
  | .null => .TNull
  | .bool _ => .TBool
  | .num x => if rt.isInt x then .TInt else .TFloat
  | .string _ => .TClass .String
  | .array _ => .TClass (.other "Array")
  | .object o =>
      match rt.kind o with
      | .anonymous => .TObject
      | .function => .TFunction
      | .instance_ c => .TClass (.other c)
      | .enum e => .TEnum e

/-- A slot number, printed. -/
def slotText (slot : Int) : Text := (if slot < 0 then ("-" : Text) else []) ++ ofNat slot.natAbs

/-! ### Haxe -/

namespace Helper

/-- `WrenType` as the Haxe side declares it. -/
def WREN_TYPE_BOOL : Int := 0
def WREN_TYPE_NUM : Int := 1
def WREN_TYPE_FOREIGN : Int := 2
def WREN_TYPE_LIST : Int := 3
def WREN_TYPE_NULL : Int := 4
def WREN_TYPE_STRING : Int := 5
def WREN_TYPE_UNKNOWN : Int := 6

def saveToSlot (hx : Conversions ν ω) (slot : Int) (value : Dynamic ν ω) (type : ValueType) :
    Api ν ω Unit :=
  match type with
  | .TInt => wrenSetSlotDouble slot (hx.toFloat value)
  | .TFloat => wrenSetSlotDouble slot (hx.toFloat value)
  | .TBool => wrenSetSlotBool slot (hx.toBool value)
  | .TClass c =>
      match c with
      | .String => wrenSetSlotString slot (hx.toCString value)
      | _ => pure ()
  | .TNull => wrenSetSlotNull slot
  | .TUnknown => wrenSetSlotNull slot
  | _ => throw (.thrown ("don't know how to save this to a slot: " ++ hx.string type))

/-- `getValue`, the function inside `getFromSlot`. -/
def getValue : Nat → Int → Api ν ω (Dynamic ν ω)
  | 0, _ => throw .outOfFuel
  | fuel + 1, slot => do
      let type ← WrenType.toInt <$> wrenGetSlotType slot
      if type = WREN_TYPE_BOOL then
        Dynamic.bool <$> wrenGetSlotBool slot
      else if type = WREN_TYPE_NUM then
        Dynamic.num <$> wrenGetSlotDouble slot
      else if type = WREN_TYPE_FOREIGN then
        wrenGetSlotForeign slot
      else if type = WREN_TYPE_LIST then do
        let count ← wrenGetListCount slot
        let bucket ← (List.range count).foldlM (fun bucket i => do
          wrenGetListElement slot i 0
          let elem ← getValue fuel 0
          pure (bucket ++ [elem])) []
        pure (.array bucket)
      else if type = WREN_TYPE_NULL then
        pure .null
      else if type = WREN_TYPE_STRING then
        Dynamic.string <$> wrenGetSlotString slot
      else if type = WREN_TYPE_UNKNOWN then
        throw (.thrown ("received an inaccessible-from-C parameter in slot " ++ slotText slot))
      else throw (.thrown "unreachable")

def getFromSlot (fuel : Nat) (slot : Int) : Api ν ω (Dynamic ν ω) := getValue fuel slot

end Helper

/-! ### C++ -/

namespace CppHelper

def saveToSlot (hx : Conversions ν ω) (slot : Int) (value : Dynamic ν ω) (type : ValueType) :
    Api ν ω Unit :=
  match type.hx_getIndex with
  | 0 => wrenSetSlotNull slot
  | 1 => wrenSetSlotDouble slot (hx.toFloat value)
  | 2 => wrenSetSlotDouble slot (hx.toFloat value)
  | 3 => wrenSetSlotBool slot (hx.toBool value)
  | 6 =>
      if type.hx_getObject = some .String then wrenSetSlotString slot (hx.toCString value)
      else pure ()
  | 8 => wrenSetSlotNull slot
  | _ => throw (.thrown (hx.string type))

def getSlotString (slot : Int) : Api ν ω Text := wrenGetSlotString slot

/-- The loop `while (_g < _g1)`, with what it pushes read by `elem`. -/
def bucketLoop (elem : Api ν ω (Dynamic ν ω)) (slot : Int) (g₁ : Nat) (g : Nat)
    (bucket : List (Dynamic ν ω)) : Api ν ω (List (Dynamic ν ω)) :=
  if g < g₁ then do
    let i := (g + 1) - 1
    wrenGetListElement slot i 0
    let e ← elem
    bucketLoop elem slot g₁ (g + 1) (bucket ++ [e])
  else pure bucket
termination_by g₁ - g

def getFromSlot : Nat → Int → Api ν ω (Dynamic ν ω)
  | 0, _ => throw .outOfFuel
  | fuel + 1, slot => do
      match WrenType.toInt (← wrenGetSlotType slot) with
      | 0 => Dynamic.bool <$> wrenGetSlotBool slot
      | 1 => Dynamic.num <$> wrenGetSlotDouble slot
      | 2 => wrenGetSlotForeign slot
      | 3 => do
          let count ← wrenGetListCount slot
          let bucket ← bucketLoop (getFromSlot fuel 0) slot count 0 []
          pure (.array bucket)
      | 4 => pure .null
      | 5 => Dynamic.string <$> getSlotString slot
      | 6 => throw (.thrown (slotText slot))
      | _ => throw (.thrown "unreachable")

end CppHelper

end Wrenegade
