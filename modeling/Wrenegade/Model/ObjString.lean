/-
The strings of Wren.

A string is a sequence of bytes, which usually encode code points in UTF-8 and need not.
Indices count bytes.  A position that is not the beginning of a sequence has the code point
-1, and its byte is a string of its own.  New strings are written into a block that was
allocated before, and a byte of it that is never written is not defined.

The numbers of bytes are 32 bits wide.
-/
import Wrenegade.Lib.Cells
import Wrenegade.Model.Primitive

namespace Wrenegade

namespace WrenVM

open Double

abbrev ByteString := List Byte

/-! ### UTF-8 -/

/-- 0 if there is no encoding. -/
def wrenUtf8EncodeNumBytes (value : Nat) : Nat :=
  if value ≤ 0x7f then 1
  else if value ≤ 0x7ff then 2
  else if value ≤ 0xffff then 3
  else if value ≤ 0x10ffff then 4
  else 0

def wrenUtf8Encode (value : Nat) : Result (List Byte) :=
  if value ≤ 0x7f then pure [UInt8.ofNat (value &&& 0x7f)]
  else if value ≤ 0x7ff then
    pure [UInt8.ofNat (0xc0 ||| (value &&& 0x7c0) >>> 6),
      UInt8.ofNat (0x80 ||| value &&& 0x3f)]
  else if value ≤ 0xffff then
    pure [UInt8.ofNat (0xe0 ||| (value &&& 0xf000) >>> 12),
      UInt8.ofNat (0x80 ||| (value &&& 0xfc0) >>> 6),
      UInt8.ofNat (0x80 ||| value &&& 0x3f)]
  else if value ≤ 0x10ffff then
    pure [UInt8.ofNat (0xf0 ||| (value &&& 0x1c0000) >>> 18),
      UInt8.ofNat (0x80 ||| (value &&& 0x3f000) >>> 12),
      UInt8.ofNat (0x80 ||| (value &&& 0xfc0) >>> 6),
      UInt8.ofNat (0x80 ||| value &&& 0x3f)]
  -- `UNREACHABLE`
  else throw .undefined

/-- The remaining bytes must be of the form 10xxxxxx. -/
def decodeRemaining : Nat → Nat → List Byte → Option Nat
  | 0, value, _ => some value
  | n + 1, value, b :: bytes =>
      if b &&& 0xc0 ≠ 0x80 then none
      else decodeRemaining n (value <<< 6 ||| (b &&& 0x3f).toNat) bytes
  | _ + 1, _, [] => none

/-- `none` is -1.  The first byte may be the terminator behind a string. -/
def wrenUtf8Decode (bytes : List Byte) : Option Nat :=
  let b := bytes.headD 0
  let remaining := fun value remainingBytes =>
    -- don't read past the end on truncated UTF-8
    if remainingBytes > bytes.length - 1 then none
    else decodeRemaining remainingBytes value bytes.tail
  if b ≤ 0x7f then some b.toNat
  else if b &&& 0xe0 = 0xc0 then remaining (b &&& 0x1f).toNat 1
  else if b &&& 0xf0 = 0xe0 then remaining (b &&& 0x0f).toNat 2
  else if b &&& 0xf8 = 0xf0 then remaining (b &&& 0x07).toNat 3
  else none

def wrenUtf8DecodeNumBytes (byte : Byte) : Nat :=
  if byte &&& 0xc0 = 0x80 then 0
  else if byte &&& 0xf8 = 0xf0 then 4
  else if byte &&& 0xf0 = 0xe0 then 3
  else if byte &&& 0xe0 = 0xc0 then 2
  else 1

/-! ### New strings -/

/-- The bytes of a block, if all were written. -/
def finishString (block : Cells Byte) : Result ByteString :=
  access (block.mapM id)

/-- `memcpy`, or a sequence of writes. -/
def writeBytes : List Byte → Nat → Cells Byte → Result (Cells Byte)
  | [], _, block => pure block
  | b :: bytes, target, block => do
      let block ← access (block.put target b)
      writeBytes bytes (target + 1) block

def allocateString (length : Nat) : Cells Byte := List.replicate length none

def wrenStringFromCodePoint (value : Nat) : Result ByteString := do
  let length := wrenUtf8EncodeNumBytes value
  if length = 0 then throw (.assertion "Value out of range.")
  else finishString (← writeBytes (← wrenUtf8Encode value) 0 (allocateString length))

def wrenStringCodePointAt (string : ByteString) (index : Nat) : Result ByteString := do
  if string.length ≤ index then throw (.assertion "Index out of bounds.")
  else
    match wrenUtf8Decode (string.drop index) with
    -- not a valid sequence: a single raw byte
    | none => pure [string.getD index 0]
    | some codePoint => wrenStringFromCodePoint codePoint

/-- Write the code point that begins at an index, if one does. -/
def copyCodePoint (source : ByteString) (result : Nat × Cells Byte) (index : Nat) :
    Result (Nat × Cells Byte) :=
  match wrenUtf8Decode (source.drop index) with
  | none => pure result
  | some codePoint => do
      let bytes ← wrenUtf8Encode codePoint
      let block ← writeBytes bytes result.1 result.2
      pure (result.1 + bytes.length, block)

/-- Copy the code points that begin at some indices. -/
def copyCodePoints (source : ByteString) (indices : List Nat) : Result ByteString := do
  let lengths ← indices.mapM fun index => wrenUtf8DecodeNumBytes <$> access (source[index]?)
  -- the sum is a signed number
  if 2 ^ 31 ≤ lengths.sum then throw .undefined
  else
    let result ← indices.foldlM (copyCodePoint source) (0, allocateString lengths.sum)
    finishString result.2

def wrenNewStringFromRange (source : ByteString) (slice : Slice) : Result ByteString :=
  copyCodePoints source ((List.range slice.length).map slice.index)

/-! ### Searching -/

/-- The table has no place for the byte 255. -/
def UINT8_MAX : Nat := 255

def shiftTable (needle : ByteString) : Result (Cells Nat) :=
  let needleEnd := needle.length - 1
  (List.range needleEnd).foldlM
    (fun shift index => access (shift.put (needle.getD index 0).toNat (needleEnd - index)))
    (List.replicate UINT8_MAX (some needle.length))

/-- `none` is `UINT32_MAX`.  In each step the index grows, so the fuel is enough. -/
def findLoop (haystack needle : ByteString) (shift : Cells Nat) (range : Nat) :
    Nat → Nat → Result (Option Nat)
  | 0, _ => pure none
  | fuel + 1, index =>
      if index ≤ range then do
        let needleEnd := needle.length - 1
        let c := haystack.getD (index + needleEnd) 0
        if needle.getD needleEnd 0 = c ∧
            (haystack.drop index).take needleEnd = needle.take needleEnd then
          pure (some index)
        else
          let distance ← access (shift.get c.toNat)
          findLoop haystack needle shift range fuel (index + distance)
      else pure none

/-- The Boyer-Moore-Horspool algorithm. -/
def wrenStringFind (haystack needle : ByteString) (start : Nat) : Result (Option Nat) := do
  if needle.length = 0 then return some start
  else if (start + needle.length) % 2 ^ 32 > haystack.length then return none
  else if start ≥ haystack.length then return none
  else
    let shift ← shiftTable needle
    let range := (haystack.length + 2 ^ 32 - needle.length) % 2 ^ 32
    findLoop haystack needle shift range (haystack.length + 1) start

/-! ### The primitives -/

def validateString (heap : Heap) (arg : Value) (argName : Text) : Result ByteString :=
  match arg with
  | .obj address =>
      match heap address with
      | .string value => pure value
      | _ => throw (.error (argName ++ " must be a string."))
  | _ => throw (.error (argName ++ " must be a string."))

def string_codePointAt (string : ByteString) (arg : Value) : Result (Option Nat) := do
  let index ← validateIndex arg string.length "Index"
  -- in the middle of a sequence
  if string.getD index 0 &&& 0xc0 = 0x80 then return none
  else return wrenUtf8Decode (string.drop index)

/-- The beginning of the next sequence, from an index on. -/
def nextSequence (string : ByteString) (index : Nat) : Option Nat :=
  (List.range' index (string.length - index)).find? fun i => ¬ (string.getD i 0 &&& 0xc0 = 0x80)

def string_iterate (string : ByteString) (iterator : Value) : Result Value := do
  match iterator with
  | .null => return if string.length = 0 then .bool false else .num (ofNat 0)
  | _ =>
      let value ← validateInt iterator "Iterator"
      if value.lt (.finite 0) then return .bool false
      -- the conversion to 32 bits
      else if ¬ value.lt (.finite (2 ^ 32)) then throw .undefined
      else
        match nextSequence string ((value.toNat + 1) % 2 ^ 32) with
        | some index => return .num (ofNat index)
        | none => return .bool false

def string_iteratorValue (string : ByteString) (iterator : Value) : Result ByteString := do
  wrenStringCodePointAt string (← validateIndex iterator string.length "Iterator")

/-- A range of a string. -/
def subscriptRange (string : ByteString) (range : ObjRange) : Result ByteString := do
  wrenNewStringFromRange string (← calculateRange range string.length)

def string_subscript (heap : Heap) (string : ByteString) (arg : Value) : Result ByteString :=
  match arg with
  | .num _ => do wrenStringCodePointAt string (← validateIndex arg string.length "Subscript")
  | .obj address =>
      match heap address with
      | .range range => subscriptRange string range
      | _ => throw (.error "Subscript must be a number or a range.")
  | _ => throw (.error "Subscript must be a number or a range.")

/-- `none` is -1. -/
def string_indexOf2 (heap : Heap) (string : ByteString) (arg start : Value) :
    Result (Option Nat) := do
  let search ← validateString heap arg "Argument"
  wrenStringFind string search (← validateIndex start string.length "Start")

/-- `for (character in string)`. -/
def iterateString (string : ByteString) : Result (List ByteString) :=
  forLoop (string_iterate string) (string_iteratorValue string) (string.length + 1) .null

/-- `for (codePoint in string.codePoints)`; `none` is -1. -/
def iterateCodePoints (string : ByteString) : Result (List (Option Nat)) :=
  forLoop (string_iterate string) (string_codePointAt string) (string.length + 1) .null

/-! ### The class String

What is written in Wren.  Its numbers are indices and lengths, which doubles count exactly;
they become doubles where a primitive gets them. -/

/-- The double of -1. -/
def minusOne : Bits := 0xbff0000000000000#64

/-- `is String`. -/
def asString (heap : Heap) : Value → Option ByteString
  | .obj address =>
      match heap address with
      | .string value => some value
      | _ => none
  | _ => none

/-- `iterate(null) ? false : true`. -/
def isEmpty (string : ByteString) : Result Bool := do
  match ← string_iterate string .null with
  | .bool false => return true
  | .null => return true
  | _ => return false

/-- The condition of the loops of `split` and `replace`. -/
def nextIndex (heap : Heap) (string : ByteString) (arg : Value) (last : Nat) :
    Result (Option Nat) :=
  if last < string.length then string_indexOf2 heap string arg (.num (ofNat last))
  else pure none

/-- With each turn `last` grows, so the fuel is enough. -/
def splitLoop (heap : Heap) (string : ByteString) (delimiter : Value) (delimSize : Nat) :
    Nat → Nat → List ByteString → Result (List ByteString)
  | 0, _, _ => throw .undefined
  | fuel + 1, last, result => do
      match ← nextIndex heap string delimiter last with
      | some index => do
          let part ← subscriptRange string ⟨ofNat last, ofNat index, false⟩
          splitLoop heap string delimiter delimSize fuel (index + delimSize) (result ++ [part])
      | none =>
          if last < string.length then do
            let part ← subscriptRange string ⟨ofNat last, minusOne, true⟩
            return result ++ [part]
          else return result ++ [[]]

def string_split (heap : Heap) (string : ByteString) (delimiter : Value) : Result (List ByteString) := do
  match asString heap delimiter with
  | none => throw (.error "Delimiter must be a non-empty string.")
  | some bytes =>
      if ← isEmpty bytes then throw (.error "Delimiter must be a non-empty string.")
      else splitLoop heap string delimiter bytes.length (string.length + 1) 0 []

def replaceLoop (heap : Heap) (string : ByteString) (from_ : Value) (fromSize : Nat)
    (to_ : ByteString) : Nat → Nat → ByteString → Result ByteString
  | 0, _, _ => throw .undefined
  | fuel + 1, last, result => do
      match ← nextIndex heap string from_ last with
      | some index => do
          let part ← subscriptRange string ⟨ofNat last, ofNat index, false⟩
          replaceLoop heap string from_ fromSize to_ fuel (index + fromSize)
            (result ++ part ++ to_)
      | none =>
          if last < string.length then do
            let part ← subscriptRange string ⟨ofNat last, minusOne, true⟩
            return result ++ part
          else return result

def string_replace (heap : Heap) (string : ByteString) (from_ to_ : Value) : Result ByteString := do
  match asString heap from_ with
  | none => throw (.error "From must be a non-empty string.")
  | some bytes =>
      if ← isEmpty bytes then throw (.error "From must be a non-empty string.")
      else
        match asString heap to_ with
        | none => throw (.error "To must be a string.")
        | some to_ => replaceLoop heap string from_ bytes.length to_ (string.length + 1) 0 []

/-- The iterator of the first code point that stays, or `false`. -/
def trimStartLoop (string : ByteString) (codePoints : List (Option Nat)) :
    Nat → Value → Result Value
  | 0, _ => throw .undefined
  | fuel + 1, start => do
      match ← string_iterate string start with
      | .bool false => return .bool false
      | start => do
          if codePoints.contains (← string_codePointAt string start) then
            trimStartLoop string codePoints fuel start
          else return start

/-- The index of the last code point that stays.  The last argument is `end + 1`. -/
def trimEndLoop (string : ByteString) (codePoints : List (Option Nat)) (start : Nat) :
    Nat → Result (Option Nat)
  | 0 => pure none
  | last + 1 =>
      if start ≤ last then do
        let codePoint ← string_codePointAt string (.num (ofNat last))
        if codePoint ≠ none ∧ ¬ codePoints.contains codePoint then return some last
        else trimEndLoop string codePoints start last
      else pure none

def trimmedEnd (string : ByteString) (codePoints : List (Option Nat)) (start : Bits)
    (trimEnd : Bool) : Result ByteString := do
  if trimEnd then
    match ← trimEndLoop string codePoints (decode start).toNat string.length with
    | none => return []
    | some last => subscriptRange string ⟨start, ofNat last, true⟩
  else subscriptRange string ⟨start, minusOne, true⟩

def string_trim_ (heap : Heap) (string : ByteString) (chars : Value) (trimStart trimEnd : Bool) :
    Result ByteString := do
  match asString heap chars with
  | none => throw (.error "Characters must be a string.")
  | some bytes =>
      let codePoints ← iterateCodePoints bytes
      if trimStart then
        match ← trimStartLoop string codePoints (string.length + 1) .null with
        | .num start => trimmedEnd string codePoints start trimEnd
        | _ => return []
      else trimmedEnd string codePoints (ofNat 0) trimEnd

end WrenVM

end Wrenegade
