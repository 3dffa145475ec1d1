import BoltWire.Reader

/-!
# `PackStreamWriter`

The writer.  Its only field is the buffer, so a method is a call on the bytes written so far; it has
no error to return, but it may panic.

* `putU8` .. `putI64`, `putSlice`   the putters of the crate `bytes`, by which the methods append;
* `writeSize`        the marker of a length and the length; its users are `writeStringHeader`,
                     `writeBytes`, `writeListHeader`, `writeMapHeader`, `writeStructHeader`;
* `writeNull` .. `writeStructHeader`   the methods that write;
* `new`, `intoBytes`, `asBytes`, `clear`   the others;
* `WriteCall`, `writes`   a sequence of calls on one writer, also after panics.
-/

namespace Bolt
open Rust Rust.Call BigEndian

abbrev Writer (α : Type) := Call Bytes Empty α

section
variable [BytesCrate]

namespace PackStreamWriter

def putSlice (bytes : Bytes) : Writer Unit := BytesCrate.putArray bytes

def putU8 (v : UInt8) : Writer Unit := BytesCrate.putArray (toBe 1 v.toNat)
def putU16 (v : UInt16) : Writer Unit := BytesCrate.putArray (toBe 2 v.toNat)
def putU32 (v : UInt32) : Writer Unit := BytesCrate.putArray (toBe 4 v.toNat)
def putU64 (v : UInt64) : Writer Unit := BytesCrate.putArray (toBe 8 v.toNat)
def putI8 (v : Int8) : Writer Unit := putU8 v.toUInt8
def putI16 (v : Int16) : Writer Unit := putU16 v.toUInt16
def putI32 (v : Int32) : Writer Unit := putU32 v.toUInt32
def putI64 (v : Int64) : Writer Unit := putU64 v.toUInt64

def putMarker (marker : Marker) : Writer Unit := do
  let b ← marker.byte
  putU8 b

/-- `u32::try_from(len).expect(..)` -/
def expectU32 (len : Nat) : Writer UInt32 :=
  if len < 2 ^ 32 then pure (UInt32.ofNat len) else panic

def writeNull : Writer Unit := putMarker .null

def writeBool (value : Bool) : Writer Unit := putMarker (if value then .true else .false)

def writeInt (value : Int64) : Writer Unit :=
  if -16 ≤ value ∧ value ≤ 127 then putMarker (.tinyInt value.toInt8)
  else if Int8.minValue.toInt64 ≤ value ∧ value ≤ Int8.maxValue.toInt64 then do
    putMarker .int8
    putI8 value.toInt8
  else if Int16.minValue.toInt64 ≤ value ∧ value ≤ Int16.maxValue.toInt64 then do
    putMarker .int16
    putI16 value.toInt16
  else if Int32.minValue.toInt64 ≤ value ∧ value ≤ Int32.maxValue.toInt64 then do
    putMarker .int32
    putI32 value.toInt32
  else do
    putMarker .int64
    putI64 value

/-- the float is given by its 64 bits -/
def writeFloat (bits : UInt64) : Writer Unit := do
  putMarker .float64
  putU64 bits

/-- a length in 1 or 2 bytes after its marker; a longer one is left to `wide` -/
def writeSized (m8 m16 : Marker) (wide : Writer Unit) (size : Nat) : Writer Unit :=
  if size ≤ 255 then do
    putMarker m8
    putU8 (UInt8.ofNat size)
  else if size ≤ 65535 then do
    putMarker m16
    putU16 (UInt16.ofNat size)
  else wide

/-- a length below 16 goes into the marker -/
def writeSize (tiny : UInt8 → Marker) (m8 m16 : Marker) (wide : Writer Unit) (size : Nat) :
    Writer Unit :=
  if size < 16 then putMarker (tiny (UInt8.ofNat size)) else writeSized m8 m16 wide size

def writeStringHeader (len : Nat) : Writer Unit :=
  writeSize .tinyString .string8 .string16 (do
    let len ← expectU32 len
    putMarker .string32
    putU32 len) len

def writeString (s : PackStreamString) : Writer Unit := do
  writeStringHeader s.bytes.length
  putSlice s.bytes

def writeBytes (b : Bytes) : Writer Unit := do
  writeSized .bytes8 .bytes16 (do
    let len ← expectU32 b.length
    putMarker .bytes32
    putU32 len) b.length
  putSlice b

def writeListHeader (size : UInt32) : Writer Unit :=
  writeSize .tinyList .list8 .list16 (do
    putMarker .list32
    putU32 size) size.toNat

def writeMapHeader (size : UInt32) : Writer Unit :=
  writeSize .tinyMap .map8 .map16 (do
    putMarker .map32
    putU32 size) size.toNat

/-- there is no wide form, and the tag comes after the size -/
def writeStructHeader (tag : UInt8) (numFields : UInt32) : Writer Unit := do
  writeSize .tinyStruct .struct8 .struct16 panic numFields.toNat
  putU8 tag

/-- `PackStreamWriter::new()`, which is also the default -/
def new : Bytes := []

def intoBytes : Writer Bytes := get

def asBytes : Writer Bytes := get

def clear : Writer Unit := set []

end PackStreamWriter
end

/-! ## calls -/

inductive WriteCall where
  | null
  | bool (value : Bool)
  | int (value : Int64)
  | float (bits : UInt64)
  | string (s : PackStreamString)
  | bytes (b : Bytes)
  | listHeader (size : UInt32)
  | mapHeader (size : UInt32)
  | structHeader (tag : UInt8) (numFields : UInt32)
  deriving DecidableEq, Repr

open PackStreamWriter in
def WriteCall.run [BytesCrate] : WriteCall → Writer Unit
  | .null => writeNull
  | .bool value => writeBool value
  | .int value => writeInt value
  | .float bits => writeFloat bits
  | .string s => writeString s
  | .bytes b => writeBytes b
  | .listHeader size => writeListHeader size
  | .mapHeader size => writeMapHeader size
  | .structHeader tag numFields => writeStructHeader tag numFields

/-- what the format has no length for -/
def WriteCall.TooLong : WriteCall → Prop
  | .string s => 2 ^ 32 - 1 < s.bytes.length
  | .bytes b => 2 ^ 32 - 1 < b.length
  | .structHeader _ numFields => 65535 < numFields.toNat
  | _ => False

instance : DecidablePred WriteCall.TooLong
  | .string s => inferInstanceAs (Decidable (2 ^ 32 - 1 < s.bytes.length))
  | .bytes b => inferInstanceAs (Decidable (2 ^ 32 - 1 < b.length))
  | .structHeader _ numFields => inferInstanceAs (Decidable (65535 < numFields.toNat))
  | .null | .bool _ | .int _ | .float _ | .listHeader _ | .mapHeader _ => isFalse id

/-- what the calls on one writer give, in order, and the bytes after them -/
def writes [BytesCrate] : List WriteCall → Bytes → List (Res Empty Unit) × Bytes
  | [], buf => ([], buf)
  | c :: cs, buf =>
    let t := writes cs (c.run buf).2
    ((c.run buf).1 :: t.1, t.2)

example : letI := BytesCrate.copying
    writes [.structHeader 0x4E 2, .int (-17), .listHeader 300] []
      = ([.ok (), .ok (), .ok ()], [0xB2, 0x4E, 0xC8, 0xEF, 0xD5, 1, 44]) := by decide

end Bolt
