import BoltWire.Buf
import BoltWire.Marker

/-!
# `PackStreamReader`

The reader over any `Buf`.  Its only field is the buffer, so a method is a call on the buffer.

* `PackStreamString`   bytes that are valid UTF-8;
* `ensure`, `readBe`, `readExactBytes`, `skipBytes`, `readMarker`   what the methods are made of;
* `sizeLen`            the length that follows a marker; `stringLen` .. `structLen` its five uses;
* `readNull` .. `readStructHeader`   the typed reads;
* `skipValue`          skips one value with a flat counter of the values still to skip.
-/

namespace Bolt
open Rust Rust.Call BigEndian

inductive PackStreamError where
  | unexpectedEof
  | invalidMarker (b : UInt8)
  | invalidUtf8
  deriving DecidableEq, Repr

def IsUtf8 (bytes : Bytes) : Prop := (ByteArray.mk bytes.toArray).IsValidUTF8

instance (bytes : Bytes) : Decidable (IsUtf8 bytes) :=
  inferInstanceAs (Decidable (ByteArray.mk bytes.toArray).IsValidUTF8)

structure PackStreamString where
  bytes : Bytes
  valid : IsUtf8 bytes
  deriving DecidableEq, Repr

def PackStreamString.tryFrom (bytes : Bytes) : Option PackStreamString :=
  if h : IsUtf8 bytes then some ⟨bytes, h⟩ else none

abbrev Reader (B α : Type) := Call B PackStreamError α

/-- `opt.ok_or(e)?` -/
def okOr {σ ε α : Type} (opt : Option α) (e : ε) : Call σ ε α :=
  match opt with
  | some a => pure a
  | none => err e

def checkedAddU64 (a b : Nat) : Option Nat := if a + b < 2 ^ 64 then some (a + b) else none
def checkedMulU64 (a b : Nat) : Option Nat := if a * b < 2 ^ 64 then some (a * b) else none

namespace PackStreamReader
variable {B α : Type} [Buf B]

def peek : Reader B (Option UInt8) := do
  let buf ← get
  if Buf.remaining buf = 0 then pure none else pure (Buf.chunk buf).head?

def remaining : Reader B Nat := do
  let buf ← get
  pure (Buf.remaining buf)

def ensure (n : Nat) : Reader B Unit := do
  let buf ← get
  if Buf.remaining buf < n then err .unexpectedEof else pure ()

def readExactBytes (n : Nat) : Reader B Bytes := do
  ensure n
  Buf.copyToBytes n

def skipBytes (n : Nat) : Reader B Unit := do
  ensure n
  Buf.advance n

/-- the error of every typed read that finds a marker of another type -/
def rejectMarker (marker : Marker) : Reader B α := do
  let b ← marker.byte
  err (.invalidMarker b)

variable [BytesCrate]

/-- `ensure(n)`, then the getter of a big-endian `n`-byte number -/
def readBe (n : Nat) (of : Nat → α) : Reader B α := do
  ensure n
  let bytes ← BytesCrate.getArray n
  pure (of (ofBe bytes))

def readU8 : Reader B UInt8 := readBe 1 UInt8.ofNat
def readI8 : Reader B Int8 := readBe 1 Int8.ofNat
def readI16 : Reader B Int16 := readBe 2 Int16.ofNat
def readI32 : Reader B Int32 := readBe 4 Int32.ofNat
def readI64 : Reader B Int64 := readBe 8 Int64.ofNat
def readU16 : Reader B UInt16 := readBe 2 UInt16.ofNat
def readU32 : Reader B UInt32 := readBe 4 UInt32.ofNat

def readMarker : Reader B Marker := do
  let b ← readU8
  match Marker.fromByte b with
  | .ok marker => pure marker
  | .error _ => err (.invalidMarker b)

/-- the length that goes with a marker: in the marker itself, or in the 1, 2 or 4 bytes after it -/
def sizeLen (of : Nat → α) (tiny : Marker → Option UInt8) (m8 m16 : Marker) (m32 : Option Marker)
    (marker : Marker) : Reader B α :=
  match tiny marker with
  | some size => pure (of size.toNat)
  | none =>
    if marker = m8 then do
      let n ← readU8
      pure (of n.toNat)
    else if marker = m16 then do
      let n ← readU16
      pure (of n.toNat)
    else if some marker = m32 then do
      let n ← readU32
      pure (of n.toNat)
    else rejectMarker marker

def stringLen (marker : Marker) : Reader B Nat :=
  sizeLen id (fun | .tinyString size => some size | _ => none) .string8 .string16 (some .string32)
    marker

def bytesLen (marker : Marker) : Reader B Nat :=
  sizeLen id (fun _ => none) .bytes8 .bytes16 (some .bytes32) marker

def listLen (marker : Marker) : Reader B UInt32 :=
  sizeLen UInt32.ofNat (fun | .tinyList size => some size | _ => none) .list8 .list16 (some .list32)
    marker

def mapLen (marker : Marker) : Reader B UInt32 :=
  sizeLen UInt32.ofNat (fun | .tinyMap size => some size | _ => none) .map8 .map16 (some .map32)
    marker

def structLen (marker : Marker) : Reader B UInt32 :=
  sizeLen UInt32.ofNat (fun | .tinyStruct size => some size | _ => none) .struct8 .struct16 none
    marker

/-! ## typed reads -/

def readNull : Reader B Unit := do
  let marker ← readMarker
  if marker = .null then pure () else rejectMarker marker

def readBool : Reader B Bool := do
  let marker ← readMarker
  match marker with
  | .true => pure true
  | .false => pure false
  | _ => rejectMarker marker

def readInt : Reader B Int64 := do
  let marker ← readMarker
  match marker with
  | .tinyInt v => pure v.toInt64
  | .int8 => do
    let v ← readI8
    pure v.toInt64
  | .int16 => do
    let v ← readI16
    pure v.toInt64
  | .int32 => do
    let v ← readI32
    pure v.toInt64
  | .int64 => readI64
  | _ => rejectMarker marker

/-- the 64 bits of the float -/
def readFloat : Reader B UInt64 := do
  let marker ← readMarker
  if marker ≠ .float64 then rejectMarker marker else readBe 8 UInt64.ofNat

def readString : Reader B PackStreamString := do
  let marker ← readMarker
  let len ← stringLen marker
  let bytes ← readExactBytes len
  okOr (PackStreamString.tryFrom bytes) .invalidUtf8

def readBytes : Reader B Bytes := do
  let marker ← readMarker
  let len ← bytesLen marker
  readExactBytes len

def readListHeader : Reader B UInt32 := do
  let marker ← readMarker
  listLen marker

def readMapHeader : Reader B UInt32 := do
  let marker ← readMarker
  mapLen marker

def readStructHeader : Reader B (UInt8 × UInt32) := do
  let marker ← readMarker
  let numFields ← structLen marker
  let tag ← readU8
  pure (tag, numFields)

/-! ## skipping -/

/-- what `skip_value` does after a marker; `remaining` values are still to be skipped -/
def skipMarker (remaining : Nat) (marker : Marker) : Reader B Nat :=
  match marker with
  -- the marker is the whole value
  | .null | .true | .false | .tinyInt _ => pure remaining
  -- fixed width
  | .int8 => do
    skipBytes 1
    pure remaining
  | .int16 => do
    skipBytes 2
    pure remaining
  | .int32 => do
    skipBytes 4
    pure remaining
  | .int64 | .float64 => do
    skipBytes 8
    pure remaining
  -- a length and that many bytes
  | .tinyString _ | .string8 | .string16 | .string32 => do
    let len ← stringLen marker
    skipBytes len
    pure remaining
  | .bytes8 | .bytes16 | .bytes32 => do
    let len ← bytesLen marker
    skipBytes len
    pure remaining
  -- containers add their children to the values still to be skipped
  | .tinyList _ | .list8 | .list16 | .list32 => do
    let len ← listLen marker
    okOr (checkedAddU64 remaining len.toNat) .unexpectedEof
  | .tinyMap _ | .map8 | .map16 | .map32 => do
    let len ← mapLen marker
    let entries ← okOr (checkedMulU64 len.toNat 2) .unexpectedEof
    okOr (checkedAddU64 remaining entries) .unexpectedEof
  | .tinyStruct _ | .struct8 | .struct16 => do
    let numFields ← structLen marker
    skipBytes 1
    okOr (checkedAddU64 remaining numFields.toNat) .unexpectedEof

def skipStep (remaining : Nat) : Reader B Nat := do
  let remaining ← checkedSub remaining 1
  let marker ← readMarker
  skipMarker remaining marker

def skipValue : Reader B Unit := do
  let buf ← get
  let _ ← whileLoop (fun remaining => decide (0 < remaining)) skipStep (Buf.remaining buf + 1) 1
  pure ()

end PackStreamReader
end Bolt
