import BoltWire.ReaderFlat
import BoltWire.ReaderSim
import BoltWire.Writer

/-!
# What a call of the writer encodes

Every method of the writer against the typed read that undoes it.

* `Marker.op`       the typed read that a marker is for;
* `SizeCodes`       a length as the writer puts it and the length helpers find it;
* `Codes op w r a`  the call `w` appends a marker for `op` and a body, and on them `r` returns `a`;
* `int8_cast` ..    the casts of a signed number undo each other on the range of their branch;
* `call_codes`      every call that does not panic is so coded with its typed read;
* `call_panics`     every other one panics before it appends anything.
-/

set_option linter.unusedSectionVars false

namespace Bolt
open Rust Rust.Call BigEndian

def Marker.op : Marker → ReadOp
  | .null => .null
  | .true | .false => .bool
  | .float64 => .float
  | .tinyInt _ | .int8 | .int16 | .int32 | .int64 => .int
  | .tinyString _ | .string8 | .string16 | .string32 => .string
  | .bytes8 | .bytes16 | .bytes32 => .bytes
  | .tinyList _ | .list8 | .list16 | .list32 => .listHeader
  | .tinyMap _ | .map8 | .map16 | .map32 => .mapHeader
  | .tinyStruct _ | .struct8 | .struct16 => .structHeader

open PackStreamWriter PackStreamReader

section
variable [BytesCrate] {α γ : Type}

/-! ## what the writer appends -/

theorem putArray_puts (src : Bytes) : Puts (BytesCrate.putArray src : Writer Unit) src :=
  BytesCrate.putArray_run src

theorem putMarker_puts {m : Marker} {b : UInt8} (h : m.toByte = .ok b) : Puts (putMarker m) [b] := by
  intro buf
  show (m.byte >>= putU8) buf = _
  rw [bind_ok (byte_run h buf), putU8, putArray_puts, toBe_succ, Nat.pow_zero, Nat.div_one,
    UInt8.ofNat_toNat]
  rfl

theorem marked_puts {m : Marker} {b : UInt8} (h : m.toByte = .ok b) {f : Unit → Writer Unit}
    {body : Bytes} (hf : Puts (f ()) body) : Puts (putMarker m >>= f) (b :: body) :=
  (putMarker_puts h).bind hf

theorem marked_takes {m : Marker} {b : UInt8} (h : m.toByte = .ok b) {f : Marker → Reader Bytes α}
    {body : Bytes} {a : α} (hf : Takes (f m) body a) : Takes (readMarker >>= f) (b :: body) a :=
  (readMarker_takes h).bind hf

theorem number_takes {w n : Nat} (hn : n < 256 ^ w) (of : Nat → α) :
    Takes (readBe w of : Reader Bytes α) (toBe w n) (of n) := by
  have h := readBe_takes (length_toBe w n) of
  rwa [ofBe_toBe_of_lt hn] at h

/-! ## lengths -/

section
variable (of : Nat → α) {tiny : Marker → Option UInt8} {m8 m16 : Marker} {m32 : Option Marker}

theorem sizeLen_tiny {marker : Marker} {size : UInt8} (h : tiny marker = some size) :
    (sizeLen of tiny m8 m16 m32 marker : Reader Bytes α) = pure (of size.toNat) := by
  unfold sizeLen
  rw [h]

theorem sizeLen_m8 (h : tiny m8 = none) :
    (sizeLen of tiny m8 m16 m32 m8 : Reader Bytes α) = readU8 >>= fun n => pure (of n.toNat) := by
  unfold sizeLen
  rw [h]
  exact if_pos rfl

theorem sizeLen_m16 (h : tiny m16 = none) (h8 : m16 ≠ m8) :
    (sizeLen of tiny m8 m16 m32 m16 : Reader Bytes α) = readU16 >>= fun n => pure (of n.toNat) := by
  unfold sizeLen
  rw [h]
  exact (if_neg h8).trans (if_pos rfl)

theorem sizeLen_m32 {m : Marker} (h : tiny m = none) (h8 : m ≠ m8) (h16 : m ≠ m16) :
    (sizeLen of tiny m8 m16 (some m) m : Reader Bytes α)
      = readU32 >>= fun n => pure (of n.toNat) := by
  unfold sizeLen
  rw [h]
  exact (if_neg h8).trans ((if_neg h16).trans (if_pos rfl))

/-- a length that a call of the writer puts, and the reader finds after its marker -/
def SizeCodes (P : Marker → Prop) (w : Writer Unit) (r : Marker → Reader Bytes α) (a : α) : Prop :=
  ∃ m b body, m.toByte = .ok b ∧ P m ∧ Puts w (b :: body) ∧ Takes (r m) body a

variable {P : Marker → Prop}

/-- the marker of the 4 byte length is another one -/
structure WideMarker (P : Marker → Prop) (tiny : Marker → Option UInt8) (m8 m16 m : Marker) :
    Prop where
  known : m.Known
  type : P m
  tiny : tiny m = none
  ne8 : m ≠ m8
  ne16 : m ≠ m16

theorem wide_codes {m : Marker} (hm : WideMarker P tiny m8 m16 m) (size : UInt32) :
    SizeCodes P (do
      putMarker m
      putU32 size) (sizeLen of tiny m8 m16 (some m)) (of size.toNat) := by
  obtain ⟨b, h⟩ := hm.known
  refine ⟨m, b, _, h, hm.type, marked_puts h (putArray_puts _), ?_⟩
  rw [sizeLen_m32 of hm.tiny hm.ne8 hm.ne16]
  have hn := number_takes (w := 4) size.toNat_lt UInt32.ofNat
  rw [UInt32.ofNat_toNat] at hn
  exact hn.map _

/-- the markers of the 1 and 2 byte lengths are markers of the type, and can be told apart -/
structure SizeMarkers (P : Marker → Prop) (tiny : Marker → Option UInt8) (m8 m16 : Marker) :
    Prop where
  known8 : m8.Known
  known16 : m16.Known
  type8 : P m8
  type16 : P m16
  tiny8 : tiny m8 = none
  tiny16 : tiny m16 = none
  ne : m16 ≠ m8

theorem sized_codes (hm : SizeMarkers P tiny m8 m16)
    {wide : Writer Unit} {size : Nat}
    (hwide : 65535 < size → SizeCodes P wide (sizeLen of tiny m8 m16 m32) (of size)) :
    SizeCodes P (writeSized m8 m16 wide size) (sizeLen of tiny m8 m16 m32) (of size) := by
  obtain ⟨b8, h8⟩ := hm.known8
  obtain ⟨b16, h16⟩ := hm.known16
  unfold writeSized
  by_cases hs : size ≤ 255
  · rw [if_pos hs]
    refine ⟨m8, b8, _, h8, hm.type8, marked_puts h8 (putArray_puts _), ?_⟩
    rw [sizeLen_m8 of hm.tiny8]
    have hn := number_takes (w := 1) (UInt8.ofNat size).toNat_lt UInt8.ofNat
    rw [UInt8.ofNat_toNat] at hn
    have h := hn.map fun n => of n.toNat
    rw [UInt8.toNat_ofNat_of_lt' (Nat.lt_of_le_of_lt hs (by decide))] at h ⊢
    exact h
  rw [if_neg hs]
  by_cases hs' : size ≤ 65535
  · rw [if_pos hs']
    refine ⟨m16, b16, _, h16, hm.type16, marked_puts h16 (putArray_puts _), ?_⟩
    rw [sizeLen_m16 of hm.tiny16 hm.ne]
    have hn := number_takes (w := 2) (UInt16.ofNat size).toNat_lt UInt16.ofNat
    rw [UInt16.ofNat_toNat] at hn
    have h := hn.map fun n => of n.toNat
    rw [UInt16.toNat_ofNat_of_lt' (Nat.lt_of_le_of_lt hs' (by decide))] at h ⊢
    exact h
  · rw [if_neg hs']
    exact hwide (by omega)

/-- a length below 16 has a marker of the type to itself -/
structure TinyMarkers (P : Marker → Prop) (tiny : Marker → Option UInt8) (mk : UInt8 → Marker) :
    Prop where
  known : ∀ s, s ≤ 0x0F → (mk s).Known
  type : ∀ s, P (mk s)
  tiny : ∀ s, tiny (mk s) = some s

theorem size_codes {mk : UInt8 → Marker} (ht : TinyMarkers P tiny mk)
    (hm : SizeMarkers P tiny m8 m16) {wide : Writer Unit} {size : Nat}
    (hwide : 65535 < size → SizeCodes P wide (sizeLen of tiny m8 m16 m32) (of size)) :
    SizeCodes P (writeSize mk m8 m16 wide size) (sizeLen of tiny m8 m16 m32) (of size) := by
  unfold writeSize
  by_cases hs : size < 16
  · rw [if_pos hs]
    have e : (UInt8.ofNat size).toNat = size := UInt8.toNat_ofNat_of_lt' (Nat.lt_trans hs (by decide))
    obtain ⟨b, hb⟩ := ht.known (UInt8.ofNat size) (by
      rw [UInt8.le_iff_toNat_le, e]
      exact Nat.le_of_lt_succ hs)
    refine ⟨_, b, [], hb, ht.type _, putMarker_puts hb, ?_⟩
    rw [sizeLen_tiny of (ht.tiny _), e]
    exact Takes.pure _
  · rw [if_neg hs]
    exact sized_codes of hm hwide

/-- the lengths that the reader returns as `u32` -/
theorem count_codes {mk : UInt8 → Marker} (ht : TinyMarkers P tiny mk)
    (hm : SizeMarkers P tiny m8 m16) {wide : Writer Unit} {size : UInt32}
    (hwide : 65535 < size.toNat →
      SizeCodes P wide (sizeLen UInt32.ofNat tiny m8 m16 m32) (UInt32.ofNat size.toNat)) :
    SizeCodes P (writeSize mk m8 m16 wide size.toNat) (sizeLen UInt32.ofNat tiny m8 m16 m32) size := by
  have h := size_codes UInt32.ofNat ht hm hwide
  rwa [UInt32.ofNat_toNat] at h

end

/-! ## the calls -/

/-- the call appends a marker for the operation and a body, and the read returns the value on them -/
def Codes (op : ReadOp) (w : Writer Unit) (r : Reader Bytes α) (a : α) : Prop :=
  ∃ (m : Marker) (b : UInt8) (body : Bytes), m.toByte = .ok b ∧ m.op = op ∧
    Puts w (b :: body) ∧ Takes r (b :: body) a

theorem Codes.map {op : ReadOp} {w : Writer Unit} {r : Reader Bytes α} {a : α}
    (h : Codes op w r a) (f : α → γ) : Codes op w (r >>= fun a => pure (f a)) (f a) := by
  obtain ⟨m, b, body, hb, hop, hputs, htakes⟩ := h
  exact ⟨m, b, body, hb, hop, hputs, htakes.map f⟩

theorem codes_marker {m : Marker} {b : UInt8} (h : m.toByte = .ok b)
    {f : Marker → Reader Bytes α} {a : α} (hf : f m = pure a) :
    Codes m.op (putMarker m) (readMarker >>= f) a :=
  ⟨m, b, [], h, rfl, putMarker_puts h, marked_takes h (hf ▸ Takes.pure a)⟩

theorem codes_payload {m : Marker} {b : UInt8} (h : m.toByte = .ok b) {w : Writer Unit}
    {f : Marker → Reader Bytes α} {body : Bytes} {a : α} (hw : Puts w body) (hf : Takes (f m) body a) :
    Codes m.op (putMarker m >>= fun _ => w) (readMarker >>= f) a :=
  ⟨m, b, body, h, rfl, marked_puts h hw, marked_takes h hf⟩

theorem codes_size {op : ReadOp} {w : Writer Unit} {len : Marker → Reader Bytes α} {n : α}
    (h : SizeCodes (fun m => m.op = op) w len n) : Codes op w (readMarker >>= len) n := by
  obtain ⟨m, b, body, hb, hop, hputs, htakes⟩ := h
  exact ⟨m, b, body, hb, hop, hputs, marked_takes hb htakes⟩

/-- what follows a length -/
theorem codes_sized {op : ReadOp} {w w' : Writer Unit} {len : Marker → Reader Bytes α} {n : α}
    {f : α → Reader Bytes γ} {tail : Bytes} {a : γ} (h : SizeCodes (fun m => m.op = op) w len n)
    (hw : Puts w' tail) (hf : Takes (f n) tail a) :
    Codes op (w >>= fun _ => w') (readMarker >>= fun m => len m >>= f) a := by
  obtain ⟨m, b, body, hb, hop, hputs, htakes⟩ := h
  exact ⟨m, b, body ++ tail, hb, hop, hputs.bind hw, marked_takes hb (htakes.bind hf)⟩

theorem codes_null : Codes .null writeNull readNull () :=
  codes_marker (m := .null) rfl (if_pos rfl)

theorem codes_bool (value : Bool) : Codes .bool (writeBool value) readBool value := by
  cases value with
  | false => exact codes_marker (m := .false) rfl rfl
  | true => exact codes_marker (m := .true) rfl rfl

theorem codes_float (bits : UInt64) : Codes .float (writeFloat bits) readFloat bits := by
  have hn := number_takes (w := 8) bits.toNat_lt UInt64.ofNat
  rw [UInt64.ofNat_toNat] at hn
  exact codes_payload (m := .float64) rfl (putArray_puts _) hn

/-! the signed numbers: the casts of the two sides undo each other on the range of the branch -/

theorem int8_takes (v : Int8) : Takes (readBe 1 Int8.ofNat) (toBe 1 v.toUInt8.toNat) v := by
  have hn := number_takes (w := 1) v.toUInt8.toNat_lt Int8.ofNat
  rwa [← UInt8.toInt8_ofNat', UInt8.ofNat_toNat, Int8.toInt8_toUInt8] at hn

theorem int16_takes (v : Int16) : Takes (readBe 2 Int16.ofNat) (toBe 2 v.toUInt16.toNat) v := by
  have hn := number_takes (w := 2) v.toUInt16.toNat_lt Int16.ofNat
  rwa [← UInt16.toInt16_ofNat', UInt16.ofNat_toNat, Int16.toInt16_toUInt16] at hn

theorem int32_takes (v : Int32) : Takes (readBe 4 Int32.ofNat) (toBe 4 v.toUInt32.toNat) v := by
  have hn := number_takes (w := 4) v.toUInt32.toNat_lt Int32.ofNat
  rwa [← UInt32.toInt32_ofNat', UInt32.ofNat_toNat, Int32.toInt32_toUInt32] at hn

theorem int64_takes (v : Int64) : Takes (readBe 8 Int64.ofNat) (toBe 8 v.toUInt64.toNat) v := by
  have hn := number_takes (w := 8) v.toUInt64.toNat_lt Int64.ofNat
  rwa [← UInt64.toInt64_ofNat', UInt64.ofNat_toNat, Int64.toInt64_toUInt64] at hn

/-- a number between the least and the greatest of a narrower type is not changed by the cast -/
theorem cast_toInt {v least greatest : Int64} {k : Nat} (hleast : least.toInt = -2 ^ k)
    (hgreatest : greatest.toInt = 2 ^ k - 1) (h : least ≤ v ∧ v ≤ greatest) :
    v.toInt.bmod (2 ^ (k + 1)) = v.toInt := by
  rw [Int64.le_iff_toInt_le, Int64.le_iff_toInt_le, hleast, hgreatest] at h
  have hpow : (((2 ^ (k + 1) : Nat) : Int)) = 2 * 2 ^ k := by
    rw [Nat.pow_succ, Nat.mul_comm]
    push_cast
    rfl
  exact Int.bmod_eq_of_le (by omega) (by omega)

theorem int8_cast {v : Int64} (h : Int8.minValue.toInt64 ≤ v ∧ v ≤ Int8.maxValue.toInt64) :
    v.toInt8.toInt64 = v := by
  rw [← Int64.toInt_inj, Int8.toInt_toInt64, Int64.toInt_toInt8]
  exact cast_toInt (k := 7) rfl rfl h

theorem int16_cast {v : Int64} (h : Int16.minValue.toInt64 ≤ v ∧ v ≤ Int16.maxValue.toInt64) :
    v.toInt16.toInt64 = v := by
  rw [← Int64.toInt_inj, Int16.toInt_toInt64, Int64.toInt_toInt16]
  exact cast_toInt (k := 15) rfl rfl h

theorem int32_cast {v : Int64} (h : Int32.minValue.toInt64 ≤ v ∧ v ≤ Int32.maxValue.toInt64) :
    v.toInt32.toInt64 = v := by
  rw [← Int64.toInt_inj, Int32.toInt_toInt64, Int64.toInt_toInt32]
  exact cast_toInt (k := 31) rfl rfl h

/-- a value that goes into the marker is in the range of `i8`, and its byte is a marker -/
theorem tiny_cast {v : Int64} (h : -16 ≤ v ∧ v ≤ 127) :
    v.toInt8.toInt64 = v ∧ -16 ≤ v.toInt8 ∧ v.toInt8 ≤ 127 := by
  have hcast : v.toInt8.toInt64 = v :=
    int8_cast ⟨Int64.le_trans (by decide) h.1, Int64.le_trans h.2 (by decide)⟩
  have hint : v.toInt8.toInt = v.toInt := by rw [← Int8.toInt_toInt64, hcast]
  rw [Int8.le_iff_toInt_le, Int8.le_iff_toInt_le, hint]
  exact ⟨hcast, Int64.le_iff_toInt_le.mp h.1, Int64.le_iff_toInt_le.mp h.2⟩

theorem codes_int (value : Int64) : Codes .int (writeInt value) readInt value := by
  unfold writeInt
  by_cases h : -16 ≤ value ∧ value ≤ 127
  · rw [if_pos h]
    obtain ⟨hcast, hrange⟩ := tiny_cast h
    have hb : (Marker.tinyInt value.toInt8).toByte = .ok value.toInt8.toUInt8 :=
      if_neg (not_not_intro hrange)
    exact codes_marker hb (congrArg pure hcast)
  rw [if_neg h]
  by_cases h8 : Int8.minValue.toInt64 ≤ value ∧ value ≤ Int8.maxValue.toInt64
  · rw [if_pos h8]
    have hn := (int8_takes value.toInt8).map Int8.toInt64
    rw [int8_cast h8] at hn
    exact codes_payload (m := .int8) rfl (putArray_puts _) hn
  rw [if_neg h8]
  by_cases h16 : Int16.minValue.toInt64 ≤ value ∧ value ≤ Int16.maxValue.toInt64
  · rw [if_pos h16]
    have hn := (int16_takes value.toInt16).map Int16.toInt64
    rw [int16_cast h16] at hn
    exact codes_payload (m := .int16) rfl (putArray_puts _) hn
  rw [if_neg h16]
  by_cases h32 : Int32.minValue.toInt64 ≤ value ∧ value ≤ Int32.maxValue.toInt64
  · rw [if_pos h32]
    have hn := (int32_takes value.toInt32).map Int32.toInt64
    rw [int32_cast h32] at hn
    exact codes_payload (m := .int32) rfl (putArray_puts _) hn
  rw [if_neg h32]
  exact codes_payload (m := .int64) rfl (putArray_puts _) (int64_takes value)

/-! the lengths -/

theorem expectU32_run {len : Nat} (h : ¬ 2 ^ 32 - 1 < len) (f : UInt32 → Writer Unit) :
    (expectU32 len >>= f) = f (UInt32.ofNat len) := by
  unfold expectU32
  rw [if_pos (by omega)]
  rfl

theorem tinySize_byte {base s : UInt8} (h : s ≤ 0x0F) : ∃ b, tinySize base s = .ok b :=
  ⟨_, if_neg (UInt8.not_lt.mpr h)⟩

/-- list and map headers -/
theorem wideCount_codes {P : Marker → Prop} {tiny : Marker → Option UInt8} {mk : UInt8 → Marker}
    {m8 m16 m32 : Marker} (ht : TinyMarkers P tiny mk) (hm : SizeMarkers P tiny m8 m16)
    (hw : WideMarker P tiny m8 m16 m32) (size : UInt32) :
    SizeCodes P (writeSize mk m8 m16 (do
      putMarker m32
      putU32 size) size.toNat) (sizeLen UInt32.ofNat tiny m8 m16 (some m32)) size :=
  count_codes ht hm fun _ => wide_codes UInt32.ofNat hw size

theorem listHeader_codes (size : UInt32) :
    SizeCodes (fun m => m.op = .listHeader) (writeListHeader size) listLen size := by
  refine wideCount_codes ?_ ?_ ?_ size
  · exact ⟨fun _ hs => tinySize_byte hs, fun _ => rfl, fun _ => rfl⟩
  · exact ⟨⟨_, rfl⟩, ⟨_, rfl⟩, rfl, rfl, rfl, rfl, by decide⟩
  · exact ⟨⟨_, rfl⟩, rfl, rfl, by decide, by decide⟩

theorem mapHeader_codes (size : UInt32) :
    SizeCodes (fun m => m.op = .mapHeader) (writeMapHeader size) mapLen size := by
  refine wideCount_codes ?_ ?_ ?_ size
  · exact ⟨fun _ hs => tinySize_byte hs, fun _ => rfl, fun _ => rfl⟩
  · exact ⟨⟨_, rfl⟩, ⟨_, rfl⟩, rfl, rfl, rfl, rfl, by decide⟩
  · exact ⟨⟨_, rfl⟩, rfl, rfl, by decide, by decide⟩

theorem structSize_codes {numFields : UInt32} (hn : ¬ 65535 < numFields.toNat) :
    SizeCodes (fun m => m.op = .structHeader)
      (writeSize .tinyStruct .struct8 .struct16 panic numFields.toNat) structLen numFields := by
  refine count_codes ?_ ?_ fun hlt => absurd hlt hn
  · exact ⟨fun _ hs => tinySize_byte hs, fun _ => rfl, fun _ => rfl⟩
  · exact ⟨⟨_, rfl⟩, ⟨_, rfl⟩, rfl, rfl, rfl, rfl, by decide⟩

/-- the wide form of a length that the writer has to convert -/
theorem expect_codes {op : ReadOp} {tiny : Marker → Option UInt8} {m m8 m16 : Marker}
    (hm : WideMarker (fun m => m.op = op) tiny m8 m16 m) {len : Nat} (hlen : ¬ 2 ^ 32 - 1 < len) :
    SizeCodes (fun m => m.op = op) (do
      let len ← expectU32 len
      putMarker m
      putU32 len) (sizeLen id tiny m8 m16 (some m)) len := by
  rw [expectU32_run hlen]
  have hw := wide_codes id hm (UInt32.ofNat len)
  have hlt : len < 2 ^ 32 := by omega
  rwa [UInt32.toNat_ofNat_of_lt' hlt] at hw

theorem stringHeader_codes {len : Nat} (hlen : ¬ 2 ^ 32 - 1 < len) :
    SizeCodes (fun m => m.op = .string) (writeStringHeader len) stringLen len := by
  refine size_codes id ?_ ?_ fun _ => ?_
  · exact ⟨fun _ hs => tinySize_byte hs, fun _ => rfl, fun _ => rfl⟩
  · exact ⟨⟨_, rfl⟩, ⟨_, rfl⟩, rfl, rfl, rfl, rfl, by decide⟩
  · refine expect_codes ?_ hlen
    exact ⟨⟨_, rfl⟩, rfl, rfl, by decide, by decide⟩

theorem codes_string {s : PackStreamString} (h : ¬ 2 ^ 32 - 1 < s.bytes.length) :
    Codes .string (writeString s) readString s := by
  refine codes_sized (stringHeader_codes h) (putArray_puts s.bytes) ?_
  have hvalid : Takes (okOr (PackStreamString.tryFrom s.bytes) .invalidUtf8 : Reader Bytes _) [] s := by
    rw [PackStreamString.tryFrom, dif_pos s.valid]
    exact Takes.pure s
  have h := (readExactBytes_takes s.bytes).bind (f := fun bytes =>
    okOr (PackStreamString.tryFrom bytes) .invalidUtf8) hvalid
  rwa [List.append_nil] at h

theorem codes_bytes {b : Bytes} (h : ¬ 2 ^ 32 - 1 < b.length) :
    Codes .bytes (writeBytes b) readBytes b := by
  have hsize : SizeCodes (fun m => m.op = .bytes) (writeSized .bytes8 .bytes16 (do
      let len ← expectU32 b.length
      putMarker .bytes32
      putU32 len) b.length) (sizeLen id (fun _ => none) .bytes8 .bytes16 (some .bytes32))
      b.length := by
    refine sized_codes id ?_ fun _ => ?_
    · exact ⟨⟨_, rfl⟩, ⟨_, rfl⟩, rfl, rfl, rfl, rfl, by decide⟩
    · refine expect_codes ?_ h
      exact ⟨⟨_, rfl⟩, rfl, rfl, by decide, by decide⟩
  exact codes_sized hsize (putArray_puts b) (readExactBytes_takes b)

theorem codes_structHeader (tag : UInt8) {numFields : UInt32} (h : ¬ 65535 < numFields.toNat) :
    Codes .structHeader (writeStructHeader tag numFields) readStructHeader (tag, numFields) := by
  refine codes_sized (structSize_codes h) (putArray_puts _) ?_
  have hn := number_takes (w := 1) tag.toNat_lt UInt8.ofNat
  rw [UInt8.ofNat_toNat] at hn
  exact hn.map fun tag => (tag, numFields)

end

/-! ## all calls -/

/-- the read that matches a call -/
def WriteCall.op : WriteCall → ReadOp
  | .null => .null
  | .bool _ => .bool
  | .int _ => .int
  | .float _ => .float
  | .string _ => .string
  | .bytes _ => .bytes
  | .listHeader _ => .listHeader
  | .mapHeader _ => .mapHeader
  | .structHeader _ _ => .structHeader

/-- what was written -/
def WriteCall.val : WriteCall → ReadVal
  | .null => .null
  | .bool value => .bool value
  | .int value => .int value
  | .float bits => .float bits
  | .string s => .string s
  | .bytes b => .bytes b
  | .listHeader size => .count size
  | .mapHeader size => .count size
  | .structHeader tag numFields => .header tag numFields

theorem WriteCall.eq_of_op_val {c c' : WriteCall} (hop : c.op = c'.op) (hval : c.val = c'.val) :
    c = c' := by
  cases c <;> cases c' <;> first | contradiction | (cases hval; rfl)

theorem call_codes [BytesCrate] {c : WriteCall} (h : ¬ c.TooLong) :
    Codes c.op c.run c.op.run c.val := by
  cases c with
  | null => exact codes_null.map fun _ => ReadVal.null
  | bool value => exact (codes_bool value).map ReadVal.bool
  | int value => exact (codes_int value).map ReadVal.int
  | float bits => exact (codes_float bits).map ReadVal.float
  | string s => exact (codes_string h).map ReadVal.string
  | bytes b => exact (codes_bytes h).map ReadVal.bytes
  | listHeader size => exact (codes_size (listHeader_codes size)).map ReadVal.count
  | mapHeader size => exact (codes_size (mapHeader_codes size)).map ReadVal.count
  | structHeader tag numFields => exact (codes_structHeader tag h).map fun h => ReadVal.header h.1 h.2

section
variable [BytesCrate]

theorem writeSized_wide (m8 m16 : Marker) (wide : Writer Unit) {size : Nat} (h : 65535 < size) :
    writeSized m8 m16 wide size = wide := by
  rw [writeSized, if_neg (by omega), if_neg (by omega)]

theorem writeSize_wide (tiny : UInt8 → Marker) (m8 m16 : Marker) (wide : Writer Unit) {size : Nat}
    (h : 65535 < size) : writeSize tiny m8 m16 wide size = wide := by
  rw [writeSize, if_neg (by omega), writeSized_wide _ _ _ h]

theorem expectU32_panics {len : Nat} (h : 2 ^ 32 - 1 < len) : expectU32 len = panic :=
  if_neg (by omega)

/-- a call that has no encoding panics before it appends anything -/
theorem call_panics {c : WriteCall} (h : c.TooLong) (buf : Bytes) : c.run buf = (.panic, buf) := by
  cases c with
  | string s =>
    have hlen : 2 ^ 32 - 1 < s.bytes.length := h
    show (writeStringHeader s.bytes.length >>= fun _ => putSlice s.bytes) buf = _
    rw [writeStringHeader, writeSize_wide _ _ _ _ (by omega), expectU32_panics hlen]
    rfl
  | bytes b =>
    have hlen : 2 ^ 32 - 1 < b.length := h
    show (writeBytes b) buf = _
    rw [writeBytes, writeSized_wide _ _ _ (by omega), expectU32_panics hlen]
    rfl
  | structHeader tag numFields =>
    have hlen : 65535 < numFields.toNat := h
    show (writeStructHeader tag numFields) buf = _
    rw [writeStructHeader, writeSize_wide _ _ _ _ hlen]
    rfl
  | _ => exact h.elim

end
end Bolt
