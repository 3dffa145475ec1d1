import BoltWire.MessageBuf
import BoltWire.ReaderFlat
import BoltWire.Lib.Descent

/-!
# `skip_value` is the recursive parser

* `parseValue`, `parse`   the grammar of one value, by recursive descent;
* `valueHead`             a marker with its length and payload: how many values follow;
* `parseValue_eq`, `skipStep_eq`   both parsers are made of heads;
* `skipValue_eq`, `parse_eq`   both count the values that are owed, with and without a bound;
* `parse_safe`            the recursive parser always returns;
* `skipValue_eq_parse`    below the bound they are one;
* `skipValue_parse`       the flat counter and the recursion agree.
-/

namespace Bolt
open Rust Rust.Call

namespace PackStreamReader
section
variable [BytesCrate]

/-- one value, nested at most `depth` deep -/
def parseValue : Nat → Reader Bytes Unit
  | 0 => spin
  | depth + 1 => do
    let marker ← readMarker
    match marker with
    | .null | .true | .false | .tinyInt _ => pure ()
    | .int8 => skipBytes 1
    | .int16 => skipBytes 2
    | .int32 => skipBytes 4
    | .int64 | .float64 => skipBytes 8
    | .tinyString _ | .string8 | .string16 | .string32 => do
      let len ← stringLen marker
      skipBytes len
    | .bytes8 | .bytes16 | .bytes32 => do
      let len ← bytesLen marker
      skipBytes len
    | .tinyList _ | .list8 | .list16 | .list32 => do
      let len ← listLen marker
      times len.toNat (parseValue depth)
    | .tinyMap _ | .map8 | .map16 | .map32 => do
      let len ← mapLen marker
      times (2 * len.toNat) (parseValue depth)
    | .tinyStruct _ | .struct8 | .struct16 => do
      let numFields ← structLen marker
      skipBytes 1
      times numFields.toNat (parseValue depth)

/-- every level of nesting takes a byte, so this depth is never reached -/
def parse : Reader Bytes Unit := do
  let data ← get
  parseValue (data.length + 1)

/-- what follows a marker, up to the values in it -/
def markerHead (marker : Marker) : Reader Bytes Nat :=
  match marker with
  | .null | .true | .false | .tinyInt _ => pure 0
  | .int8 => do
    skipBytes 1
    pure 0
  | .int16 => do
    skipBytes 2
    pure 0
  | .int32 => do
    skipBytes 4
    pure 0
  | .int64 | .float64 => do
    skipBytes 8
    pure 0
  | .tinyString _ | .string8 | .string16 | .string32 => do
    let len ← stringLen marker
    skipBytes len
    pure 0
  | .bytes8 | .bytes16 | .bytes32 => do
    let len ← bytesLen marker
    skipBytes len
    pure 0
  | .tinyList _ | .list8 | .list16 | .list32 => do
    let len ← listLen marker
    pure len.toNat
  | .tinyMap _ | .map8 | .map16 | .map32 => do
    let len ← mapLen marker
    pure (2 * len.toNat)
  | .tinyStruct _ | .struct8 | .struct16 => do
    let numFields ← structLen marker
    skipBytes 1
    pure numFields.toNat

def valueHead : Reader Bytes Nat := do
  let marker ← readMarker
  markerHead marker

/-! ## both parsers are made of heads -/

section
omit [BytesCrate]

theorem leaf_bind {α : Type} (x : Reader Bytes Unit) (f : Nat → Reader Bytes α) :
    (x >>= fun _ => pure 0) >>= f = x >>= fun _ => f 0 := by
  rw [bind_assoc_run]
  rfl

theorem bytes_bind {α : Type} (len : Reader Bytes Nat) (f : Nat → Reader Bytes α) :
    (len >>= fun n => skipBytes n >>= fun _ => pure 0) >>= f
      = len >>= fun n => skipBytes n >>= fun _ => f 0 := by
  rw [bind_assoc_run]
  exact congrArg (len >>= ·) (funext fun n => leaf_bind (skipBytes n) f)

theorem count_bind {α β : Type} (len : Reader Bytes β) (g : β → Nat) (f : Nat → Reader Bytes α) :
    (len >>= fun n => pure (g n)) >>= f = len >>= fun n => f (g n) := by
  rw [bind_assoc_run]
  rfl

theorem struct_bind {α β : Type} (len : Reader Bytes β) (g : β → Nat) (f : Nat → Reader Bytes α) :
    (len >>= fun n => skipBytes 1 >>= fun _ => pure (g n)) >>= f
      = len >>= fun n => skipBytes 1 >>= fun _ => f (g n) := by
  rw [bind_assoc_run]
  exact congrArg (len >>= ·) (funext fun n => bind_assoc_run _ _ _)

theorem okOr_add {a b : Nat} : (okOr (checkedAddU64 a b) .unexpectedEof : Reader Bytes Nat)
    = bounded (2 ^ 64) .unexpectedEof a b := by
  unfold checkedAddU64 bounded
  split <;> rfl

/-- twice a `u32` is a `u64` -/
theorem okOr_mul (n : UInt32) :
    (okOr (checkedMulU64 n.toNat 2) .unexpectedEof : Reader Bytes Nat) = pure (2 * n.toNat) := by
  have h : n.toNat < 2 ^ 32 := n.toNat_lt
  rw [checkedMulU64, if_pos (by omega), Nat.mul_comm]
  rfl

end

theorem parseValue_eq (depth : Nat) : parseValue depth = descend valueHead depth := by
  induction depth with
  | zero => rfl
  | succ depth ih =>
    show (readMarker >>= _) = (readMarker >>= markerHead) >>= fun n => times n (descend valueHead depth)
    rw [← ih, bind_assoc_run]
    refine congrArg (readMarker >>= ·) (funext fun marker => ?_)
    cases marker with
    | null | true | false | tinyInt => rfl
    | int8 | int16 | int32 | int64 | float64 => exact ((leaf_bind _ _).trans (bind_unit _)).symm
    | tinyString | string8 | string16 | string32 | bytes8 | bytes16 | bytes32 =>
      refine Eq.symm ((bytes_bind _ _).trans ?_)
      exact congrArg (_ >>= ·) (funext fun len => bind_unit (skipBytes len))
    | tinyList | list8 | list16 | list32 =>
      exact (count_bind (listLen _) UInt32.toNat fun n => times n (parseValue depth)).symm
    | tinyMap | map8 | map16 | map32 =>
      exact (count_bind (mapLen _) (2 * UInt32.toNat ·) fun n => times n (parseValue depth)).symm
    | tinyStruct | struct8 | struct16 =>
      exact (struct_bind (structLen _) UInt32.toNat fun n => times n (parseValue depth)).symm

theorem skipMarker_eq {k : Nat} (hk : k < 2 ^ 64) (marker : Marker) :
    skipMarker k marker = markerHead marker >>= bounded (2 ^ 64) .unexpectedEof k := by
  have h0 : (bounded (2 ^ 64) .unexpectedEof k 0 : Reader Bytes Nat) = pure k := bounded_run _ hk
  cases marker with
  | null | true | false | tinyInt => exact h0.symm
  | int8 | int16 | int32 | int64 | float64 =>
    exact Eq.symm ((leaf_bind _ _).trans (by rw [h0]; rfl))
  | tinyString | string8 | string16 | string32 | bytes8 | bytes16 | bytes32 =>
    exact Eq.symm ((bytes_bind _ _).trans (by rw [h0]; rfl))
  | tinyList | list8 | list16 | list32 =>
    refine Eq.symm ((count_bind (listLen _) UInt32.toNat _).trans ?_)
    exact congrArg (_ >>= ·) (funext fun len => okOr_add.symm)
  | tinyMap | map8 | map16 | map32 =>
    refine Eq.symm ((count_bind (mapLen _) (2 * UInt32.toNat ·) _).trans ?_)
    refine congrArg (_ >>= ·) (funext fun len => ?_)
    rw [okOr_mul]
    exact okOr_add.symm
  | tinyStruct | struct8 | struct16 =>
    refine Eq.symm ((struct_bind (structLen _) UInt32.toNat _).trans ?_)
    refine congrArg (_ >>= ·) (funext fun len => ?_)
    exact congrArg (_ >>= ·) (funext fun _ => okOr_add.symm)

theorem skipStep_eq {k : Nat} (hk : k < 2 ^ 64) (hpos : owed k = true) :
    skipStep k = countStep (bounded (2 ^ 64) .unexpectedEof) valueHead k := by
  have h0 : 0 < k := of_decide_eq_true hpos
  funext data
  show (checkedSub k 1 >>= fun left => readMarker >>= skipMarker left) data
    = ((readMarker >>= markerHead) >>= bounded (2 ^ 64) .unexpectedEof (k - 1)) data
  rw [bind_ok (checkedSub_run h0 data), bind_assoc_run]
  exact bind_congr_run fun marker rest _ => by rw [skipMarker_eq (by omega)]

/-! ## heads -/

theorem markerHead_safe {marker : Marker} (h : marker.Known) :
    Safe (· ≤ 2 ^ 33) (markerHead marker) := by
  have hskip : ∀ n, Safe (· ≤ 2 ^ 33) (skipBytes n >>= fun _ => pure 0 : Reader Bytes Nat) :=
    fun n => (skipBytes_safe n).bind fun _ _ => Safe.pure (Nat.zero_le _)
  cases marker with
  | null | true | false | tinyInt => exact Safe.pure (Nat.zero_le _)
  | int8 | int16 | int32 | int64 | float64 => exact hskip _
  | tinyString | string8 | string16 | string32 | bytes8 | bytes16 | bytes32 =>
    exact (sizeLen_safe _ _ _ _ _ h).bind
      fun len _ => hskip len
  | tinyList | list8 | list16 | list32 =>
    refine (sizeLen_safe _ _ _ _ _ h).bind fun len _ => ?_
    exact Safe.pure (by have := len.toNat_lt; omega)
  | tinyMap | map8 | map16 | map32 =>
    refine (sizeLen_safe _ _ _ _ _ h).bind fun len _ => ?_
    exact Safe.pure (by have := len.toNat_lt; omega)
  | tinyStruct | struct8 | struct16 =>
    refine (sizeLen_safe _ _ _ _ _ h).bind fun len _ => ?_
    refine (skipBytes_safe 1).bind fun _ _ => ?_
    exact Safe.pure (by have := len.toNat_lt; omega)

theorem valueHead_safe : Safe (· ≤ 2 ^ 33) valueHead :=
  readMarker_safe.bind fun _ h => markerHead_safe h

theorem valueHead_consumes : Consumes valueHead :=
  readMarker_consumes.bind_safe readMarker_safe fun _ h => (markerHead_safe h).shrinks

/-- the depth bound of `parse` is no restriction -/
theorem parseValue_parse {depth : Nat} {data : Bytes} (h : data.length < depth) :
    parseValue depth data = parse data := by
  show _ = parseValue (data.length + 1) data
  rw [parseValue_eq, parseValue_eq]
  exact descend_fuel valueHead_consumes _ _ data h (Nat.lt_succ_self _)

/-! ## the loop -/

/-- the counter of `skipValue` stays a `u64` -/
theorem skipLoop_eq (n : Nat) (data : Bytes) :
    whileLoop (fun k => decide (0 < k)) skipStep n 1 data
      = whileLoop owed (countStep (bounded (2 ^ 64) .unexpectedEof) valueHead) n 1 data := by
  refine whileLoop_congr (fun k => k < 2 ^ 64) (fun k hk hpos => skipStep_eq hk hpos) ?_ n 1 data
    (by decide)
  intro k s k' s' h
  obtain ⟨m, mid, -, h⟩ := ok_of_bind h
  unfold bounded at h
  split at h
  · cases h
    assumption
  · cases h

theorem skipValue_eq : (skipValue : Reader Bytes Unit)
    = countOne (bounded (2 ^ 64) .unexpectedEof) valueHead := by
  funext data
  show (whileLoop (fun k => decide (0 < k)) skipStep (data.length + 1) 1 >>= fun _ => pure ()) data = _
  rw [bind_run, skipLoop_eq, ← bind_run]
  rfl

theorem parse_eq : parse = countOne unbounded valueHead := by
  funext data
  rw [countOne_descend valueHead_consumes, ← parseValue_eq]
  rfl

theorem skipValue_safe : Safe (fun _ => True) (skipValue : Reader Bytes Unit) := by
  rw [skipValue_eq]
  exact countOne_safe valueHead_consumes valueHead_safe fun k m =>
    Safe.ite (fun _ => Safe.pure trivial) fun _ => Safe.err _

theorem parse_safe : Safe (fun _ => True) parse := by
  rw [parse_eq]
  exact countOne_safe valueHead_consumes valueHead_safe fun k m => Safe.pure trivial

/-- below 1 GiB the counter does not overflow -/
theorem skipValue_eq_parse {data : Bytes} (h : data.length < 2 ^ 30) : skipValue data = parse data := by
  rw [skipValue_eq, parse_eq]
  exact countOne_eq valueHead_consumes valueHead_safe _ (by omega)

/-- **Skipping is recursive descent.**  Any input that begins with a complete value is skipped just
as far as the recursive parser goes, and nothing else is; on an input below 1 GiB the two calls
also fail with the same error at the same byte. -/
theorem skipValue_parse (data : Bytes) :
    (parse data).1.Returns ∧
    (∀ depth, data.length < depth → parseValue depth data = parse data) ∧
    (data.length ≤ usizeMax →
      ∀ rest, skipValue data = (.ok (), rest) ↔ parse data = (.ok (), rest)) ∧
    (data.length < 2 ^ 30 → skipValue data = parse data) := by
  refine ⟨(parse_safe data).1.returns, fun depth h => parseValue_parse h, fun h rest => ?_,
    fun h => skipValue_eq_parse h⟩
  have hmax : data.length < 2 ^ 64 := Nat.lt_of_le_of_lt h (by decide)
  rw [skipValue_eq, parse_eq]
  exact countOne_ok_iff valueHead_consumes _ hmax rest

end

/-- a map of one entry, whose value is a list, and the same cut short -/
theorem skipValue_parse_map :
    letI := BytesCrate.copying
    (∀ rest, skipValue ([0xA1, 0x81, 0x61, 0x92, 1, 0xC0, 7] : Bytes) = (.ok (), rest) ↔
      parse ([0xA1, 0x81, 0x61, 0x92, 1, 0xC0, 7] : Bytes) = (.ok (), rest)) ∧
    skipValue ([0xA1, 0x81, 0x61, 0x92, 1] : Bytes)
      = parse ([0xA1, 0x81, 0x61, 0x92, 1] : Bytes) := by
  let _ := BytesCrate.copying
  exact ⟨(skipValue_parse [0xA1, 0x81, 0x61, 0x92, 1, 0xC0, 7]).2.2.1 (by decide),
    (skipValue_parse [0xA1, 0x81, 0x61, 0x92, 1]).2.2.2 (by decide)⟩

end PackStreamReader
end Bolt
