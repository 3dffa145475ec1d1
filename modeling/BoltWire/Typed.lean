import BoltWire.Encoding
import BoltWire.ReaderOnline
import BoltWire.SkipValue

/-!
# The typed reads, marker by marker

A typed read takes a marker, and goes on if it is one of its type.

* `ReadOp.Typed`    the nine operations that read a value or a header;
* `Marker.body`     what the read of its type does after a marker;
* `typed_run`       every typed read in these terms; `typed_own`, `typed_other`, `typed_bad`, `typed_nil`
                    on the four kinds of input;
* `ReadOp.arity`    how many values follow what was read;
* `typed_head`      a typed read takes what `valueHead` takes.
-/

set_option linter.unusedSectionVars false

namespace Bolt
open Rust Rust.Call BigEndian

def ReadOp.Typed : ReadOp → Prop
  | .peek | .remaining | .skip => False
  | _ => True

theorem Marker.op_typed (m : Marker) : m.op.Typed := by
  cases m <;> trivial

theorem WriteCall.op_typed (c : WriteCall) : c.op.Typed := by
  cases c <;> trivial

/-- what is read is a header, and so many values come after it -/
def ReadOp.arity : ReadOp → ReadVal → Nat
  | .listHeader, .count n => n.toNat
  | .mapHeader, .count n => 2 * n.toNat
  | .structHeader, .header _ numFields => numFields.toNat
  | _, _ => 0

open PackStreamReader

variable [BytesCrate]

def Marker.body (m : Marker) : Reader Bytes ReadVal :=
  match m with
  | .null => pure .null
  | .true => pure (.bool Bool.true)
  | .false => pure (.bool Bool.false)
  | .float64 => do
    let bits ← readBe 8 UInt64.ofNat
    pure (.float bits)
  | .tinyInt v => pure (.int v.toInt64)
  | .int8 => do
    let v ← readI8
    pure (.int v.toInt64)
  | .int16 => do
    let v ← readI16
    pure (.int v.toInt64)
  | .int32 => do
    let v ← readI32
    pure (.int v.toInt64)
  | .int64 => do
    let v ← readI64
    pure (.int v)
  | .tinyString _ | .string8 | .string16 | .string32 => do
    let len ← stringLen m
    let bytes ← readExactBytes len
    let s ← okOr (PackStreamString.tryFrom bytes) .invalidUtf8
    pure (.string s)
  | .bytes8 | .bytes16 | .bytes32 => do
    let len ← bytesLen m
    let b ← readExactBytes len
    pure (.bytes b)
  | .tinyList _ | .list8 | .list16 | .list32 => do
    let n ← listLen m
    pure (.count n)
  | .tinyMap _ | .map8 | .map16 | .map32 => do
    let n ← mapLen m
    pure (.count n)
  | .tinyStruct _ | .struct8 | .struct16 => do
    let numFields ← structLen m
    let tag ← readU8
    pure (.header tag numFields)

theorem rejectMarker_bind {α γ : Type} (m : Marker) (f : α → Reader Bytes γ) :
    (rejectMarker m : Reader Bytes α) >>= f = rejectMarker m := bind_assoc_run _ _ _

theorem rejectMarker_bind_bind {α γ δ : Type} (m : Marker) (f : α → Reader Bytes γ)
    (g : γ → Reader Bytes δ) : (rejectMarker m >>= f) >>= g = rejectMarker m := by
  rw [rejectMarker_bind, rejectMarker_bind]

theorem bind_assoc_deep {α γ δ η : Type} (x : Reader Bytes α) (y : α → Reader Bytes γ)
    (f : α → γ → Reader Bytes δ) (g : δ → Reader Bytes η) :
    (x >>= fun a => y a >>= f a) >>= g = x >>= fun a => y a >>= fun c => f a c >>= g := by
  rw [bind_assoc_run]
  exact congrArg (x >>= ·) (funext fun a => bind_assoc_run _ _ _)

theorem readMarker_bind_bind {α γ : Type} {f : Marker → Reader Bytes α} {g : α → Reader Bytes γ}
    {h : Marker → Reader Bytes γ} (hm : ∀ m, f m >>= g = h m) :
    (readMarker >>= f) >>= g = readMarker >>= h :=
  (bind_assoc_run _ _ _).trans (congrArg (readMarker >>= ·) (funext hm))

/-- a marker of the type is followed by its body, any other one is rejected -/
theorem typed_run {op : ReadOp} (h : op.Typed) : (op.run : Reader Bytes ReadVal)
    = readMarker >>= fun m => if m.op = op then m.body else rejectMarker m := by
  cases op with
  | null =>
    refine readMarker_bind_bind fun m => ?_
    cases m with
    | null => rfl
    | _ => exact rejectMarker_bind _ _
  | bool =>
    refine readMarker_bind_bind fun m => ?_
    cases m with
    | true | false => rfl
    | _ => exact rejectMarker_bind _ _
  | int =>
    refine readMarker_bind_bind fun m => ?_
    cases m with
    | tinyInt | int64 => rfl
    | int8 | int16 | int32 => exact bind_assoc_run _ _ _
    | _ => exact rejectMarker_bind _ _
  | float =>
    refine readMarker_bind_bind fun m => ?_
    cases m with
    | float64 => rfl
    | _ => exact rejectMarker_bind _ _
  | string =>
    refine readMarker_bind_bind fun m => ?_
    cases m with
    | tinyString | string8 | string16 | string32 => exact bind_assoc_deep _ _ _ _
    | _ => exact rejectMarker_bind_bind _ _ _
  | bytes =>
    refine readMarker_bind_bind fun m => ?_
    cases m with
    | bytes8 | bytes16 | bytes32 => exact bind_assoc_run _ _ _
    | _ => exact rejectMarker_bind_bind _ _ _
  | listHeader =>
    refine readMarker_bind_bind fun m => ?_
    cases m with
    | tinyList | list8 | list16 | list32 => rfl
    | _ => exact rejectMarker_bind _ _
  | mapHeader =>
    refine readMarker_bind_bind fun m => ?_
    cases m with
    | tinyMap | map8 | map16 | map32 => rfl
    | _ => exact rejectMarker_bind _ _
  | structHeader =>
    refine readMarker_bind_bind fun m => ?_
    cases m with
    | tinyStruct | struct8 | struct16 => exact bind_assoc_deep _ _ _ _
    | _ => exact rejectMarker_bind_bind _ _ _
  | peek | remaining | skip => exact h.elim

/-! ## the four kinds of input -/

theorem typed_nil {op : ReadOp} (h : op.Typed) :
    (op.run : Reader Bytes ReadVal) [] = (.err .unexpectedEof, []) := by
  rw [typed_run h, bind_err readMarker_nil]

theorem typed_bad {op : ReadOp} (h : op.Typed) {b : UInt8} {e : MarkerError}
    (hb : Marker.fromByte b = .error e) (rest : Bytes) :
    (op.run : Reader Bytes ReadVal) (b :: rest) = (.err (.invalidMarker b), rest) := by
  rw [typed_run h, bind_err (readMarker_bad hb rest)]

theorem typed_other {op : ReadOp} (h : op.Typed) {b : UInt8} {m : Marker}
    (hb : Marker.fromByte b = .ok m) (hm : m.op ≠ op) (rest : Bytes) :
    (op.run : Reader Bytes ReadVal) (b :: rest) = (.err (.invalidMarker b), rest) := by
  rw [typed_run h, bind_ok (readMarker_good hb rest), if_neg hm]
  exact bind_ok (byte_run (toByte_of_fromByte hb) rest) _

theorem typed_own {b : UInt8} {m : Marker} (hb : Marker.fromByte b = .ok m) (rest : Bytes) :
    (m.op.run : Reader Bytes ReadVal) (b :: rest) = m.body rest := by
  rw [typed_run m.op_typed, bind_ok (readMarker_good hb rest), if_pos rfl]

/-- a typed read succeeds on a marker of its type only -/
theorem typed_ok {op : ReadOp} (h : op.Typed) {data rest : Bytes} {v : ReadVal}
    (hrun : (op.run : Reader Bytes ReadVal) data = (.ok v, rest)) :
    ∃ m b tail, data = b :: tail ∧ Marker.fromByte b = .ok m ∧ m.op = op ∧
      m.body tail = (.ok v, rest) := by
  cases data with
  | nil =>
    rw [typed_nil h] at hrun
    cases hrun
  | cons b tail =>
    cases hb : Marker.fromByte b with
    | error e =>
      rw [typed_bad h hb] at hrun
      cases hrun
    | ok m =>
      by_cases hm : m.op = op
      · subst hm
        rw [typed_own hb] at hrun
        exact ⟨m, b, tail, rfl, hb, rfl, hrun⟩
      · rw [typed_other h hb hm] at hrun
        cases hrun

/-! ## what is taken -/

theorem okOr_ok {α : Type} {opt : Option α} {e : PackStreamError} {data rest : Bytes} {a : α}
    (h : (okOr opt e : Reader Bytes α) data = (.ok a, rest)) : opt = some a ∧ data = rest := by
  cases opt with
  | some a' =>
    cases h
    exact ⟨rfl, rfl⟩
  | none => cases h

/-- what is skipped is what a call takes that has made sure of so many bytes -/
theorem skipBytes_of_ensured {α : Type} {n : Nat} {x : Reader Bytes α} {data rest : Bytes} {a : α}
    (hx : n ≤ data.length → (x data).2 = data.drop n)
    (h : (ensure n >>= fun _ => x) data = (.ok a, rest)) :
    (skipBytes n : Reader Bytes Unit) data = (.ok (), rest) := by
  by_cases hn : n ≤ data.length
  · rw [bind_ok (ensure_enough hn)] at h
    have hrest : rest = data.drop n := by
      rw [← hx hn, h]
    rw [hrest]
    exact (bind_ok (ensure_enough hn) _).trans (Bytes.advance_run hn)
  · rw [bind_err (ensure_short (Nat.lt_of_not_le hn))] at h
    cases h

theorem skipBytes_of_readBe {α : Type} {n : Nat} {of : Nat → α} {data rest : Bytes} {a : α}
    (h : (readBe n of : Reader Bytes α) data = (.ok a, rest)) :
    (skipBytes n : Reader Bytes Unit) data = (.ok (), rest) :=
  skipBytes_of_ensured (fun hn => congrArg Prod.snd (bind_ok (getArray_flat hn) _)) h

theorem skipBytes_of_readExactBytes {n : Nat} {data rest b : Bytes}
    (h : (readExactBytes n : Reader Bytes Bytes) data = (.ok b, rest)) :
    (skipBytes n : Reader Bytes Unit) data = (.ok (), rest) :=
  skipBytes_of_ensured (fun hn => congrArg Prod.snd (Bytes.copyToBytes_run hn)) h

theorem body_head {m : Marker} {data rest : Bytes} {v : ReadVal}
    (h : m.body data = (.ok v, rest)) : markerHead m data = (.ok (m.op.arity v), rest) := by
  cases m with
  | null | true | false | tinyInt =>
    cases h
    rfl
  | int8 | int16 | int32 | int64 | float64 =>
    obtain ⟨a, mid, hread, h⟩ := ok_of_bind h
    cases h
    exact bind_ok (skipBytes_of_readBe hread) _
  | tinyString | string8 | string16 | string32 =>
    obtain ⟨len, mid, hlen, h⟩ := ok_of_bind h
    obtain ⟨bytes, mid', hread, h⟩ := ok_of_bind h
    obtain ⟨s, mid'', hok, h⟩ := ok_of_bind h
    cases h
    obtain ⟨-, rfl⟩ := okOr_ok hok
    exact (bind_ok hlen _).trans (bind_ok (skipBytes_of_readExactBytes hread) _)
  | bytes8 | bytes16 | bytes32 =>
    obtain ⟨len, mid, hlen, h⟩ := ok_of_bind h
    obtain ⟨bytes, mid', hread, h⟩ := ok_of_bind h
    cases h
    exact (bind_ok hlen _).trans (bind_ok (skipBytes_of_readExactBytes hread) _)
  | tinyList | list8 | list16 | list32 | tinyMap | map8 | map16 | map32 =>
    obtain ⟨n, mid, hlen, h⟩ := ok_of_bind h
    cases h
    exact bind_ok hlen _
  | tinyStruct | struct8 | struct16 =>
    obtain ⟨n, mid, hlen, h⟩ := ok_of_bind h
    obtain ⟨tag, mid', hread, h⟩ := ok_of_bind h
    cases h
    exact (bind_ok hlen _).trans (bind_ok (skipBytes_of_readBe hread) _)

/-- **A typed read and a head take the same bytes.** -/
theorem typed_head {op : ReadOp} (h : op.Typed) {data rest : Bytes} {v : ReadVal}
    (hrun : (op.run : Reader Bytes ReadVal) data = (.ok v, rest)) :
    valueHead data = (.ok (op.arity v), rest) := by
  obtain ⟨m, b, tail, rfl, hb, rfl, hbody⟩ := typed_ok h hrun
  rw [valueHead, bind_ok (readMarker_good hb tail)]
  exact body_head hbody

end Bolt
