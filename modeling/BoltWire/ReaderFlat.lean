import BoltWire.Reader
import BoltWire.Lib.Codec

/-!
# The reader on a flat byte queue

What the parts of the methods do on `Bytes`: on input that begins with an encoding (`_takes`), and on
any input at all (`_safe`).

* `Marker.Known`   the markers that have a byte; every marker that was read is one;
* `readBe`, `readExactBytes`, `skipBytes`, `readMarker`, `sizeLen`.
-/

namespace Bolt
open Rust Rust.Call BigEndian

def Marker.Known (m : Marker) : Prop := ∃ b, m.toByte = .ok b

namespace PackStreamReader
variable {α β : Type} {Q : α → Prop}

theorem ensure_short {data : Bytes} {n : Nat} (h : data.length < n) :
    (ensure n : Reader Bytes Unit) data = (.err .unexpectedEof, data) := by
  show (if data.length < n then err .unexpectedEof else pure () : Reader Bytes Unit) data = _
  rw [if_pos h, err_run]

theorem ensure_enough {data : Bytes} {n : Nat} (h : n ≤ data.length) :
    (ensure n : Reader Bytes Unit) data = (.ok (), data) := by
  show (if data.length < n then err .unexpectedEof else pure () : Reader Bytes Unit) data = _
  rw [if_neg (Nat.not_lt.mpr h), pure_run]

theorem takes_ensured {bs : Bytes} {n : Nat} (hn : bs.length = n) {x : Reader Bytes α} {a : α}
    (hx : Takes x bs a) : Takes (ensure n >>= fun _ => x) bs a := by
  intro rest
  rw [bind_ok (ensure_enough (by rw [List.length_append]; omega))]
  exact hx rest

theorem safe_ensured {n : Nat} {x : Reader Bytes α}
    (h : ∀ data : Bytes, n ≤ data.length → (x data).1.Meets Q ∧ (x data).2 <:+ data) :
    Safe Q (ensure n >>= fun _ => x) := by
  intro data
  by_cases hlt : data.length < n
  · rw [bind_err (ensure_short hlt)]
    exact ⟨trivial, List.suffix_refl data⟩
  · rw [bind_ok (ensure_enough (Nat.le_of_not_lt hlt))]
    exact h data (Nat.le_of_not_lt hlt)

theorem readExactBytes_takes (bs : Bytes) : Takes (readExactBytes bs.length) bs bs := by
  refine takes_ensured rfl fun rest => ?_
  rw [Bytes.copyToBytes_run (by rw [List.length_append]; omega), List.take_left, List.drop_left]

theorem readExactBytes_safe (n : Nat) :
    Safe (fun _ => True) (readExactBytes n : Reader Bytes Bytes) := by
  refine safe_ensured fun data hn => ?_
  rw [Bytes.copyToBytes_run hn]
  exact ⟨trivial, List.drop_suffix n data⟩

theorem skipBytes_safe (n : Nat) : Safe (fun _ => True) (skipBytes n : Reader Bytes Unit) := by
  refine safe_ensured fun data hn => ?_
  rw [Bytes.advance_run hn]
  exact ⟨trivial, List.drop_suffix n data⟩

theorem rejectMarker_safe {marker : Marker} (h : marker.Known) :
    Safe Q (rejectMarker marker : Reader Bytes α) := by
  obtain ⟨b, hb⟩ := h
  have hbyte : Safe (fun _ => True) (marker.byte : Reader Bytes UInt8) := by
    intro data
    rw [byte_run hb]
    exact ⟨trivial, List.suffix_refl data⟩
  exact hbyte.bind fun b _ => Safe.err _

theorem okOr_safe {opt : Option α} {e : PackStreamError} (h : ∀ a, opt = some a → Q a) :
    Safe Q (okOr opt e : Reader Bytes α) := by
  cases opt with
  | some a => exact Safe.pure (h a rfl)
  | none => exact Safe.err e

variable [BytesCrate]

theorem getArray_flat {data : Bytes} {n : Nat} (hn : n ≤ data.length) :
    (BytesCrate.getArray n : Reader Bytes Bytes) data = (.ok (data.take n), data.drop n) := by
  obtain ⟨data', hrun, -, hbytes⟩ :=
    BytesCrate.getArray_run (ε := PackStreamError) data n trivial hn
  rw [hrun]
  exact congrArg _ hbytes

theorem readBe_takes {bs : Bytes} {n : Nat} (hn : bs.length = n) (of : Nat → α) :
    Takes (readBe n of) bs (of (ofBe bs)) := by
  refine takes_ensured hn fun rest => ?_
  rw [bind_ok (getArray_flat (by rw [List.length_append]; omega)), ← hn, List.take_left,
    List.drop_left, pure_run]

theorem readBe_safe (n : Nat) (of : Nat → α) : Safe (fun _ => True) (readBe n of : Reader Bytes α) := by
  refine safe_ensured fun data hn => ?_
  rw [bind_ok (getArray_flat hn)]
  exact ⟨trivial, List.drop_suffix n data⟩

theorem readU8_nil : (readU8 : Reader Bytes UInt8) [] = (.err .unexpectedEof, []) :=
  bind_err (ensure_short Nat.one_pos) _

theorem readU8_cons (b : UInt8) (rest : Bytes) :
    (readU8 : Reader Bytes UInt8) (b :: rest) = (.ok b, rest) := by
  have h := readBe_takes (show [b].length = 1 from rfl) UInt8.ofNat rest
  rw [show ofBe [b] = b.toNat from by rw [ofBe_cons, ofBe_nil]; simp, UInt8.ofNat_toNat] at h
  exact h

theorem readMarker_takes {m : Marker} {b : UInt8} (h : m.toByte = .ok b) :
    Takes (readMarker : Reader Bytes Marker) [b] m := by
  intro rest
  show (readU8 >>= _) (b :: rest) = _
  rw [bind_ok (readU8_cons b rest), fromByte_of_toByte h]
  rfl

theorem readMarker_safe : Safe Marker.Known (readMarker : Reader Bytes Marker) := by
  refine (readBe_safe 1 UInt8.ofNat).bind fun b _ => ?_
  cases h : Marker.fromByte b with
  | ok m => exact Safe.pure ⟨b, toByte_of_fromByte h⟩
  | error e => exact Safe.err _

theorem readMarker_consumes : Consumes (readMarker : Reader Bytes Marker) := by
  refine Consumes.bind ?_ fun b => ?_
  · intro data b rest h
    cases data with
    | nil => rw [readU8_nil] at h; cases h
    | cons b' rest' =>
      rw [readU8_cons] at h
      cases h
      exact Nat.lt_succ_self _
  · cases Marker.fromByte b with
    | ok m => exact Shrinks.pure m
    | error e => intro data a rest h; cases h

theorem sizeLen_safe (of : Nat → α) (tiny : Marker → Option UInt8) (m8 m16 : Marker)
    (m32 : Option Marker) {marker : Marker} (h : marker.Known) :
    Safe (fun _ => True) (sizeLen of tiny m8 m16 m32 marker : Reader Bytes α) := by
  unfold sizeLen
  cases tiny marker with
  | some size => exact Safe.pure trivial
  | none =>
    refine Safe.ite (fun _ => (readBe_safe 1 UInt8.ofNat).bind fun _ _ => Safe.pure trivial) fun _ => ?_
    refine Safe.ite (fun _ => (readBe_safe 2 UInt16.ofNat).bind fun _ _ => Safe.pure trivial)
      fun _ => ?_
    exact Safe.ite (fun _ => (readBe_safe 4 UInt32.ofNat).bind fun _ _ => Safe.pure trivial)
      fun _ => rejectMarker_safe h

end PackStreamReader
end Bolt
