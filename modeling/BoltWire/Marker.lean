import BoltWire.Lib.Call

/-!
# PackStream markers

The first byte of every PackStream value.

* `Marker.fromByte`, `Marker.toByte`   the two directions, with their range checks;
* `Marker.byte`                        `toByte`, with a panic instead of the error;
* `toByte_of_fromByte`, `fromByte_of_toByte`   they undo each other;
* `byte_run`                           so `byte` cannot panic on a marker that was read.
-/

namespace Bolt
open Rust

inductive Marker where
  | null
  | true
  | false
  | float64
  | tinyInt (v : Int8)
  | int8
  | int16
  | int32
  | int64
  | tinyString (size : UInt8)
  | string8
  | string16
  | string32
  | tinyList (size : UInt8)
  | list8
  | list16
  | list32
  | tinyMap (size : UInt8)
  | map8
  | map16
  | map32
  | bytes8
  | bytes16
  | bytes32
  | tinyStruct (size : UInt8)
  | struct8
  | struct16
  deriving DecidableEq, Repr

inductive MarkerError where
  | invalidByte (b : UInt8)
  | tinyIntOutOfRange (v : Int8)
  | tinySizeOutOfRange (size : UInt8)
  deriving DecidableEq, Repr

def Marker.fromByte (b : UInt8) : Except MarkerError Marker :=
  if b ≤ 0x7F then .ok (.tinyInt b.toInt8)
  else if 0x80 ≤ b ∧ b ≤ 0x8F then .ok (.tinyString (b &&& 0x0F))
  else if 0x90 ≤ b ∧ b ≤ 0x9F then .ok (.tinyList (b &&& 0x0F))
  else if 0xA0 ≤ b ∧ b ≤ 0xAF then .ok (.tinyMap (b &&& 0x0F))
  else if 0xB0 ≤ b ∧ b ≤ 0xBF then .ok (.tinyStruct (b &&& 0x0F))
  else if b = 0xC0 then .ok .null
  else if b = 0xC1 then .ok .float64
  else if b = 0xC2 then .ok .false
  else if b = 0xC3 then .ok .true
  else if b = 0xC8 then .ok .int8
  else if b = 0xC9 then .ok .int16
  else if b = 0xCA then .ok .int32
  else if b = 0xCB then .ok .int64
  else if b = 0xCC then .ok .bytes8
  else if b = 0xCD then .ok .bytes16
  else if b = 0xCE then .ok .bytes32
  else if b = 0xD0 then .ok .string8
  else if b = 0xD1 then .ok .string16
  else if b = 0xD2 then .ok .string32
  else if b = 0xD4 then .ok .list8
  else if b = 0xD5 then .ok .list16
  else if b = 0xD6 then .ok .list32
  else if b = 0xD8 then .ok .map8
  else if b = 0xD9 then .ok .map16
  else if b = 0xDA then .ok .map32
  else if b = 0xDC then .ok .struct8
  else if b = 0xDD then .ok .struct16
  else if 0xF0 ≤ b then .ok (.tinyInt b.toInt8)
  else .error (.invalidByte b)

/-- the four tiny sizes share their check -/
def tinySize (base size : UInt8) : Except MarkerError UInt8 :=
  if 0x0F < size then .error (.tinySizeOutOfRange size) else .ok (base ||| size)

def Marker.toByte : Marker → Except MarkerError UInt8
  | .null => .ok 0xC0
  | .true => .ok 0xC3
  | .false => .ok 0xC2
  | .float64 => .ok 0xC1
  | .tinyInt v => if ¬ (-16 ≤ v ∧ v ≤ 127) then .error (.tinyIntOutOfRange v) else .ok v.toUInt8
  | .int8 => .ok 0xC8
  | .int16 => .ok 0xC9
  | .int32 => .ok 0xCA
  | .int64 => .ok 0xCB
  | .tinyString size => tinySize 0x80 size
  | .string8 => .ok 0xD0
  | .string16 => .ok 0xD1
  | .string32 => .ok 0xD2
  | .tinyList size => tinySize 0x90 size
  | .list8 => .ok 0xD4
  | .list16 => .ok 0xD5
  | .list32 => .ok 0xD6
  | .tinyMap size => tinySize 0xA0 size
  | .map8 => .ok 0xD8
  | .map16 => .ok 0xD9
  | .map32 => .ok 0xDA
  | .bytes8 => .ok 0xCC
  | .bytes16 => .ok 0xCD
  | .bytes32 => .ok 0xCE
  | .tinyStruct size => tinySize 0xB0 size
  | .struct8 => .ok 0xDC
  | .struct16 => .ok 0xDD

def Marker.byte {σ ε : Type} (self : Marker) : Call σ ε UInt8 :=
  match self.toByte with
  | .ok b => pure b
  | .error _ => Call.panic

/-! ## the two directions -/

/-- a fact about every byte, checked on all of them -/
theorem forall_byte {p : UInt8 → Prop} (h : ∀ n : Fin 256, p (UInt8.ofFin n)) (b : UInt8) : p b :=
  h b.toFin

instance decidableEqExcept {ε α : Type} [DecidableEq ε] [DecidableEq α] : DecidableEq (Except ε α)
  | .ok a, .ok b => decidable_of_iff (a = b) ⟨congrArg _, Except.ok.inj⟩
  | .error a, .error b => decidable_of_iff (a = b) ⟨congrArg _, Except.error.inj⟩
  | .ok _, .error _ => isFalse (fun h => by cases h)
  | .error _, .ok _ => isFalse (fun h => by cases h)

theorem fromByte_cases (b : UInt8) : (Marker.fromByte b).bind Marker.toByte = .ok b ∨
    Marker.fromByte b = .error (.invalidByte b) := by
  revert b
  refine forall_byte ?_
  decide +kernel

theorem toByte_of_fromByte {b : UInt8} {m : Marker} (h : Marker.fromByte b = .ok m) :
    m.toByte = .ok b := by
  rcases fromByte_cases b with h1 | h1
  · rw [h] at h1
    exact h1
  · rw [h] at h1
    cases h1

theorem fromByte_tinyInt (v : Int8) (h : -16 ≤ v ∧ v ≤ 127) :
    Marker.fromByte v.toUInt8 = .ok (.tinyInt v) := by
  have hb : ∀ b : UInt8, (-16 ≤ b.toInt8 ∧ b.toInt8 ≤ 127) →
      Marker.fromByte b = .ok (.tinyInt b.toInt8) := by
    refine forall_byte ?_
    decide +kernel
  exact hb v.toUInt8 h

theorem fromByte_tinySize (size : UInt8) (h : ¬ 0x0F < size) :
    Marker.fromByte (0x80 ||| size) = .ok (.tinyString size) ∧
    Marker.fromByte (0x90 ||| size) = .ok (.tinyList size) ∧
    Marker.fromByte (0xA0 ||| size) = .ok (.tinyMap size) ∧
    Marker.fromByte (0xB0 ||| size) = .ok (.tinyStruct size) := by
  revert size
  refine forall_byte ?_
  decide +kernel

theorem tinySize_ok {base size b : UInt8} (h : tinySize base size = .ok b) :
    ¬ 0x0F < size ∧ b = base ||| size := by
  unfold tinySize at h
  split at h
  · cases h
  · exact ⟨‹_›, (Except.ok.inj h).symm⟩

theorem fromByte_of_toByte {b : UInt8} {m : Marker} (h : m.toByte = .ok b) :
    Marker.fromByte b = .ok m := by
  cases m with
  | tinyInt v =>
    have e : (Marker.tinyInt v).toByte = if ¬ (-16 ≤ v ∧ v ≤ 127) then
        .error (.tinyIntOutOfRange v) else .ok v.toUInt8 := rfl
    rw [e] at h
    by_cases hv : -16 ≤ v ∧ v ≤ 127
    · rw [if_neg (not_not_intro hv)] at h
      obtain rfl := Except.ok.inj h
      exact fromByte_tinyInt v hv
    · rw [if_pos hv] at h
      cases h
  | tinyString size =>
    obtain ⟨hs, rfl⟩ := tinySize_ok h
    exact (fromByte_tinySize size hs).1
  | tinyList size =>
    obtain ⟨hs, rfl⟩ := tinySize_ok h
    exact (fromByte_tinySize size hs).2.1
  | tinyMap size =>
    obtain ⟨hs, rfl⟩ := tinySize_ok h
    exact (fromByte_tinySize size hs).2.2.1
  | tinyStruct size =>
    obtain ⟨hs, rfl⟩ := tinySize_ok h
    exact (fromByte_tinySize size hs).2.2.2
  | _ =>
    obtain rfl := Except.ok.inj h
    rfl

theorem byte_run {σ ε : Type} {m : Marker} {b : UInt8} (h : m.toByte = .ok b) (s : σ) :
    (m.byte : Call σ ε UInt8) s = (.ok b, s) := by
  unfold Marker.byte
  rw [h]
  rfl

end Bolt
