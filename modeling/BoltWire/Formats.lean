import BoltWire.Lib.Language
import BoltWire.Typed

/-!
# The formats of PackStream

What the bytes of each type look like, in every width.

* `SizeForms`, `Sized`   a length and the headers that announce it;
* `Frame op v enc`   a complete encoding; the payload of a string is not looked at;
* `Encodes op v enc`   the same with strings of UTF-8 only;
* `readBe_accepts`, `readExactBytes_accepts`, `marked_accepts`   the parts of the readers;
* `SizeLink`, `sized_accepts`   the length helpers of the code accept the headers of the format.
-/

set_option linter.unusedSectionVars false

namespace Bolt
open Rust Rust.Call BigEndian

/-! ## the formats -/

/-- the first bytes that go with a length of one type -/
structure SizeForms where
  tiny : Option UInt8
  form8 : UInt8
  form16 : UInt8
  form32 : Option UInt8

def stringForms : SizeForms := ⟨some 0x80, 0xD0, 0xD1, some 0xD2⟩
def bytesForms : SizeForms := ⟨none, 0xCC, 0xCD, some 0xCE⟩
def listForms : SizeForms := ⟨some 0x90, 0xD4, 0xD5, some 0xD6⟩
def mapForms : SizeForms := ⟨some 0xA0, 0xD8, 0xD9, some 0xDA⟩
def structForms : SizeForms := ⟨some 0xB0, 0xDC, 0xDD, none⟩

inductive Sized (k : SizeForms) : Nat → Bytes → Prop where
  | tiny {n : Nat} {base : UInt8} (h : k.tiny = some base) (hn : n < 16) :
      Sized k n [base + UInt8.ofNat n]
  | one {n : Nat} (hn : n < 2 ^ 8) : Sized k n (k.form8 :: toBe 1 n)
  | two {n : Nat} (hn : n < 2 ^ 16) : Sized k n (k.form16 :: toBe 2 n)
  | four {n : Nat} {b : UInt8} (h : k.form32 = some b) (hn : n < 2 ^ 32) : Sized k n (b :: toBe 4 n)

/-- the first byte and the width of a number -/
def intForms : List (UInt8 × Nat) := [(0xC8, 1), (0xC9, 2), (0xCA, 4), (0xCB, 8)]

inductive Frame : ReadOp → ReadVal → Bytes → Prop where
  | null : Frame .null .null [0xC0]
  | false : Frame .bool (.bool false) [0xC2]
  | true : Frame .bool (.bool true) [0xC3]
  | tinyInt {v : Int64} (h : -16 ≤ v.toInt ∧ v.toInt ≤ 127) : Frame .int (.int v) (twos 1 v.toInt)
  | int {v : Int64} {b : UInt8} {w : Nat} (hw : (b, w) ∈ intForms) (h : FitsIn w v.toInt) :
      Frame .int (.int v) (b :: twos w v.toInt)
  | float (bits : UInt64) : Frame .float (.float bits) (0xC1 :: toBe 8 bits.toNat)
  | string {payload header : Bytes} (h : Sized stringForms payload.length header) :
      Frame .string (.bytes payload) (header ++ payload)
  | bytes {payload header : Bytes} (h : Sized bytesForms payload.length header) :
      Frame .bytes (.bytes payload) (header ++ payload)
  | listHeader {n : UInt32} {header : Bytes} (h : Sized listForms n.toNat header) :
      Frame .listHeader (.count n) header
  | mapHeader {n : UInt32} {header : Bytes} (h : Sized mapForms n.toNat header) :
      Frame .mapHeader (.count n) header
  | structHeader (tag : UInt8) {n : UInt32} {header : Bytes} (h : Sized structForms n.toNat header) :
      Frame .structHeader (.header tag n) (header ++ [tag])

inductive Encodes : ReadOp → ReadVal → Bytes → Prop where
  | plain {op : ReadOp} {v : ReadVal} {enc : Bytes} (hop : op ≠ .string) (h : Frame op v enc) :
      Encodes op v enc
  | string {s : PackStreamString} {enc : Bytes} (h : Frame .string (.bytes s.bytes) enc) :
      Encodes .string (.string s) enc

theorem Sized.lt {k : SizeForms} {n : Nat} {header : Bytes} (h : Sized k n header) : n < 2 ^ 32 := by
  cases h <;> omega

namespace PackStreamReader
variable {α γ : Type}

/-! ## the parts of the readers -/

theorem readExactBytes_accepts (n : Nat) :
    Accepts (readExactBytes n : Reader Bytes Bytes) fun b enc => b.length = n ∧ enc = b := by
  intro data b rest
  constructor
  · intro h
    by_cases hn : n ≤ data.length
    · unfold readExactBytes at h
      rw [bind_ok (ensure_enough hn), Bytes.copyToBytes_run hn] at h
      cases h
      exact ⟨_, ⟨List.length_take_of_le hn, rfl⟩, (List.take_append_drop n data).symm⟩
    · unfold readExactBytes at h
      rw [bind_err (ensure_short (Nat.lt_of_not_le hn))] at h
      cases h
  · rintro ⟨enc, ⟨rfl, rfl⟩, rfl⟩
    exact readExactBytes_takes enc rest

theorem rejectMarker_accepts (m : Marker) :
    Accepts (rejectMarker m : Reader Bytes α) fun _ _ => False := by
  refine Accepts.none fun data => ?_
  rintro ⟨a, h⟩
  rcases hm : m.toByte with e | b
  · have hbyte : (m.byte : Reader Bytes UInt8) data = (.panic, data) := by
      unfold Marker.byte
      rw [hm]
      rfl
    rw [rejectMarker, bind_run, hbyte] at h
    cases h
  · rw [rejectMarker, bind_ok (byte_run hm data)] at h
    cases h

variable [BytesCrate]

theorem readBe_accepts (w : Nat) (of : Nat → α) :
    Accepts (readBe w of : Reader Bytes α) fun a enc => enc.length = w ∧ a = of (ofBe enc) := by
  intro data a rest
  constructor
  · intro h
    by_cases hn : w ≤ data.length
    · unfold readBe at h
      rw [bind_ok (ensure_enough hn), bind_ok (getArray_flat hn)] at h
      cases h
      exact ⟨_, ⟨List.length_take_of_le hn, rfl⟩, (List.take_append_drop w data).symm⟩
    · unfold readBe at h
      rw [bind_err (ensure_short (Nat.lt_of_not_le hn))] at h
      cases h
  · rintro ⟨enc, ⟨hlen, rfl⟩, rfl⟩
    exact readBe_takes hlen of rest

/-- a number that is used as the natural it stands for -/
theorem number_accepts (w : Nat) (of : Nat → α) {f : α → γ} {g : Nat → γ}
    (hg : ∀ n < 256 ^ w, f (of n) = g n) :
    Accepts (readBe w of >>= fun a => pure (f a) : Reader Bytes γ) fun c enc =>
      ∃ n < 256 ^ w, enc = toBe w n ∧ c = g n := by
  refine ((readBe_accepts w of).map f).congr fun c enc => ?_
  constructor
  · rintro ⟨a, ⟨rfl, rfl⟩, rfl⟩
    exact ⟨ofBe enc, ofBe_lt enc, (toBe_ofBe enc).symm, hg _ (ofBe_lt enc)⟩
  · rintro ⟨n, hn, rfl, rfl⟩
    exact ⟨of n, ⟨length_toBe w n, by rw [ofBe_toBe_of_lt hn]⟩, (hg n hn).symm⟩

theorem readMarker_accepts : Accepts (readMarker : Reader Bytes Marker) fun m enc =>
    ∃ b, m.toByte = .ok b ∧ enc = [b] := by
  intro data m rest
  constructor
  · intro h
    cases data with
    | nil =>
      rw [readMarker_nil] at h
      cases h
    | cons b tail =>
      cases hb : Marker.fromByte b with
      | error e =>
        rw [readMarker_bad hb] at h
        cases h
      | ok m' =>
        rw [readMarker_good hb] at h
        cases h
        exact ⟨[b], ⟨b, toByte_of_fromByte hb, rfl⟩, rfl⟩
  · rintro ⟨enc, ⟨b, hb, rfl⟩, rfl⟩
    exact readMarker_takes hb rest

theorem marked_accepts {f : Marker → Reader Bytes α} {M : Marker → α → Bytes → Prop}
    (hf : ∀ m, Accepts (f m) (M m)) : Accepts (readMarker >>= f) fun a enc =>
      ∃ m b tail, m.toByte = .ok b ∧ M m a tail ∧ enc = b :: tail := by
  refine (readMarker_accepts.bind hf).congr fun a enc => ?_
  constructor
  · rintro ⟨m, enc₁, tail, ⟨b, hb, rfl⟩, hM, rfl⟩
    exact ⟨m, b, tail, hb, hM, rfl⟩
  · rintro ⟨m, b, tail, hb, hM, rfl⟩
    exact ⟨m, [b], tail, ⟨b, hb, rfl⟩, hM, rfl⟩

/-! ## lengths -/

/-- the markers of the code are the first bytes of the format -/
structure SizeLink (k : SizeForms) (tiny : Marker → Option UInt8) (m8 m16 : Marker)
    (m32 : Option Marker) : Prop where
  tiny_byte : ∀ m size b, tiny m = some size →
    (m.toByte = .ok b ↔ ∃ base, k.tiny = some base ∧ size < 16 ∧ b = base + size)
  tiny_marker : ∀ base size, k.tiny = some base → ∃ m, tiny m = some size
  byte8 : m8.toByte = .ok k.form8
  tiny8 : tiny m8 = none
  byte16 : m16.toByte = .ok k.form16
  tiny16 : tiny m16 = none
  ne16 : m16 ≠ m8
  byte32 : ∀ m, m32 = some m → ∃ b, k.form32 = some b ∧ m.toByte = .ok b
  wide : ∀ b, k.form32 = some b → ∃ m, m32 = some m ∧ m.toByte = .ok b ∧ tiny m = none ∧
    m ≠ m8 ∧ m ≠ m16

section
variable {k : SizeForms} {tiny : Marker → Option UInt8} {m8 m16 : Marker} {m32 : Option Marker}

theorem sizeLen_accepts (of : Nat → α) (m : Marker) :
    Accepts (sizeLen of tiny m8 m16 m32 m : Reader Bytes α) fun a enc =>
      match tiny m with
      | some size => a = of size.toNat ∧ enc = []
      | none =>
        if m = m8 then ∃ n < 256 ^ 1, enc = toBe 1 n ∧ a = of n
        else if m = m16 then ∃ n < 256 ^ 2, enc = toBe 2 n ∧ a = of n
        else if some m = m32 then ∃ n < 256 ^ 4, enc = toBe 4 n ∧ a = of n
        else False := by
  unfold sizeLen
  cases tiny m with
  | some size => exact Accepts.pure _
  | none =>
    by_cases h8 : m = m8
    · simp only [if_pos h8]
      exact number_accepts 1 UInt8.ofNat fun n hn => by rw [UInt8.toNat_ofNat_of_lt' hn]
    simp only [if_neg h8]
    by_cases h16 : m = m16
    · simp only [if_pos h16]
      exact number_accepts 2 UInt16.ofNat fun n hn => by rw [UInt16.toNat_ofNat_of_lt' hn]
    simp only [if_neg h16]
    by_cases h32 : some m = m32
    · simp only [if_pos h32]
      exact number_accepts 4 UInt32.ofNat fun n hn => by rw [UInt32.toNat_ofNat_of_lt' hn]
    simp only [if_neg h32]
    exact rejectMarker_accepts m

theorem sized_accepts (hk : SizeLink k tiny m8 m16 m32) (of : Nat → α) :
    Accepts (readMarker >>= sizeLen of tiny m8 m16 m32 : Reader Bytes α) fun a enc =>
      ∃ n, Sized k n enc ∧ a = of n := by
  refine (marked_accepts (sizeLen_accepts of)).congr fun a enc => ?_
  constructor
  · rintro ⟨m, b, tail, hb, hM, rfl⟩
    cases ht : tiny m with
    | some size =>
      rw [ht] at hM
      obtain ⟨rfl, rfl⟩ := hM
      obtain ⟨base, hbase, hsize, rfl⟩ := (hk.tiny_byte m size b ht).mp hb
      refine ⟨size.toNat, ?_, rfl⟩
      have h := Sized.tiny hbase (UInt8.lt_iff_toNat_lt.mp hsize)
      rwa [UInt8.ofNat_toNat] at h
    | none =>
      rw [ht] at hM
      simp only at hM
      split at hM
      · subst m
        obtain rfl := Except.ok.inj (hk.byte8.symm.trans hb)
        obtain ⟨n, hn, rfl, rfl⟩ := hM
        exact ⟨n, .one hn, rfl⟩
      split at hM
      · subst m
        obtain rfl := Except.ok.inj (hk.byte16.symm.trans hb)
        obtain ⟨n, hn, rfl, rfl⟩ := hM
        exact ⟨n, .two hn, rfl⟩
      split at hM
      · rename_i h32
        obtain ⟨b', hb', hm⟩ := hk.byte32 m h32.symm
        obtain rfl := Except.ok.inj (hm.symm.trans hb)
        obtain ⟨n, hn, rfl, rfl⟩ := hM
        exact ⟨n, .four hb' hn, rfl⟩
      · exact hM.elim
  · rintro ⟨n, h, rfl⟩
    cases h with
    | @tiny base hbase hn =>
      have hto : (UInt8.ofNat n).toNat = n := UInt8.toNat_ofNat_of_lt' (Nat.lt_trans hn (by decide))
      have hlt : UInt8.ofNat n < 16 := UInt8.lt_iff_toNat_lt.mpr (by rw [hto]; exact hn)
      obtain ⟨m, ht⟩ := hk.tiny_marker base (UInt8.ofNat n) hbase
      refine ⟨m, _, [], (hk.tiny_byte m _ _ ht).mpr ⟨base, hbase, hlt, rfl⟩, ?_, rfl⟩
      rw [ht]
      exact ⟨congrArg of hto.symm, rfl⟩
    | one hn =>
      refine ⟨m8, _, _, hk.byte8, ?_, rfl⟩
      rw [hk.tiny8]
      simp only [if_pos]
      exact ⟨n, hn, rfl, rfl⟩
    | two hn =>
      refine ⟨m16, _, _, hk.byte16, ?_, rfl⟩
      rw [hk.tiny16]
      simp only [if_neg hk.ne16, if_pos]
      exact ⟨n, hn, rfl, rfl⟩
    | four hb hn =>
      obtain ⟨m, rfl, hm, ht, h8, h16⟩ := hk.wide _ hb
      refine ⟨m, _, _, hm, ?_, rfl⟩
      rw [ht]
      simp only [if_neg h8, if_neg h16, if_pos]
      exact ⟨n, hn, rfl, rfl⟩

end

theorem tinySize_iff {base : UInt8} (h : base = 0x80 ∨ base = 0x90 ∨ base = 0xA0 ∨ base = 0xB0)
    (size b : UInt8) : tinySize base size = .ok b ↔ size < 16 ∧ b = base + size := by
  have hsplit : ∀ size : UInt8, size < 16 ∧ ¬ 0x0F < size ∧ base ||| size = base + size ∨
      ¬ size < 16 ∧ 0x0F < size := by
    rcases h with rfl | rfl | rfl | rfl <;>
    · refine forall_byte ?_
      decide +kernel
  unfold tinySize
  rcases hsplit size with ⟨hlt, hs, hadd⟩ | ⟨hlt, hs⟩
  · rw [if_neg hs, hadd]
    exact ⟨fun h => ⟨hlt, (Except.ok.inj h).symm⟩, fun h => congrArg _ h.2.symm⟩
  · rw [if_pos hs]
    exact ⟨nofun, fun h => absurd h.1 hlt⟩

theorem tiny_byte {k : SizeForms} {base size b : UInt8} {m : Marker} (hk : k.tiny = some base)
    (h : base = 0x80 ∨ base = 0x90 ∨ base = 0xA0 ∨ base = 0xB0)
    (hm : m.toByte = tinySize base size) :
    m.toByte = .ok b ↔ ∃ base, k.tiny = some base ∧ size < 16 ∧ b = base + size := by
  rw [hm, tinySize_iff h, hk]
  exact ⟨fun h => ⟨base, rfl, h⟩, fun ⟨_, e, h⟩ => by cases e; exact h⟩

/-- the link of a type with all three widths -/
theorem SizeLink.wide_forms {k : SizeForms} {tiny : Marker → Option UInt8} {m8 m16 m32 : Marker}
    {b : UInt8} (htiny : ∀ m size b, tiny m = some size →
      (m.toByte = .ok b ↔ ∃ base, k.tiny = some base ∧ size < 16 ∧ b = base + size))
    (hmarker : ∀ base size, k.tiny = some base → ∃ m, tiny m = some size)
    (h8 : m8.toByte = .ok k.form8) (h16 : m16.toByte = .ok k.form16) (hk : k.form32 = some b)
    (h32 : m32.toByte = .ok b) (hnone : tiny m8 = none ∧ tiny m16 = none ∧ tiny m32 = none)
    (hne : m16 ≠ m8 ∧ m32 ≠ m8 ∧ m32 ≠ m16) : SizeLink k tiny m8 m16 (some m32) where
  tiny_byte := htiny
  tiny_marker := hmarker
  byte8 := h8
  tiny8 := hnone.1
  byte16 := h16
  tiny16 := hnone.2.1
  ne16 := hne.1
  byte32 m hm := by
    cases hm
    exact ⟨b, hk, h32⟩
  wide b' hb' := by
    obtain rfl := Option.some.inj (hk.symm.trans hb')
    exact ⟨m32, rfl, h32, hnone.2.2, hne.2⟩

theorem string_link : SizeLink stringForms (fun | .tinyString size => some size | _ => none)
    .string8 .string16 (some .string32) := by
  refine .wide_forms (fun m size b ht => ?_) (fun base size _ => ⟨.tinyString size, rfl⟩) rfl rfl rfl rfl
    ⟨rfl, rfl, rfl⟩ (by decide)
  cases m <;> cases ht
  exact tiny_byte rfl (by decide) rfl

theorem bytes_link : SizeLink bytesForms (fun _ => none) .bytes8 .bytes16 (some .bytes32) :=
  .wide_forms nofun nofun rfl rfl rfl rfl ⟨rfl, rfl, rfl⟩ (by decide)

theorem list_link : SizeLink listForms (fun | .tinyList size => some size | _ => none)
    .list8 .list16 (some .list32) := by
  refine .wide_forms (fun m size b ht => ?_) (fun base size _ => ⟨.tinyList size, rfl⟩) rfl rfl rfl rfl
    ⟨rfl, rfl, rfl⟩ (by decide)
  cases m <;> cases ht
  exact tiny_byte rfl (by decide) rfl

theorem map_link : SizeLink mapForms (fun | .tinyMap size => some size | _ => none)
    .map8 .map16 (some .map32) := by
  refine .wide_forms (fun m size b ht => ?_) (fun base size _ => ⟨.tinyMap size, rfl⟩) rfl rfl rfl rfl
    ⟨rfl, rfl, rfl⟩ (by decide)
  cases m <;> cases ht
  exact tiny_byte rfl (by decide) rfl

/-- there is no wide form -/
theorem struct_link : SizeLink structForms (fun | .tinyStruct size => some size | _ => none)
    .struct8 .struct16 none where
  tiny_byte m size b ht := by
    cases m <;> cases ht
    exact tiny_byte rfl (by decide) rfl
  tiny_marker base size _ := ⟨.tinyStruct size, rfl⟩
  byte8 := rfl
  tiny8 := rfl
  byte16 := rfl
  tiny16 := rfl
  ne16 := by decide
  byte32 := nofun
  wide := nofun

end PackStreamReader
end Bolt
