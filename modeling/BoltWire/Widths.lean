import BoltWire.Languages
import BoltWire.RoundTrip

/-!
# How wide an encoding is

* `sizeWidth`, `intWidth`, `frameWidth`   the least number of bytes for a header, a number, a frame;
* `Frame.width_le`    no frame is narrower;
* `Frame.unique`      two frames of the same value and the same width are the same;
* `Emits w n`         the call appends `n` bytes;
* `encode_width`      the writer's encodings are the narrowest.
-/

set_option linter.unusedSectionVars false

namespace Bolt
open Rust Rust.Call BigEndian

/-! ## the formats -/

def sizeWidth (k : SizeForms) (n : Nat) : Nat :=
  if k.tiny ≠ none ∧ n < 16 then 1 else if n < 2 ^ 8 then 2 else if n < 2 ^ 16 then 3 else 5

def intWidth (i : Int) : Nat :=
  if -16 ≤ i ∧ i ≤ 127 then 1
  else if FitsIn 1 i then 2
  else if FitsIn 2 i then 3
  else if FitsIn 4 i then 5
  else 9

def frameWidth : ReadOp → ReadVal → Nat
  | .int, .int v => intWidth v.toInt
  | .float, _ => 9
  | .string, .bytes payload => sizeWidth stringForms payload.length + payload.length
  | .bytes, .bytes payload => sizeWidth bytesForms payload.length + payload.length
  | .listHeader, .count n => sizeWidth listForms n.toNat
  | .mapHeader, .count n => sizeWidth mapForms n.toNat
  | .structHeader, .header _ n => sizeWidth structForms n.toNat + 1
  | _, _ => 1

theorem Sized.width_le {k : SizeForms} {n : Nat} {header : Bytes} (h : Sized k n header) :
    sizeWidth k n ≤ header.length := by
  unfold sizeWidth
  cases h with
  | tiny hbase hn =>
    rw [if_pos ⟨by rw [hbase]; exact Option.some_ne_none _, hn⟩]
    exact Nat.le_refl _
  | one hn =>
    rw [List.length_cons, length_toBe]
    split_ifs <;> omega
  | two hn =>
    rw [List.length_cons, length_toBe]
    split_ifs <;> omega
  | four hb hn =>
    rw [List.length_cons, length_toBe]
    split_ifs <;> omega

theorem Sized.unique {k : SizeForms} {n : Nat} {header header' : Bytes} (h : Sized k n header)
    (h' : Sized k n header') (hlen : header.length = header'.length) : header = header' := by
  cases h with
  | tiny hbase hn =>
    cases h' with
    | tiny hbase' hn' => rw [Option.some.inj (hbase.symm.trans hbase')]
    | _ => simp at hlen
  | one hn =>
    cases h' with
    | one hn' => rfl
    | _ => simp at hlen
  | two hn =>
    cases h' with
    | two hn' => rfl
    | _ => simp at hlen
  | four hb hn =>
    cases h' with
    | four hb' hn' => rw [Option.some.inj (hb.symm.trans hb')]
    | _ => simp at hlen

theorem intWidth_le {i : Int} {b : UInt8} {w : Nat} (hw : (b, w) ∈ intForms) (h : FitsIn w i) :
    intWidth i ≤ w + 1 := by
  simp only [intForms, List.mem_cons, Prod.mk.injEq, List.not_mem_nil, or_false] at hw
  unfold intWidth
  rcases hw with ⟨-, rfl⟩ | ⟨-, rfl⟩ | ⟨-, rfl⟩ | ⟨-, rfl⟩
  · rw [if_pos h]
    split_ifs <;> omega
  · rw [if_pos h]
    split_ifs <;> omega
  · rw [if_pos h]
    split_ifs <;> omega
  · split_ifs <;> omega

theorem Frame.width_le {op : ReadOp} {v : ReadVal} {enc : Bytes} (h : Frame op v enc) :
    frameWidth op v ≤ enc.length := by
  cases h with
  | null | false | true => exact Nat.le_refl _
  | tinyInt hrange => exact (if_pos hrange).le
  | int hw hfits =>
    rw [List.length_cons, length_twos]
    exact intWidth_le hw hfits
  | float bits =>
    rw [List.length_cons, length_toBe]
    exact Nat.le_refl _
  | string hsized | bytes hsized =>
    rw [List.length_append]
    exact Nat.add_le_add_right hsized.width_le _
  | listHeader hsized | mapHeader hsized => exact hsized.width_le
  | structHeader tag hsized =>
    rw [List.length_append]
    exact Nat.add_le_add_right hsized.width_le _

theorem intForms_unique {b b' : UInt8} {w : Nat} (h : (b, w) ∈ intForms) (h' : (b', w) ∈ intForms) :
    b = b' := by
  simp only [intForms, List.mem_cons, Prod.mk.injEq, List.not_mem_nil, or_false] at h h'
  rcases h with ⟨rfl, rfl⟩ | ⟨rfl, rfl⟩ | ⟨rfl, rfl⟩ | ⟨rfl, rfl⟩ <;>
  · simp at h'
    exact h'.symm

theorem intForms_pos {b : UInt8} {w : Nat} (h : (b, w) ∈ intForms) : 0 < w := by
  simp only [intForms, List.mem_cons, Prod.mk.injEq, List.not_mem_nil, or_false] at h
  omega

/-- a value has one frame of each width -/
theorem Frame.unique {op : ReadOp} {v : ReadVal} {enc enc' : Bytes} (h : Frame op v enc)
    (h' : Frame op v enc') (hlen : enc.length = enc'.length) : enc = enc' := by
  cases h with
  | null | false | true | float =>
    cases h'
    rfl
  | tinyInt hrange =>
    cases h' with
    | tinyInt hrange' => rfl
    | int hw hfits =>
      have := intForms_pos hw
      simp at hlen
      omega
  | int hw hfits =>
    cases h' with
    | tinyInt hrange =>
      have := intForms_pos hw
      simp at hlen
      omega
    | int hw' hfits' =>
      simp only [List.length_cons, length_twos, Nat.add_right_cancel_iff] at hlen
      subst hlen
      rw [intForms_unique hw hw']
  | string hsized =>
    cases h' with
    | string hsized' =>
      rw [List.length_append, List.length_append, Nat.add_right_cancel_iff] at hlen
      rw [hsized.unique hsized' hlen]
  | bytes hsized =>
    cases h' with
    | bytes hsized' =>
      rw [List.length_append, List.length_append, Nat.add_right_cancel_iff] at hlen
      rw [hsized.unique hsized' hlen]
  | listHeader hsized =>
    cases h' with
    | listHeader hsized' => exact hsized.unique hsized' hlen
  | mapHeader hsized =>
    cases h' with
    | mapHeader hsized' => exact hsized.unique hsized' hlen
  | structHeader tag hsized =>
    cases h' with
    | structHeader tag' hsized' =>
      rw [List.length_append, List.length_append, Nat.add_right_cancel_iff] at hlen
      rw [hsized.unique hsized' hlen]

/-! ## the writer -/

open PackStreamWriter PackStreamReader

variable [BytesCrate]

def Emits (w : Writer Unit) (n : Nat) : Prop := ∃ enc : Bytes, Puts w enc ∧ enc.length = n

theorem Emits.then {w w' : Writer Unit} {n n' : Nat} (h : Emits w n) (h' : Emits w' n') :
    Emits (w >>= fun _ => w') (n + n') := by
  obtain ⟨enc, hputs, rfl⟩ := h
  obtain ⟨enc', hputs', rfl⟩ := h'
  exact ⟨enc ++ enc', hputs.bind hputs', List.length_append⟩

theorem putArray_emits (src : Bytes) : Emits (BytesCrate.putArray src) src.length :=
  ⟨src, putArray_puts src, rfl⟩

theorem putMarker_emits {m : Marker} (h : m.Known) : Emits (putMarker m) 1 := by
  obtain ⟨b, hb⟩ := h
  exact ⟨[b], putMarker_puts hb, rfl⟩

/-- a marker and a number of `w` bytes -/
theorem number_emits {m : Marker} (h : m.Known) (w n : Nat) :
    Emits (putMarker m >>= fun _ => BytesCrate.putArray (toBe w n)) (1 + w) := by
  have hslice := putArray_emits (toBe w n)
  rw [length_toBe] at hslice
  exact (putMarker_emits h).then hslice

theorem writeSized_emits {m8 m16 : Marker} {wide : Writer Unit} {n : Nat} (h8 : m8.Known)
    (h16 : m16.Known) (hwide : 65535 < n → Emits wide 5) :
    Emits (writeSized m8 m16 wide n) (if n < 2 ^ 8 then 2 else if n < 2 ^ 16 then 3 else 5) := by
  unfold writeSized
  by_cases hn : n ≤ 255
  · rw [if_pos hn, if_pos (show n < 2 ^ 8 by omega)]
    exact number_emits h8 1 _
  rw [if_neg hn, if_neg (show ¬ n < 2 ^ 8 by omega)]
  by_cases hn' : n ≤ 65535
  · rw [if_pos hn', if_pos (show n < 2 ^ 16 by omega)]
    exact number_emits h16 2 _
  · rw [if_neg hn', if_neg (show ¬ n < 2 ^ 16 by omega)]
    exact hwide (by omega)

theorem writeSize_emits {k : SizeForms} {mk : UInt8 → Marker} {m8 m16 : Marker} {wide : Writer Unit}
    {n : Nat} (hk : k.tiny ≠ none) (hmk : ∀ s, s ≤ 0x0F → (mk s).Known) (h8 : m8.Known)
    (h16 : m16.Known) (hwide : 65535 < n → Emits wide 5) :
    Emits (writeSize mk m8 m16 wide n) (sizeWidth k n) := by
  unfold writeSize sizeWidth
  by_cases hn : n < 16
  · rw [if_pos hn, if_pos ⟨hk, hn⟩]
    refine putMarker_emits (hmk _ ?_)
    rw [UInt8.le_iff_toNat_le, UInt8.toNat_ofNat_of_lt' (Nat.lt_trans hn (by decide))]
    exact Nat.le_of_lt_succ hn
  · rw [if_neg hn, if_neg fun h => hn h.2]
    exact writeSized_emits h8 h16 hwide

theorem expectU32_emits {n : Nat} (h : ¬ 2 ^ 32 - 1 < n) {m : Marker} (hm : m.Known) :
    Emits (do
      let len ← expectU32 n
      putMarker m
      putU32 len) 5 := by
  rw [expectU32_run h]
  exact number_emits hm 4 _

theorem writeInt_emits (value : Int64) : Emits (writeInt value) (intWidth value.toInt) := by
  unfold writeInt intWidth
  have htiny : (-16 ≤ value ∧ value ≤ 127) ↔ (-16 ≤ value.toInt ∧ value.toInt ≤ 127) := by
    rw [Int64.le_iff_toInt_le, Int64.le_iff_toInt_le]
    exact Iff.rfl
  by_cases h : -16 ≤ value ∧ value ≤ 127
  · rw [if_pos h, if_pos (htiny.mp h)]
    obtain ⟨-, hrange⟩ := tiny_cast h
    exact putMarker_emits ⟨_, if_neg (not_not_intro hrange)⟩
  rw [if_neg h, if_neg (mt htiny.mpr h)]
  have h8 : (Int8.minValue.toInt64 ≤ value ∧ value ≤ Int8.maxValue.toInt64) ↔
      FitsIn 1 value.toInt := by
    rw [Int64.le_iff_toInt_le, Int64.le_iff_toInt_le, FitsIn]
    exact and_congr_right' (Int.lt_add_one_iff (b := 127)).symm
  have h16 : (Int16.minValue.toInt64 ≤ value ∧ value ≤ Int16.maxValue.toInt64) ↔
      FitsIn 2 value.toInt := by
    rw [Int64.le_iff_toInt_le, Int64.le_iff_toInt_le, FitsIn]
    exact and_congr_right' (Int.lt_add_one_iff (b := 32767)).symm
  have h32 : (Int32.minValue.toInt64 ≤ value ∧ value ≤ Int32.maxValue.toInt64) ↔
      FitsIn 4 value.toInt := by
    rw [Int64.le_iff_toInt_le, Int64.le_iff_toInt_le, FitsIn]
    exact and_congr_right' (Int.lt_add_one_iff (b := 2147483647)).symm
  simp only [h8, h16, h32]
  by_cases h1 : FitsIn 1 value.toInt
  · rw [if_pos h1, if_pos h1]
    exact number_emits ⟨_, rfl⟩ 1 _
  rw [if_neg h1, if_neg h1]
  by_cases h2 : FitsIn 2 value.toInt
  · rw [if_pos h2, if_pos h2]
    exact number_emits ⟨_, rfl⟩ 2 _
  rw [if_neg h2, if_neg h2]
  by_cases h4 : FitsIn 4 value.toInt
  · rw [if_pos h4, if_pos h4]
    exact number_emits ⟨_, rfl⟩ 4 _
  rw [if_neg h4, if_neg h4]
  exact number_emits ⟨_, rfl⟩ 8 _

theorem stringHeader_emits {n : Nat} (h : ¬ 2 ^ 32 - 1 < n) :
    Emits (writeStringHeader n) (sizeWidth stringForms n) :=
  writeSize_emits (by decide) (fun _ hs => tinySize_byte hs) ⟨_, rfl⟩ ⟨_, rfl⟩ fun _ =>
    expectU32_emits h ⟨_, rfl⟩

theorem writeBytes_emits {b : Bytes} (h : ¬ 2 ^ 32 - 1 < b.length) :
    Emits (writeBytes b) (sizeWidth bytesForms b.length + b.length) :=
  (writeSized_emits ⟨_, rfl⟩ ⟨_, rfl⟩ fun _ => expectU32_emits h ⟨_, rfl⟩).then (putArray_emits b)

theorem writeListHeader_emits (size : UInt32) :
    Emits (writeListHeader size) (sizeWidth listForms size.toNat) :=
  writeSize_emits (by decide) (fun _ hs => tinySize_byte hs) ⟨_, rfl⟩ ⟨_, rfl⟩ fun _ =>
    number_emits ⟨_, rfl⟩ 4 _

theorem writeMapHeader_emits (size : UInt32) :
    Emits (writeMapHeader size) (sizeWidth mapForms size.toNat) :=
  writeSize_emits (by decide) (fun _ hs => tinySize_byte hs) ⟨_, rfl⟩ ⟨_, rfl⟩ fun _ =>
    number_emits ⟨_, rfl⟩ 4 _

theorem writeStructHeader_emits (tag : UInt8) {numFields : UInt32} (h : ¬ 65535 < numFields.toNat) :
    Emits (writeStructHeader tag numFields) (sizeWidth structForms numFields.toNat + 1) := by
  refine Emits.then (writeSize_emits (by decide) (fun _ hs => tinySize_byte hs) ⟨_, rfl⟩ ⟨_, rfl⟩
    fun hlt => absurd hlt h) ?_
  exact putArray_emits (toBe 1 tag.toNat)

/-- what a call says before a string is checked -/
def WriteCall.raw : WriteCall → ReadVal
  | .string s => .bytes s.bytes
  | c => c.val

/-- **The writer wastes no byte.** -/
theorem encode_width {c : WriteCall} (h : ¬ c.TooLong) : c.encode.length = frameWidth c.op c.raw := by
  have hemits : Emits c.run (frameWidth c.op c.raw) := by
    cases c with
    | null => exact putMarker_emits ⟨_, rfl⟩
    | bool value => cases value <;> exact putMarker_emits ⟨_, rfl⟩
    | int value => exact writeInt_emits value
    | float bits => exact number_emits ⟨_, rfl⟩ 8 _
    | string s => exact (stringHeader_emits h).then (putArray_emits s.bytes)
    | bytes b => exact writeBytes_emits h
    | listHeader size => exact writeListHeader_emits size
    | mapHeader size => exact writeMapHeader_emits size
    | structHeader tag numFields => exact writeStructHeader_emits tag h
  obtain ⟨enc, hputs, hlen⟩ := hemits
  have e : c.encode = enc := congrArg Prod.snd (hputs [])
  rw [e, hlen]

end Bolt
