import BoltWire.Formats

/-!
# What each typed read accepts

* `readNull_accepts` .. `readStructHeader_accepts`   the language of each read;
* `readPayload`      a string before it is checked;
* `signed_iff`       two's complement in `w` bytes; `tinyInt_iff` in the marker;
* `ReadOp.frame`, `frame_accepts`   the reads up to the check of a string;
* `run_accepts`      the reads.
-/

set_option linter.unusedSectionVars false

namespace Bolt
open Rust Rust.Call BigEndian

namespace PackStreamReader
variable [BytesCrate]

/-! ## the readers -/

/-- a header that is counted with a `u32` -/
theorem counted_accepts {k : SizeForms} {x : Reader Bytes UInt32}
    (hx : Accepts x fun a enc => ∃ n, Sized k n enc ∧ a = UInt32.ofNat n) :
    Accepts x fun n enc => Sized k n.toNat enc := by
  refine hx.congr fun a enc => ?_
  constructor
  · rintro ⟨n, hn, rfl⟩
    rwa [UInt32.toNat_ofNat_of_lt' hn.lt]
  · exact fun h => ⟨a.toNat, h, UInt32.ofNat_toNat.symm⟩

theorem readListHeader_accepts : Accepts (readListHeader : Reader Bytes UInt32) fun n enc =>
    Sized listForms n.toNat enc := counted_accepts (sized_accepts list_link UInt32.ofNat)

theorem readMapHeader_accepts : Accepts (readMapHeader : Reader Bytes UInt32) fun n enc =>
    Sized mapForms n.toNat enc := counted_accepts (sized_accepts map_link UInt32.ofNat)

/-- a length and so many bytes -/
theorem payload_accepts {k : SizeForms} {x : Reader Bytes Nat}
    (hx : Accepts x fun a enc => ∃ n, Sized k n enc ∧ a = id n) :
    Accepts (x >>= readExactBytes) fun payload enc =>
      ∃ header, Sized k payload.length header ∧ enc = header ++ payload := by
  refine (hx.bind readExactBytes_accepts).congr fun payload enc => ?_
  constructor
  · rintro ⟨_, header, _, ⟨n, hn, rfl⟩, ⟨rfl, rfl⟩, rfl⟩
    exact ⟨header, hn, rfl⟩
  · rintro ⟨header, h, rfl⟩
    exact ⟨_, header, payload, ⟨_, h, rfl⟩, ⟨rfl, rfl⟩, rfl⟩

/-- the string before it is checked -/
def readPayload : Reader Bytes Bytes := do
  let marker ← readMarker
  let len ← stringLen marker
  readExactBytes len

theorem readString_eq : (readString : Reader Bytes PackStreamString)
    = readPayload >>= fun bytes => okOr (PackStreamString.tryFrom bytes) .invalidUtf8 := by
  rw [readPayload, bind_assoc_run]
  exact congrArg (readMarker >>= ·) (funext fun marker => (bind_assoc_run _ _ _).symm)

theorem readPayload_accepts : Accepts readPayload fun payload enc =>
    ∃ header, Sized stringForms payload.length header ∧ enc = header ++ payload := by
  have h := payload_accepts (sized_accepts string_link id)
  rwa [bind_assoc_run] at h

theorem readBytes_accepts : Accepts (readBytes : Reader Bytes Bytes) fun payload enc =>
    ∃ header, Sized bytesForms payload.length header ∧ enc = header ++ payload := by
  have h := payload_accepts (sized_accepts bytes_link id)
  rwa [bind_assoc_run] at h

theorem ofBe_one (b : UInt8) : ofBe [b] = b.toNat := by
  rw [ofBe_cons, ofBe_nil, List.length_nil, Nat.pow_zero, Nat.mul_one, Nat.add_zero]

theorem readU8_accepts : Accepts (readU8 : Reader Bytes UInt8) fun b enc => enc = [b] := by
  refine (readBe_accepts 1 UInt8.ofNat).congr fun b enc => ?_
  constructor
  · rintro ⟨hlen, rfl⟩
    obtain ⟨b, rfl⟩ := List.length_eq_one_iff.mp hlen
    rw [ofBe_one, UInt8.ofNat_toNat]
  · rintro rfl
    rw [ofBe_one, UInt8.ofNat_toNat]
    exact ⟨rfl, rfl⟩

theorem readStructHeader_accepts : Accepts (readStructHeader : Reader Bytes (UInt8 × UInt32))
    fun h enc => ∃ header, Sized structForms h.2.toNat header ∧ enc = header ++ [h.1] := by
  have hsize := counted_accepts (sized_accepts struct_link UInt32.ofNat)
  have h := hsize.bind fun numFields => readU8_accepts.map fun tag => (tag, numFields)
  rw [bind_assoc_run] at h
  refine h.congr fun h enc => ?_
  constructor
  · rintro ⟨numFields, header, _, hn, ⟨tag, rfl, rfl⟩, rfl⟩
    exact ⟨header, hn, rfl⟩
  · rintro ⟨header, hn, rfl⟩
    exact ⟨h.2, header, [h.1], hn, ⟨h.1, rfl, rfl⟩, rfl⟩

theorem readNull_accepts : Accepts (readNull : Reader Bytes Unit) fun _ enc => enc = [0xC0] := by
  have hm : ∀ m, Accepts (if m = .null then pure () else rejectMarker m : Reader Bytes Unit)
      fun _ enc => m = .null ∧ enc = [] := by
    intro m
    by_cases h : m = .null
    · rw [if_pos h]
      exact (Accepts.pure ()).congr fun _ enc => by simp [h]
    · rw [if_neg h]
      exact (rejectMarker_accepts m).congr fun _ enc => by simp [h]
  refine (marked_accepts hm).congr fun _ enc => ?_
  constructor
  · rintro ⟨m, b, tail, hb, ⟨rfl, rfl⟩, rfl⟩
    cases hb
    rfl
  · rintro rfl
    exact ⟨.null, 0xC0, [], rfl, ⟨rfl, rfl⟩, rfl⟩

theorem readBool_accepts : Accepts (readBool : Reader Bytes Bool) fun value enc =>
    enc = [if value then 0xC3 else 0xC2] := by
  refine (marked_accepts (M := fun m value enc => m = (if value then .true else .false) ∧ enc = [])
    fun m => ?_).congr fun value enc => ?_
  · cases m with
    | true | false => exact (Accepts.pure _).congr fun value enc => by cases value <;> simp
    | _ => exact (rejectMarker_accepts _).congr fun value enc => by cases value <;> simp
  · constructor
    · rintro ⟨m, b, tail, hb, ⟨rfl, rfl⟩, rfl⟩
      cases value <;> cases hb <;> rfl
    · rintro rfl
      exact ⟨_, _, [], by cases value <;> rfl, ⟨rfl, rfl⟩, rfl⟩

theorem readFloat_accepts : Accepts (readFloat : Reader Bytes UInt64) fun bits enc =>
    enc = 0xC1 :: toBe 8 bits.toNat := by
  have hm : ∀ m : Marker, Accepts
      (if m ≠ .float64 then rejectMarker m else readBe 8 UInt64.ofNat : Reader Bytes UInt64)
      fun bits enc => m = .float64 ∧ enc = toBe 8 bits.toNat := by
    intro m
    by_cases h : m = .float64
    · rw [if_neg (not_not_intro h)]
      refine (readBe_accepts 8 UInt64.ofNat).congr fun bits enc => ?_
      constructor
      · rintro ⟨hlen, rfl⟩
        refine ⟨h, ?_⟩
        have hlt : ofBe enc < 256 ^ 8 := hlen ▸ ofBe_lt enc
        rw [UInt64.toNat_ofNat_of_lt' hlt, ← hlen, toBe_ofBe]
      · rintro ⟨-, rfl⟩
        exact ⟨length_toBe 8 _, by rw [ofBe_toBe_of_lt bits.toNat_lt, UInt64.ofNat_toNat]⟩
    · rw [if_pos h]
      exact (rejectMarker_accepts m).congr fun bits enc => by simp [h]
  refine (marked_accepts hm).congr fun bits enc => ?_
  constructor
  · rintro ⟨m, b, tail, hb, ⟨rfl, rfl⟩, rfl⟩
    cases hb
    rfl
  · rintro rfl
    exact ⟨.float64, 0xC1, _, rfl, ⟨rfl, rfl⟩, rfl⟩

/-! ## numbers -/

/-- what is read from `w` bytes is a signed number of that width -/
theorem signed_iff {w : Nat} (hw : 0 < w) {g : Nat → Int64}
    (hg : ∀ n : Nat, (g n).toInt = (n : Int).bmod (256 ^ w)) (v : Int64) (enc : Bytes) :
    (enc.length = w ∧ v = g (ofBe enc)) ↔ FitsIn w v.toInt ∧ enc = twos w v.toInt := by
  have h : enc.length = w → (v = g (ofBe enc) ↔ FitsIn w v.toInt ∧ enc = twos w v.toInt) := by
    intro hlen
    rw [← bmod_ofBe_iff hw hlen, ← hg, Int64.toInt_inj, eq_comm]
  constructor
  · rintro ⟨hlen, hv⟩
    exact (h hlen).mp hv
  · rintro ⟨hfits, henc⟩
    have hlen : enc.length = w := by rw [henc, length_twos]
    exact ⟨hlen, (h hlen).mpr ⟨hfits, henc⟩⟩

theorem signed_accepts {ι : Type} {w : Nat} (hw : 0 < w) {of : Nat → ι} {f : ι → Int64}
    (hg : ∀ n : Nat, (f (of n)).toInt = (n : Int).bmod (256 ^ w)) :
    Accepts (readBe w of >>= fun v => pure (f v) : Reader Bytes Int64) fun v enc =>
      FitsIn w v.toInt ∧ enc = twos w v.toInt := by
  refine ((readBe_accepts w of).map f).congr fun v enc => ?_
  rw [← signed_iff hw hg]
  constructor
  · rintro ⟨a, ⟨hlen, rfl⟩, rfl⟩
    exact ⟨hlen, rfl⟩
  · rintro ⟨hlen, rfl⟩
    exact ⟨_, ⟨hlen, rfl⟩, rfl⟩

theorem int8_bmod (n : Nat) : (Int8.ofNat n).toInt64.toInt = (n : Int).bmod (256 ^ 1) :=
  (Int8.toInt_toInt64 _).trans Int8.toInt_ofNat'

theorem int16_bmod (n : Nat) : (Int16.ofNat n).toInt64.toInt = (n : Int).bmod (256 ^ 2) :=
  (Int16.toInt_toInt64 _).trans Int16.toInt_ofNat'

theorem int32_bmod (n : Nat) : (Int32.ofNat n).toInt64.toInt = (n : Int).bmod (256 ^ 4) :=
  (Int32.toInt_toInt64 _).trans Int32.toInt_ofNat'

theorem int64_bmod (n : Nat) : (Int64.ofNat n).toInt = (n : Int).bmod (256 ^ 8) :=
  Int64.toInt_ofNat'

theorem tinyInt_byte {x : Int8} {b : UInt8} :
    (Marker.tinyInt x).toByte = .ok b ↔ (-16 ≤ x.toInt ∧ x.toInt ≤ 127) ∧ b.toInt8 = x := by
  have hrange : (-16 ≤ x ∧ x ≤ 127) ↔ (-16 ≤ x.toInt ∧ x.toInt ≤ 127) := by
    rw [Int8.le_iff_toInt_le, Int8.le_iff_toInt_le]
    exact Iff.rfl
  have hto : (Marker.tinyInt x).toByte = if ¬ (-16 ≤ x ∧ x ≤ 127) then
      .error (.tinyIntOutOfRange x) else .ok x.toUInt8 := rfl
  rw [hto, ← hrange]
  by_cases h : -16 ≤ x ∧ x ≤ 127
  · rw [if_neg (not_not_intro h)]
    constructor
    · rintro ⟨⟩
      exact ⟨h, rfl⟩
    · rintro ⟨-, rfl⟩
      rfl
  · rw [if_pos h]
    exact ⟨nofun, fun h' => absurd h'.1 h⟩

/-- the small numbers are their own markers -/
theorem tinyInt_iff (v : Int64) (b : UInt8) :
    (∃ x, (Marker.tinyInt x).toByte = .ok b ∧ v = x.toInt64) ↔
      (-16 ≤ v.toInt ∧ v.toInt ≤ 127) ∧ [b] = twos 1 v.toInt := by
  have hsigned := signed_iff Nat.one_pos int8_bmod v [b]
  rw [ofBe_one] at hsigned
  have hbyte : (Int8.ofNat b.toNat).toInt64 = b.toInt8.toInt64 := by
    rw [← UInt8.toInt8_ofNat', UInt8.ofNat_toNat]
  rw [hbyte] at hsigned
  constructor
  · rintro ⟨x, hx, rfl⟩
    obtain ⟨hrange, rfl⟩ := tinyInt_byte.mp hx
    rw [Int8.toInt_toInt64]
    refine ⟨hrange, ?_⟩
    have h := (hsigned.mp ⟨rfl, rfl⟩).2
    rwa [Int8.toInt_toInt64] at h
  · rintro ⟨hrange, htwos⟩
    have hfits : FitsIn 1 v.toInt := by
      rw [FitsIn]
      omega
    obtain ⟨-, rfl⟩ := hsigned.mpr ⟨hfits, htwos⟩
    rw [Int8.toInt_toInt64] at hrange
    exact ⟨b.toInt8, tinyInt_byte.mpr ⟨hrange, rfl⟩, rfl⟩

/-- what follows the marker of a number -/
def IntBody (m : Marker) (v : Int64) (enc : Bytes) : Prop :=
  match m with
  | .tinyInt x => v = x.toInt64 ∧ enc = []
  | .int8 => FitsIn 1 v.toInt ∧ enc = twos 1 v.toInt
  | .int16 => FitsIn 2 v.toInt ∧ enc = twos 2 v.toInt
  | .int32 => FitsIn 4 v.toInt ∧ enc = twos 4 v.toInt
  | .int64 => FitsIn 8 v.toInt ∧ enc = twos 8 v.toInt
  | _ => False

theorem readInt_accepts : Accepts (readInt : Reader Bytes Int64) fun v enc =>
    (-16 ≤ v.toInt ∧ v.toInt ≤ 127) ∧ enc = twos 1 v.toInt ∨
    ∃ b w, (b, w) ∈ intForms ∧ FitsIn w v.toInt ∧ enc = b :: twos w v.toInt := by
  have h64 : Accepts (readI64 : Reader Bytes Int64) fun v enc =>
      FitsIn 8 v.toInt ∧ enc = twos 8 v.toInt :=
    (readBe_accepts 8 Int64.ofNat).congr (signed_iff (by decide) int64_bmod)
  have hm : ∀ m : Marker, Accepts (match m with
      | .tinyInt v => pure v.toInt64
      | .int8 => do
        let v ← readI8
        pure v.toInt64
      | .int16 => do
        let v ← readI16
        pure v.toInt64
      | .int32 => do
        let v ← readI32
        pure v.toInt64
      | .int64 => readI64
      | _ => rejectMarker m : Reader Bytes Int64) (IntBody m) := by
    intro m
    cases m with
    | tinyInt x => exact Accepts.pure x.toInt64
    | int8 => exact signed_accepts (by decide) int8_bmod
    | int16 => exact signed_accepts (by decide) int16_bmod
    | int32 => exact signed_accepts (by decide) int32_bmod
    | int64 => exact h64
    | _ => exact rejectMarker_accepts _
  refine (marked_accepts hm).congr fun v enc => ?_
  constructor
  · rintro ⟨m, b, tail, hb, hbody, rfl⟩
    cases m with
    | tinyInt x =>
      obtain ⟨rfl, rfl⟩ := hbody
      exact .inl ((tinyInt_iff _ b).mp ⟨x, hb, rfl⟩)
    | int8 | int16 | int32 | int64 =>
      cases hb
      exact .inr ⟨_, _, by decide, hbody.1, congrArg _ hbody.2⟩
    | _ => exact hbody.elim
  · rintro (⟨hrange, rfl⟩ | ⟨b, w, hw, hfits, rfl⟩)
    · obtain ⟨b, hb⟩ := List.length_eq_one_iff.mp (length_twos 1 v.toInt)
      obtain ⟨x, hx, hv⟩ := (tinyInt_iff v b).mpr ⟨hrange, hb.symm⟩
      exact ⟨.tinyInt x, b, [], hx, ⟨hv, rfl⟩, hb⟩
    · simp only [intForms, List.mem_cons, Prod.mk.injEq, List.not_mem_nil, or_false] at hw
      rcases hw with ⟨rfl, rfl⟩ | ⟨rfl, rfl⟩ | ⟨rfl, rfl⟩ | ⟨rfl, rfl⟩
      · exact ⟨.int8, _, _, rfl, ⟨hfits, rfl⟩, rfl⟩
      · exact ⟨.int16, _, _, rfl, ⟨hfits, rfl⟩, rfl⟩
      · exact ⟨.int32, _, _, rfl, ⟨hfits, rfl⟩, rfl⟩
      · exact ⟨.int64, _, _, rfl, ⟨hfits, rfl⟩, rfl⟩

end PackStreamReader

/-! ## all reads -/

section
variable [BytesCrate]
open PackStreamReader

/-- the read, but for the check of a string -/
def ReadOp.frame : ReadOp → Reader Bytes ReadVal
  | .string => do
    let payload ← readPayload
    pure (.bytes payload)
  | op => op.run

/-- only a string is checked -/
theorem frame_plain {op : ReadOp} (hop : op ≠ .string) : (op.frame : Reader Bytes ReadVal) = op.run := by
  cases op with
  | string => exact absurd rfl hop
  | _ => rfl

/-- **The typed reads accept the formats.** -/
theorem frame_accepts {op : ReadOp} (h : op.Typed) : Accepts op.frame (Frame op) := by
  cases op with
  | null =>
    refine (readNull_accepts.map fun _ => ReadVal.null).congr fun v enc => ?_
    constructor
    · rintro ⟨_, rfl, rfl⟩
      exact .null
    · rintro ⟨⟩
      exact ⟨(), rfl, rfl⟩
  | bool =>
    refine (readBool_accepts.map ReadVal.bool).congr fun v enc => ?_
    constructor
    · rintro ⟨value, rfl, rfl⟩
      cases value with
      | false => exact .false
      | true => exact .true
    · rintro (_ | _ | _)
      · exact ⟨_, rfl, rfl⟩
      · exact ⟨_, rfl, rfl⟩
  | int =>
    refine (readInt_accepts.map ReadVal.int).congr fun v enc => ?_
    constructor
    · rintro ⟨v, ⟨hrange, rfl⟩ | ⟨b, w, hw, hfits, rfl⟩, rfl⟩
      · exact .tinyInt hrange
      · exact .int hw hfits
    · intro h
      cases h with
      | tinyInt hrange => exact ⟨_, .inl ⟨hrange, rfl⟩, rfl⟩
      | int hw hfits => exact ⟨_, .inr ⟨_, _, hw, hfits, rfl⟩, rfl⟩
  | float =>
    refine (readFloat_accepts.map ReadVal.float).congr fun v enc => ?_
    constructor
    · rintro ⟨bits, rfl, rfl⟩
      exact .float bits
    · rintro ⟨⟩
      exact ⟨_, rfl, rfl⟩
  | string =>
    refine (readPayload_accepts.map ReadVal.bytes).congr fun v enc => ?_
    constructor
    · rintro ⟨payload, ⟨header, hsized, rfl⟩, rfl⟩
      exact .string hsized
    · intro h
      cases h with
      | string hsized => exact ⟨_, ⟨_, hsized, rfl⟩, rfl⟩
  | bytes =>
    refine (readBytes_accepts.map ReadVal.bytes).congr fun v enc => ?_
    constructor
    · rintro ⟨payload, ⟨header, hsized, rfl⟩, rfl⟩
      exact .bytes hsized
    · intro h
      cases h with
      | bytes hsized => exact ⟨_, ⟨_, hsized, rfl⟩, rfl⟩
  | listHeader =>
    refine (readListHeader_accepts.map ReadVal.count).congr fun v enc => ?_
    constructor
    · rintro ⟨n, hsized, rfl⟩
      exact .listHeader hsized
    · intro h
      cases h with
      | listHeader hsized => exact ⟨_, hsized, rfl⟩
  | mapHeader =>
    refine (readMapHeader_accepts.map ReadVal.count).congr fun v enc => ?_
    constructor
    · rintro ⟨n, hsized, rfl⟩
      exact .mapHeader hsized
    · intro h
      cases h with
      | mapHeader hsized => exact ⟨_, hsized, rfl⟩
  | structHeader =>
    refine (readStructHeader_accepts.map fun h => ReadVal.header h.1 h.2).congr fun v enc => ?_
    constructor
    · rintro ⟨⟨tag, n⟩, ⟨header, hsized, rfl⟩, rfl⟩
      exact .structHeader tag hsized
    · intro h
      cases h with
      | structHeader tag hsized => exact ⟨(tag, _), ⟨_, hsized, rfl⟩, rfl⟩
  | peek | remaining | skip => exact h.elim

theorem okOr_accepts : ∀ payload, Accepts (okOr (PackStreamString.tryFrom payload) .invalidUtf8 :
    Reader Bytes PackStreamString) fun s enc => s.bytes = payload ∧ enc = [] := by
  intro payload
  unfold PackStreamString.tryFrom
  by_cases h : IsUtf8 payload
  · rw [dif_pos h]
    refine (Accepts.pure _).congr fun s enc => and_congr_left' ?_
    constructor
    · rintro rfl
      rfl
    · rintro rfl
      rfl
  · rw [dif_neg h]
    refine (Accepts.none fun data => by rintro ⟨a, ⟨⟩⟩).congr fun s enc => ?_
    constructor
    · exact False.elim
    · rintro ⟨rfl, -⟩
      exact h s.valid

theorem run_accepts {op : ReadOp} (h : op.Typed) :
    Accepts (op.run : Reader Bytes ReadVal) (Encodes op) := by
  by_cases hop : op = .string
  · subst hop
    have hx := (readPayload_accepts.bind okOr_accepts).map ReadVal.string
    rw [← readString_eq] at hx
    refine hx.congr fun v enc => ?_
    constructor
    · rintro ⟨s, ⟨payload, _, _, ⟨header, hsized, rfl⟩, ⟨rfl, rfl⟩, rfl⟩, rfl⟩
      rw [List.append_nil]
      exact .string (.string hsized)
    · intro henc
      cases henc with
      | plain hop => exact absurd rfl hop
      | @string s enc hframe =>
        cases hframe with
        | string hsized =>
          exact ⟨s, ⟨s.bytes, _, [], ⟨_, hsized, rfl⟩, ⟨rfl, rfl⟩, (List.append_nil _).symm⟩, rfl⟩
  · have hx := frame_accepts h
    rw [frame_plain hop] at hx
    refine hx.congr fun v enc => ⟨.plain hop, fun henc => ?_⟩
    cases henc with
    | plain _ hframe => exact hframe
    | string => exact absurd rfl hop

end
end Bolt
