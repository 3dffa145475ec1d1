import BoltWire.ReaderOnline
import BoltWire.SkipValue

/-!
# What `skip_value` says about an input that is cut

* `Accepted`        an input, of a length that exists, on which `skipValue` succeeds;
* `valueHead_online`, `valueHead_viable`   heads ask for more, and can be given it;
* `skipValue_online`, `skipValue_extends`  so does the whole of `skipValue`;
* `skipValue_blames`   `InvalidMarker` names the byte it has just taken;
* `skipValue_exact`, `skipValue_eof_iff`, `skipValue_bad_iff`   what each of its three answers says;
* `skipValue_viable`   truncation and corruption are told apart.
-/

namespace Bolt
open Rust Rust.Call

namespace PackStreamReader
section
variable [BytesCrate]

def Accepted (s : Bytes) : Prop := s.length ≤ usizeMax ∧ ∃ rest, skipValue s = (.ok (), rest)

/-! ## heads -/

theorem markerHead_hungry (marker : Marker) :
    Hungry .unexpectedEof (2 ^ 33) (markerHead marker) := by
  have hskip : ∀ n, Hungry .unexpectedEof n (skipBytes n >>= fun _ => pure 0 : Reader Bytes Nat) :=
    fun n => (skipBytes_hungry n).map _
  cases marker with
  | null | true | false | tinyInt => exact (Hungry.pure 0).mono (by decide)
  | int8 | int16 | int32 | int64 | float64 => exact (hskip _).mono (by decide)
  | tinyString | string8 | string16 | string32 | bytes8 | bytes16 | bytes32 =>
    refine ((sizeLen_hungry id ?_).bind (k := 2 ^ 32) fun len hlen => ?_).mono (by decide)
    · simp
    · have hlt : len < 2 ^ 32 := by
        obtain ⟨n, hn, rfl⟩ := sizeLen_small hlen
        exact hn
      exact (hskip len).mono hlt.le
  | tinyList | list8 | list16 | list32 =>
    refine ((sizeLen_hungry UInt32.ofNat ?_).map UInt32.toNat).mono (by decide)
    simp
  | tinyMap | map8 | map16 | map32 =>
    refine ((sizeLen_hungry UInt32.ofNat ?_).map (2 * UInt32.toNat ·)).mono (by decide)
    simp
  | tinyStruct | struct8 | struct16 =>
    refine ((sizeLen_hungry UInt32.ofNat ?_).bind (k := 1) fun len _ => ?_).mono (by decide)
    · simp
    · exact (skipBytes_hungry 1).map _

theorem valueHead_online : Online .unexpectedEof valueHead :=
  marked_online fun m => (markerHead_hungry m).online

theorem valueHead_viable : Viable .unexpectedEof (1 + 2 ^ 33) valueHead :=
  marked_viable ⟨_, rfl⟩ (markerHead_hungry .null) fun m => .inl (markerHead_hungry m)

/-- the shortest value -/
theorem valueHead_null : Takes valueHead [0xC0] 0 :=
  fun rest => bind_ok (readMarker_good (b := 0xC0) rfl rest) _

/-- a head fails on its marker or asks for more -/
theorem valueHead_fails {data rest : Bytes} {e : PackStreamError}
    (h : valueHead data = (.err e, rest)) : e = .unexpectedEof ∨
      ∃ b, data = b :: rest ∧ e = .invalidMarker b ∧ Marker.fromByte b = .error (.invalidByte b) := by
  cases data with
  | nil =>
    rw [valueHead, bind_err readMarker_nil] at h
    cases h
    exact .inl rfl
  | cons b tail =>
    rcases fromByte_cases b with hb | hb
    · obtain ⟨m, hm, -⟩ : ∃ m, Marker.fromByte b = .ok m ∧ m.toByte = .ok b := by
        cases hm : Marker.fromByte b with
        | ok m => exact ⟨m, rfl, toByte_of_fromByte hm⟩
        | error e => rw [hm] at hb; cases hb
      rw [valueHead, bind_ok (readMarker_good hm tail)] at h
      rcases (markerHead_hungry m).ends tail with ⟨n, hn⟩ | hn
      · rw [h] at hn
        cases hn
      · rw [h] at hn
        exact .inl (Res.err.inj hn)
    · rw [valueHead, bind_err (readMarker_bad hb tail)] at h
      cases h
      exact .inr ⟨b, rfl, rfl, hb⟩

/-! ## `skipValue` -/

theorem skipValue_online : Online .unexpectedEof (skipValue : Reader Bytes Unit) := by
  rw [skipValue_eq]
  refine countOne_online valueHead_consumes valueHead_online (fun k m => ?_) fun k m => ?_
  · exact Safe.shrinks (Q := fun _ => True)
      (Safe.ite (fun _ => Safe.pure trivial) fun _ => Safe.err _)
  · exact Online.ite (fun _ => Online.pure _) fun _ => Online.err _

/-- `InvalidMarker` names the last byte that was taken, and no other error but `UnexpectedEof` is
possible -/
theorem skipValue_blames {data rest : Bytes} {e : PackStreamError}
    (h : skipValue data = (.err e, rest)) : e = .unexpectedEof ∨ ∃ pre b, data = pre ++ b :: rest ∧
      e = .invalidMarker b ∧ Marker.fromByte b = .error (.invalidByte b) := by
  have hloop : whileLoop owed (countStep (bounded (2 ^ 64) .unexpectedEof) valueHead)
      (data.length + 1) 1 data = (.err e, rest) := by
    rw [skipValue_eq] at h
    unfold countOne at h
    rcases hr : whileLoop owed (countStep (bounded (2 ^ 64) .unexpectedEof) valueHead)
      (data.length + 1) 1 data with ⟨r, s⟩
    rw [bind_run, hr] at h
    cases r <;> cases h
    rfl
  have hsuffix : ∀ k s k' s', s <:+ data →
      countStep (bounded (2 ^ 64) .unexpectedEof) valueHead k s = (.ok k', s') → s' <:+ data := by
    intro k s k' s' hs hstep
    obtain ⟨m, mid, hd, hadd⟩ := ok_of_bind hstep
    have h1 := (valueHead_safe s).2
    rw [hd] at h1
    simp only [bounded] at hadd
    split at hadd <;> cases hadd
    exact h1.trans hs
  obtain ⟨k, mid, ⟨pre, rfl⟩, hstep⟩ :=
    whileLoop_fails (fun _ s => s <:+ data) hsuffix _ (List.suffix_refl data) hloop
  rcases hd : valueHead mid with ⟨r, tail⟩
  rw [countStep, bind_run, hd] at hstep
  cases r with
  | ok m =>
    simp only [bounded] at hstep
    split at hstep <;> cases hstep
    exact .inl rfl
  | err e' =>
    cases hstep
    rcases valueHead_fails hd with rfl | ⟨b, rfl, rfl, hb⟩
    · exact .inl rfl
    · exact .inr ⟨pre, b, rfl, rfl, hb⟩
  | panic => cases hstep
  | spin => cases hstep

/-- an input that is too short for a value can be made one -/
theorem skipValue_extends {s : Bytes} (hs : s.length < 2 ^ 30)
    (h : (skipValue s).1 = .err .unexpectedEof) :
    ∃ t, (s ++ t).length ≤ usizeMax ∧ skipValue (s ++ t) = (.ok (), []) := by
  rw [skipValue_eq, countOne_eq valueHead_consumes valueHead_safe _ (by omega)] at h
  have hloop : (whileLoop owed (countStep unbounded valueHead) (s.length + 1) 1 s).1
      = .err .unexpectedEof := by
    unfold countOne at h
    rcases hr : whileLoop owed (countStep unbounded valueHead) (s.length + 1) 1 s with ⟨r, rest⟩
    rw [bind_run, hr] at h
    cases r <;> cases h
    rfl
  obtain ⟨t, ht, hrun⟩ := count_viable valueHead_online valueHead_viable valueHead_consumes
    valueHead_safe valueHead_null (s.length + 1) 1 s (Nat.lt_succ_self _) hloop
  have hlen : (s ++ t).length ≤ usizeMax := by
    rw [List.length_append]
    unfold usizeMax
    omega
  refine ⟨t, hlen, ?_⟩
  rw [skipValue_eq, countOne_ok_iff valueHead_consumes _ (Nat.lt_of_le_of_lt hlen (by decide))]
  exact bind_ok (hrun _ (Nat.lt_succ_self _)) _

/-- an end other than for want of input decides every extension -/
theorem skipValue_append {s rest : Bytes} {r : Res PackStreamError Unit}
    (h : skipValue s = (r, rest)) (hr : r ≠ .err .unexpectedEof) (t : Bytes) :
    skipValue (s ++ t) = (r, rest ++ t) := by
  obtain ⟨enc, rfl, hreads⟩ := skipValue_online.reads h hr
  rw [List.append_assoc]
  exact hreads (rest ++ t)

theorem skipValue_cases (s : Bytes) : (∃ rest, skipValue s = (.ok (), rest)) ∨
    (skipValue s).1 = .err .unexpectedEof ∨ ∃ b rest, skipValue s = (.err (.invalidMarker b), rest) := by
  have hmeets := (skipValue_safe s).1
  rcases h : skipValue s with ⟨r, rest⟩
  rw [h] at hmeets
  cases r with
  | ok a => exact .inl ⟨rest, rfl⟩
  | err e =>
    rcases skipValue_blames h with rfl | ⟨pre, b, -, rfl, -⟩
    · exact .inr (.inl rfl)
    · exact .inr (.inr ⟨b, rest, rfl⟩)
  | panic => exact hmeets.elim
  | spin => exact hmeets.elim

/-! ## truncation and corruption -/

/-- a value that was skipped is skipped whatever follows it, and no proper part of it is -/
theorem skipValue_exact {s rest : Bytes} (h : skipValue s = (.ok (), rest)) {n : Nat}
    (hn : n + rest.length = s.length) :
    (∀ k < n, (skipValue (s.take k)).1 = .err .unexpectedEof) ∧
      ∀ t, skipValue (s.take n ++ t) = (.ok (), t) := by
  obtain ⟨enc, rfl, hreads⟩ := skipValue_online.reads h nofun
  have hlen : enc.length = n := by
    rw [List.length_append] at hn
    omega
  rw [List.take_left' hlen]
  refine ⟨fun k hk => ?_, hreads⟩
  rw [List.take_append_of_le_length (by omega)]
  refine skipValue_online.short hreads (List.take_prefix k enc) fun e => ?_
  have := congrArg List.length e
  rw [List.length_take] at this
  omega

theorem not_accepted_of_bad {s rest : Bytes} {b : UInt8}
    (h : skipValue s = (.err (.invalidMarker b), rest)) (t : Bytes) : ¬ Accepted (s ++ t) := by
  rintro ⟨-, rest', hok⟩
  rw [skipValue_append h nofun] at hok
  cases hok

theorem accepted_of_eof {s : Bytes} (hs : s.length < 2 ^ 30)
    (h : (skipValue s).1 = .err .unexpectedEof) : ∃ t, Accepted (s ++ t) := by
  obtain ⟨t, hlen, hrun⟩ := skipValue_extends hs h
  exact ⟨t, hlen, [], hrun⟩

theorem skipValue_eof_iff {s : Bytes} (hs : s.length < 2 ^ 30) :
    (skipValue s).1 = .err .unexpectedEof ↔ ¬ Accepted s ∧ ∃ t, Accepted (s ++ t) := by
  constructor
  · intro h
    refine ⟨?_, accepted_of_eof hs h⟩
    rintro ⟨-, rest, hok⟩
    rw [hok] at h
    cases h
  · rintro ⟨hno, t, ht⟩
    rcases skipValue_cases s with ⟨rest, h⟩ | h | ⟨b, rest, h⟩
    · exact absurd ⟨Nat.le_trans hs.le (by decide), rest, h⟩ hno
    · exact h
    · exact absurd ht (not_accepted_of_bad h t)

theorem skipValue_bad_iff {s : Bytes} (hs : s.length < 2 ^ 30) :
    (∃ b, (skipValue s).1 = .err (.invalidMarker b)) ↔ ∀ t, ¬ Accepted (s ++ t) := by
  constructor
  · rintro ⟨b, h⟩
    exact not_accepted_of_bad (Prod.ext h rfl)
  · intro hno
    rcases skipValue_cases s with ⟨rest, h⟩ | h | ⟨b, rest, h⟩
    · refine absurd ⟨?_, rest, ?_⟩ (hno [])
      · rw [List.append_nil]
        exact Nat.le_trans hs.le (by decide)
      · rw [List.append_nil]
        exact h
    · obtain ⟨t, ht⟩ := accepted_of_eof hs h
      exact absurd ht (hno t)
    · exact ⟨b, congrArg Prod.fst h⟩

/-- the byte that is blamed is the last one taken, and no marker -/
theorem skipValue_bad_byte {s rest : Bytes} {b : UInt8}
    (h : skipValue s = (.err (.invalidMarker b), rest)) :
    (∃ pre, s = pre ++ b :: rest) ∧ Marker.fromByte b = .error (.invalidByte b) := by
  rcases skipValue_blames h with e | ⟨pre, b', hs, e, hb⟩
  · cases e
  · cases e
    exact ⟨⟨pre, hs⟩, hb⟩

/-- the skipped values are free of prefixes -/
theorem skipValue_free {v w : Bytes} (hv : skipValue v = (.ok (), [])) (hw : skipValue w = (.ok (), []))
    (h : v <+: w) : v = w := by
  obtain ⟨t, rfl⟩ := h
  rw [skipValue_append hv nofun] at hw
  have ht : t = [] := congrArg Prod.snd hw
  rw [ht, List.append_nil]

/-- **Truncation and corruption are told apart.**  A value that was skipped is skipped whatever
follows it, and no proper part of it is; `UnexpectedEof` is for the inputs that go on to an accepted
one, `InvalidMarker` for those that do not, and it names the byte that ruled them out. -/
theorem skipValue_viable :
    (∀ s : Bytes, s.length < 2 ^ 30 →
      (∀ n rest, skipValue s = (.ok (), rest) → n + rest.length = s.length →
        (∀ k < n, (skipValue (s.take k)).1 = .err .unexpectedEof) ∧
        ∀ t, skipValue (s.take n ++ t) = (.ok (), t)) ∧
      ((skipValue s).1 = .err .unexpectedEof ↔ ¬ Accepted s ∧ ∃ t, Accepted (s ++ t)) ∧
      ((∃ b, (skipValue s).1 = .err (.invalidMarker b)) ↔ ∀ t, ¬ Accepted (s ++ t)) ∧
      ∀ b rest, skipValue s = (.err (.invalidMarker b), rest) →
        (∃ pre, s = pre ++ b :: rest) ∧ Marker.fromByte b = .error (.invalidByte b)) ∧
    ∀ v w : Bytes, skipValue v = (.ok (), []) → skipValue w = (.ok (), []) → v <+: w → v = w := by
  exact ⟨fun s hs => ⟨fun n rest h hn => skipValue_exact h hn, skipValue_eof_iff hs,
    skipValue_bad_iff hs, fun b rest h => skipValue_bad_byte h⟩, fun v w hv hw => skipValue_free hv hw⟩

end

/-- a list of two, cut and whole, and a list with an unassigned byte in it -/
theorem skipValue_viable_list :
    letI := BytesCrate.copying
    (∀ k < 4, (skipValue (([0x92, 1, 0x81, 0x61, 7] : Bytes).take k)).1 = .err .unexpectedEof) ∧
    (∃ t, Accepted (([0x92, 1, 0x81] : Bytes) ++ t)) ∧
    ∀ t, ¬ Accepted (([0x92, 1, 0xC4] : Bytes) ++ t) := by
  let _ := BytesCrate.copying
  obtain ⟨h1, -⟩ := skipValue_viable.1 [0x92, 1, 0x81, 0x61, 7] (by decide)
  obtain ⟨-, h2, -⟩ := skipValue_viable.1 [0x92, 1, 0x81] (by decide)
  obtain ⟨-, -, h3, -⟩ := skipValue_viable.1 [0x92, 1, 0xC4] (by decide)
  refine ⟨(h1 4 [7] ?_ rfl).1, (h2.mp ?_).2, h3.mp ⟨0xC4, ?_⟩⟩
  all_goals decide +kernel

end PackStreamReader
end Bolt
