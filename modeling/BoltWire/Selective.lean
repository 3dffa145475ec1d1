import BoltWire.Lib.Walk
import BoltWire.Verdicts

/-!
# Reading some values and skipping others

A client looks at the marker, makes the typed read that it calls for and goes on with the children,
or skips the value.  Which values it enters is up to it.

* `nextOp`          the typed read that the next marker calls for;
* `enterValue`      that read, and the number of values that follow what was read;
* `enterValue_head` but for the check of strings it takes what `skip_value` takes, errors included;
* `strictWalk`, `tolerantWalk`   clients that stop or go on after `InvalidUtf8`;
* `walk_skips`      every client ends where one `skip_value` ends.
-/

set_option linter.unusedSectionVars false

namespace Bolt
open Rust Rust.Call BigEndian

namespace PackStreamReader
section
variable {B : Type} [Buf B] [BytesCrate]

/-- any read will do to find out that no marker comes next -/
def nextOp : Reader B ReadOp := do
  let b ← peek
  match b with
  | none => pure .null
  | some b =>
    match Marker.fromByte b with
    | .ok marker => pure marker.op
    | .error _ => pure .null

def enterValue : Reader B Nat := do
  let op ← nextOp
  let v ← op.run
  pure (op.arity v)

def strictWalk (plan : List Nat → Bool) (fuel : Nat) : Reader B Unit :=
  walk enterValue skipValue plan fuel []

/-- a string that is not UTF-8 has been read to its end, so the client may go on behind it -/
def tolerantWalk (plan : List Nat → Bool) (fuel : Nat) : Reader B Unit :=
  walk (tolerate .invalidUtf8 0 enterValue) skipValue plan fuel []

end

/-! ## entering a value -/

section
variable [BytesCrate] {α γ : Type}

/-- a call that has made sure of `n` bytes and takes them may as well skip them -/
theorem ensured_bind_skip {n : Nat} {x : Reader Bytes α}
    (hx : ∀ data : Bytes, n ≤ data.length → ∃ a, x data = (.ok a, data.drop n)) (f : Reader Bytes γ) :
    ((ensure n >>= fun _ => x) >>= fun _ => f) = skipBytes n >>= fun _ => f := by
  funext data
  by_cases hn : n ≤ data.length
  · obtain ⟨a, ha⟩ := hx data hn
    have htake : (ensure n >>= fun _ => x) data = (.ok a, data.drop n) := by
      rw [bind_ok (ensure_enough hn), ha]
    have hskip : (skipBytes n : Reader Bytes Unit) data = (.ok (), data.drop n) :=
      (bind_ok (ensure_enough hn) _).trans (Bytes.advance_run hn)
    rw [bind_ok htake, bind_ok hskip]
  · have hlt := Nat.lt_of_not_le hn
    have hskip : (skipBytes n : Reader Bytes Unit) data = (.err .unexpectedEof, data) :=
      bind_err (ensure_short hlt) _
    rw [bind_err (bind_err (ensure_short hlt) _), bind_err hskip]

theorem readBe_bind_skip (n : Nat) (of : Nat → α) (f : Reader Bytes γ) :
    ((readBe n of : Reader Bytes α) >>= fun _ => f) = skipBytes n >>= fun _ => f :=
  ensured_bind_skip (fun _ hn => ⟨_, bind_ok (getArray_flat hn) _⟩) f

theorem readExactBytes_bind_skip (n : Nat) (f : Reader Bytes γ) :
    ((readExactBytes n : Reader Bytes Bytes) >>= fun _ => f) = skipBytes n >>= fun _ => f :=
  ensured_bind_skip (fun _ hn => ⟨_, Bytes.copyToBytes_run hn⟩) f

/-- what is read after a marker, up to the check of a string, is what a head takes -/
theorem raw_arity (m : Marker) :
    (m.raw >>= fun v => pure (m.op.arity v)) = markerHead m := by
  cases m with
  | null | true | false | tinyInt => rfl
  | int8 | int16 | int32 | int64 | float64 =>
    exact (bind_assoc_run _ _ _).trans (readBe_bind_skip _ _ (pure 0))
  | tinyString | string8 | string16 | string32 | bytes8 | bytes16 | bytes32 =>
    refine (bind_assoc_deep _ _ _ _).trans (congrArg (_ >>= ·) (funext fun len => ?_))
    exact readExactBytes_bind_skip len (pure 0)
  | tinyList | list8 | list16 | list32 | tinyMap | map8 | map16 | map32 =>
    exact bind_assoc_run _ _ _
  | tinyStruct | struct8 | struct16 =>
    refine (bind_assoc_deep _ _ _ _).trans (congrArg (_ >>= ·) (funext fun numFields => ?_))
    exact readBe_bind_skip 1 UInt8.ofNat (pure numFields.toNat)

theorem body_check (m : Marker) : m.body = m.raw >>= m.op.check := by
  cases m with
  | tinyString | string8 | string16 | string32 =>
    exact Eq.symm (bind_assoc_deep (stringLen _) readExactBytes
      (fun _ payload => pure (ReadVal.bytes payload)) (ReadOp.check .string))
  | _ => exact (bind_pure_run _).symm

/-- the check of a string leaves its bytes taken, and a string has no children -/
theorem check_arity (op : ReadOp) (v : ReadVal) (data : Bytes) :
    tolerate .invalidUtf8 0 (op.check v >>= fun v => pure (op.arity v)) data
      = (.ok (op.arity v), data) := by
  by_cases hop : op = .string
  · subst hop
    have h0 : ∀ v, ReadOp.arity .string v = 0 := fun v => by cases v <;> rfl
    rw [h0]
    rcases check_cases .string v data with ⟨v', hv⟩ | ⟨-, payload, rfl, -, herr⟩
    · exact tolerate_ok _ _ ((bind_ok hv _).trans (by rw [h0]; rfl))
    · exact tolerate_same _ (bind_err herr _)
  · have hv : op.check v = pure v := by
      cases op with
      | string => exact absurd rfl hop
      | _ => rfl
    rw [hv]
    exact tolerate_ok _ _ rfl

theorem nextOp_bad {b : UInt8} {e : MarkerError} (h : Marker.fromByte b = .error e) (rest : Bytes) :
    (nextOp : Reader Bytes ReadOp) (b :: rest) = (.ok .null, b :: rest) := by
  show (match Marker.fromByte b with
    | .ok marker => pure marker.op
    | .error _ => pure ReadOp.null : Reader Bytes ReadOp) _ = _
  rw [h]
  rfl

theorem nextOp_good {b : UInt8} {m : Marker} (h : Marker.fromByte b = .ok m) (rest : Bytes) :
    (nextOp : Reader Bytes ReadOp) (b :: rest) = (.ok m.op, b :: rest) := by
  show (match Marker.fromByte b with
    | .ok marker => pure marker.op
    | .error _ => pure ReadOp.null : Reader Bytes ReadOp) _ = _
  rw [h]
  rfl

/-- **The read that the marker calls for takes what a head takes**, but for the check of strings, and
fails where it fails. -/
theorem enterValue_head : tolerate .invalidUtf8 0 (enterValue : Reader Bytes Nat) = valueHead := by
  have htyped : ReadOp.null.Typed := trivial
  funext data
  cases data with
  | nil =>
    have hnull : (ReadOp.null.run : Reader Bytes ReadVal) [] = (.err .unexpectedEof, []) :=
      typed_nil htyped
    have h : (enterValue : Reader Bytes Nat) [] = (.err .unexpectedEof, []) := by
      show (ReadOp.null.run >>= fun v => pure (ReadOp.null.arity v) : Reader Bytes Nat) [] = _
      rw [bind_err hnull]
    rw [tolerate_other (e := .invalidUtf8) 0 h (by decide)]
    exact (bind_err readMarker_nil _).symm
  | cons b rest =>
    cases hb : Marker.fromByte b with
    | error e =>
      have hnull : (ReadOp.null.run : Reader Bytes ReadVal) (b :: rest)
          = (.err (.invalidMarker b), rest) := typed_bad htyped hb rest
      have h : (enterValue : Reader Bytes Nat) (b :: rest) = (.err (.invalidMarker b), rest) := by
        rw [enterValue, bind_ok (nextOp_bad hb rest), bind_err hnull]
      have hother : PackStreamError.invalidMarker b ≠ .invalidUtf8 := by
        intro heq
        cases heq
      rw [tolerate_other 0 h hother]
      exact (bind_err (readMarker_bad hb rest) _).symm
    | ok m =>
      have henter : (enterValue : Reader Bytes Nat) (b :: rest)
          = (m.raw >>= fun v => m.op.check v >>= fun v => pure (m.op.arity v)) rest := by
        rw [enterValue, bind_ok (nextOp_good hb rest), bind_run, typed_own hb, body_check, ← bind_run,
          bind_assoc_run]
      have hhead : valueHead (b :: rest) = (m.raw >>= fun v => pure (m.op.arity v)) rest := by
        rw [valueHead, bind_ok (readMarker_good hb rest), raw_arity]
      rw [hhead]
      rcases hraw : m.raw rest with ⟨r, rest'⟩
      rcases (raw_hungry m).ends rest with ⟨v, hv⟩ | hmore
      · rw [hraw] at hv
        subst hv
        rw [bind_ok hraw] at henter ⊢
        unfold tolerate
        rw [henter]
        exact check_arity m.op v rest'
      · rw [hraw] at hmore
        subst hmore
        rw [bind_err hraw] at henter ⊢
        exact tolerate_other _ henter (by decide)

end

/-! ## walks -/

theorem tolerantWalk_flat [BytesCrate] (plan : List Nat → Bool) {fuel : Nat} {data : Bytes}
    (hf : data.length < fuel) (hl : data.length < 2 ^ 30) :
    (tolerantWalk plan fuel : Reader Bytes Unit) data = skipValue data := by
  have hskip : ∀ data : Bytes, data.length < 2 ^ 30 →
      skipValue data = descend valueHead (data.length + 1) data := fun data h => by
    rw [skipValue_eq_parse h, ← parseValue_eq]
    rfl
  rw [tolerantWalk, enterValue_head,
    walk_eq_descend valueHead_consumes hskip plan fuel [] data hf hl, hskip data hl]
  exact descend_fuel valueHead_consumes _ _ data hf (Nat.lt_succ_self _)

section
variable {B : Type} [Buf B] [BytesCrate] [LawfulBuf B]

theorem sim_nextOp : Sim Same (nextOp : Reader B ReadOp) nextOp := by
  refine sim_peek.bind fun b => ?_
  cases b with
  | none => exact Sim.pure _
  | some b =>
    cases hb : Marker.fromByte b with
    | ok m =>
      simp only [hb]
      exact Sim.pure _
    | error e =>
      simp only [hb]
      exact Sim.pure _

theorem sim_enterValue : Sim Same (enterValue : Reader B Nat) enterValue :=
  sim_nextOp.bind fun op => (sim_op op).bind fun v => Sim.pure (op.arity v)

theorem sim_tolerantWalk (plan : List Nat → Bool) (fuel : Nat) :
    Sim Same (tolerantWalk plan fuel : Reader B Unit) (tolerantWalk plan fuel) :=
  Sim.walk (sim_enterValue.tolerate _ _) sim_skipValue plan fuel []

/-- **Whatever a client enters and whatever it skips, it ends where one `skip_value` ends**, with the
same result and the same bytes left, on well-formed and on hostile input; the only thing that can
stop it earlier is a string that is not UTF-8, and the client may go on behind that. -/
theorem walk_skips (plan : List Nat → Bool) {fuel : Nat} {b : B} (hb : LawfulBuf.Inv b)
    (hl : Buf.remaining b < 2 ^ 30) (hf : Buf.remaining b < fuel) :
    ((tolerantWalk plan fuel b).1 = (skipValue b).1 ∧
      LawfulBuf.bytes (tolerantWalk plan fuel b).2 = LawfulBuf.bytes (skipValue b).2) ∧
    (strictWalk plan fuel b = tolerantWalk plan fuel b ∨
      (strictWalk plan fuel b).1 = .err .invalidUtf8) := by
  have hs : Same b (LawfulBuf.bytes b) := ⟨hb, rfl⟩
  have hlen : Buf.remaining b = (LawfulBuf.bytes b).length := hs.remaining
  rw [hlen] at hl hf
  constructor
  · obtain ⟨hwalk, hrest⟩ := sim_tolerantWalk plan fuel b _ hs
    obtain ⟨hskip, hrest'⟩ := sim_skipValue b _ hs
    rw [tolerantWalk_flat plan hf hl] at hwalk hrest
    exact ⟨hwalk.trans hskip.symm, hrest.2.trans hrest'.2.symm⟩
  · exact UpTo.walk (UpTo.tolerate .invalidUtf8 0 enterValue) skipValue plan fuel [] b

end

/-- a map whose key is no UTF-8 and whose value is a list, cut into segments: the client enters the
map and the list, and skips what is in the list -/
theorem walk_skips_map :
    letI := BytesCrate.copying
    (tolerantWalk (fun path => decide (path.length < 2)) 10
      (MessageBuf.fromChunks ([[0xA1, 0x81], [0xFF, 0x92, 0xC9], [1, 2, 0xC0, 7]] : List Bytes))).1
      = .ok () := by
  let _ := BytesCrate.copying
  have hb : LawfulBuf.Inv
      (MessageBuf.fromChunks ([[0xA1, 0x81], [0xFF, 0x92, 0xC9], [1, 2, 0xC0, 7]] : List Bytes)) :=
    MessageBuf.fromChunks_wf (by decide)
  have hf : Buf.remaining
      (MessageBuf.fromChunks ([[0xA1, 0x81], [0xFF, 0x92, 0xC9], [1, 2, 0xC0, 7]] : List Bytes)) < 10 := by
    decide
  refine (walk_skips (fun path => decide (path.length < 2)) hb (by decide) hf).1.1.trans ?_
  decide +kernel

end PackStreamReader
end Bolt
