import BoltWire.Lib.Fields
import BoltWire.Lib.Frame
import BoltWire.Arity
import BoltWire.Client
import BoltWire.Verdicts

/-!
# What a failed read leaves

A read that fails has taken what it needed to find that out.

* `Marker.pastLength`   the bytes behind a marker, past its length if that is whole;
* `raw_left`            what is left where a read is cut;
* `Failed`, `failed_run`   what a failed read of any type leaves, error by error;
* `Client.found`        how often a client reads or skips where there is a byte;
* `reads_left`          no client gets round the end of its input, however its reads fail.
-/

set_option linter.unusedSectionVars false

namespace Bolt
open Rust Rust.Call

namespace Marker

/-- how many bytes of length come after a marker -/
def lengthBytes : Marker → Nat
  | .string8 | .bytes8 | .list8 | .map8 | .struct8 => 1
  | .string16 | .bytes16 | .list16 | .map16 | .struct16 => 2
  | .string32 | .bytes32 | .list32 | .map32 => 4
  | _ => 0

def pastLength (m : Marker) (rest : Bytes) : Bytes :=
  if rest.length < m.lengthBytes then rest else rest.drop m.lengthBytes

end Marker

namespace PackStreamReader
variable [BytesCrate] {α : Type}

theorem readBe_field (n : Nat) (of : Nat → α) :
    Field .unexpectedEof n (readBe n of : Reader Bytes α) := by
  refine ⟨fun data h => bind_err (ensure_short h) _, fun data h => ⟨of (BigEndian.ofBe (data.take n)), ?_⟩⟩
  rw [readBe, bind_ok (ensure_enough h), bind_ok (getArray_flat h)]
  rfl

theorem readExactBytes_field (n : Nat) :
    Field .unexpectedEof n (readExactBytes n : Reader Bytes Bytes) := by
  refine ⟨fun data h => bind_err (ensure_short h) _, fun data h => ⟨data.take n, ?_⟩⟩
  rw [readExactBytes, bind_ok (ensure_enough h)]
  exact Bytes.copyToBytes_run h

/-- how many bytes a length helper reads behind its marker -/
def sizeBytes (tiny : Marker → Option UInt8) (m8 m16 : Marker) (m32 : Option Marker) (m : Marker) :
    Option Nat :=
  if (tiny m).isSome then some 0
  else if m = m8 then some 1
  else if m = m16 then some 2
  else if some m = m32 then some 4
  else none

theorem sizeLen_field (of : Nat → α) {tiny : Marker → Option UInt8} {m8 m16 m : Marker}
    {m32 : Option Marker} {k : Nat} (h : sizeBytes tiny m8 m16 m32 m = some k) :
    Field .unexpectedEof k (sizeLen of tiny m8 m16 m32 m : Reader Bytes α) := by
  unfold sizeBytes at h
  unfold sizeLen
  cases htiny : tiny m with
  | some size =>
    rw [htiny] at h
    obtain rfl : 0 = k := Option.some.inj h
    exact Field.pure _
  | none =>
    rw [htiny] at h
    replace h : (if m = m8 then some 1 else if m = m16 then some 2
      else if some m = m32 then some 4 else none) = some k := h
    split_ifs at h ⊢ <;> cases h
    · exact (readBe_field 1 UInt8.ofNat).map _
    · exact (readBe_field 2 UInt16.ofNat).map _
    · exact (readBe_field 4 UInt32.ofNat).map _

/-- a length of fixed size, and behind it what has that length -/
theorem raw_fields (m : Marker) : ∃ (γ : Type) (len : Reader Bytes γ) (payload : γ → Reader Bytes ReadVal)
    (n : γ → Nat), m.raw = len >>= payload ∧ Field .unexpectedEof m.lengthBytes len ∧
      ∀ a, Field .unexpectedEof (n a) (payload a) := by
  -- a number is a payload without a length
  have hplain : ∀ {k} {x : Reader Bytes ReadVal}, Field .unexpectedEof k x → m.lengthBytes = 0 →
      ∃ (γ : Type) (len : Reader Bytes γ) (payload : γ → Reader Bytes ReadVal) (n : γ → Nat),
        x = len >>= payload ∧ Field .unexpectedEof m.lengthBytes len ∧
          ∀ a, Field .unexpectedEof (n a) (payload a) := fun hx h =>
    ⟨Unit, pure (), fun _ => _, fun _ => _, rfl, h ▸ Field.pure (), fun _ => hx⟩
  cases m with
  | null | true | false | tinyInt => exact hplain (Field.pure _) rfl
  | int8 | int16 | int32 | int64 | float64 => exact hplain ((readBe_field _ _).map _) rfl
  | tinyString | string8 | string16 | string32 | bytes8 | bytes16 | bytes32 =>
    exact ⟨Nat, _, _, id, rfl, sizeLen_field id rfl, fun len => (readExactBytes_field len).map _⟩
  | tinyList | list8 | list16 | list32 | tinyMap | map8 | map16 | map32 =>
    exact ⟨UInt32, _, _, fun _ => 0, rfl, sizeLen_field UInt32.ofNat rfl, fun n => Field.pure _⟩
  | tinyStruct | struct8 | struct16 =>
    exact ⟨UInt32, _, _, fun _ => 1, rfl, sizeLen_field UInt32.ofNat rfl, fun numFields =>
      (readBe_field 1 UInt8.ofNat).map _⟩

theorem raw_left {m : Marker} {data left : Bytes} {e : PackStreamError}
    (h : m.raw data = (.err e, left)) : e = .unexpectedEof ∧ left = m.pastLength data := by
  obtain ⟨γ, len, payload, n, hraw, hlen, hpayload⟩ := raw_fields m
  rw [hraw] at h
  exact hlen.bind_left hpayload h

end PackStreamReader

/-! ## typed reads -/

section
variable [BytesCrate] {op : ReadOp} {data left : Bytes} {e : PackStreamError}
open PackStreamReader

/-- how a typed read fails, and what is left of its input -/
inductive Failed (op : ReadOp) : Bytes → PackStreamError → Bytes → Prop where
  | empty : Failed op [] .unexpectedEof []
  | cut {b : UInt8} {m : Marker} {rest enc : Bytes} {v : ReadVal} (hm : Marker.fromByte b = .ok m)
      (hframe : Frame op v enc) (hpre : b :: rest <+: enc) (hne : b :: rest ≠ enc) :
      Failed op (b :: rest) .unexpectedEof (m.pastLength rest)
  | other {b : UInt8} (rest : Bytes) (h : ¬ op.Begins b) :
      Failed op (b :: rest) (.invalidMarker b) rest
  | notUtf8 {payload enc : Bytes} (rest : Bytes) (hop : op = .string)
      (hframe : Frame .string (.bytes payload) enc) (h : ¬ IsUtf8 payload) :
      Failed op (enc ++ rest) .invalidUtf8 rest

theorem frame_own (h : op.Typed) {b : UInt8} {m : Marker} (hm : Marker.fromByte b = .ok m)
    (hop : m.op = op) (rest : Bytes) : op.frame (b :: rest) = m.raw rest := by
  rw [frame_run h, bind_ok (readMarker_good hm rest), if_pos hop]

theorem run_other (h : op.Typed) {b : UInt8} (hb : ¬ op.Begins b) (rest : Bytes) :
    (op.run : Reader Bytes ReadVal) (b :: rest) = (.err (.invalidMarker b), rest) := by
  cases hm : Marker.fromByte b with
  | error e => exact typed_bad h hm rest
  | ok m => exact typed_other h hm (fun hop => hb ((begins_iff h).mpr ⟨m, hm, hop⟩)) rest

/-- behind a marker of its type a read is cut, or it is a string that is none -/
theorem failed_own (h : op.Typed) {b : UInt8} {m : Marker} {rest : Bytes}
    (hm : Marker.fromByte b = .ok m) (hop : m.op = op)
    (hrun : op.run (b :: rest) = (.err e, left)) : Failed op (b :: rest) e left := by
  have hframe := frame_own h hm hop rest
  have hall := hrun
  rw [run_check h] at hall
  rcases hraw : m.raw rest with ⟨v | e' | _ | _, mid⟩
  · have hwhole := hframe.trans hraw
    rw [bind_ok hwhole] at hall
    rcases check_cases op v mid with ⟨v', hok⟩ | ⟨hstring, payload, rfl, hbad, herr⟩
    · rw [hok] at hall
      cases hall
    · rw [herr] at hall
      cases hall
      obtain ⟨enc, henc, heq⟩ := (frame_accepts h _ _ _).mp hwhole
      rw [hstring] at henc
      rw [heq]
      exact .notUtf8 left hstring henc hbad
  · obtain ⟨rfl, hmid⟩ := raw_left hraw
    rw [bind_err (hframe.trans hraw)] at hall
    cases hall
    obtain ⟨v, enc, henc, hpre, hne⟩ := (run_eof_iff h).mp (congrArg Prod.fst hrun)
    rw [hmid]
    exact .cut hm henc hpre hne
  all_goals
    rw [bind_run, hframe, hraw] at hall
    cases hall

theorem failed_run (h : op.Typed) (hrun : op.run data = (.err e, left)) : Failed op data e left := by
  cases data with
  | nil =>
    rw [typed_nil h] at hrun
    cases hrun
    exact .empty
  | cons b rest =>
    by_cases hb : op.Begins b
    · obtain ⟨m, hm, hop⟩ := (begins_iff h).mp hb
      exact failed_own h hm hop hrun
    · rw [run_other h hb] at hrun
      cases hrun
      exact .other left hb

theorem Failed.cut_left {b : UInt8} {m : Marker} {rest : Bytes}
    (hf : Failed op data .unexpectedEof left) (hdata : data = b :: rest)
    (hm : Marker.fromByte b = .ok m) : left = m.pastLength rest := by
  cases hf with
  | empty => cases hdata
  | cut hm' =>
    obtain ⟨rfl, rfl⟩ := List.cons.inj hdata
    rw [Except.ok.inj (hm.symm.trans hm')]

/-- **A failed read**, its error and what it leaves. -/
theorem run_failed_iff (h : op.Typed) : op.run data = (.err e, left) ↔ Failed op data e left := by
  refine ⟨failed_run h, fun hf => ?_⟩
  cases hf with
  | empty => exact typed_nil h
  | @cut b m rest enc v hm hframe hpre hne =>
    have herr := (run_eof_iff h).mpr ⟨v, enc, hframe, hpre, hne⟩
    exact Prod.ext herr ((failed_run h (Prod.ext herr rfl)).cut_left rfl hm)
  | other rest hb => exact run_other h hb left
  | @notUtf8 payload enc rest hop hframe hbad =>
    subst hop
    have hwhole := (frame_accepts h).takes hframe left
    rw [run_check h, bind_ok hwhole]
    rcases check_cases .string (.bytes payload) left with ⟨v', hok⟩ | ⟨-, payload', hv, -, herr⟩
    · rw [ReadOp.check, PackStreamString.tryFrom, dif_neg hbad] at hok
      cases hok
    · exact herr

theorem Marker.lengthBytes_le (m : Marker) : m.lengthBytes ≤ 4 := by
  cases m <;> simp [Marker.lengthBytes]

/-- a marker and its length, no payload -/
theorem Failed.few (hf : Failed op data e left) (hne : e ≠ .invalidUtf8) :
    data.length ≤ left.length + 5 := by
  cases hf with
  | empty => exact Nat.zero_le _
  | @cut b m rest enc v hm hframe hpre hne =>
    have hlen := m.lengthBytes_le
    rw [List.length_cons]
    unfold Marker.pastLength
    split
    · omega
    · rw [List.length_drop]
      omega
  | other rest h => exact Nat.add_le_add_left (by decide) _
  | notUtf8 rest hop hframe h => exact absurd rfl hne

theorem Failed.takes (hf : Failed op data e left) (hne : data ≠ []) : left.length < data.length := by
  cases hf with
  | empty => exact absurd rfl hne
  | @cut b m rest enc v hm hframe hpre hne =>
    refine Nat.lt_succ_of_le ?_
    unfold Marker.pastLength
    split
    · exact Nat.le_refl _
    · exact (List.drop_suffix _ rest).length_le
  | other rest h => exact Nat.lt_succ_self _
  | notUtf8 rest hop hframe h =>
    have hstring : ReadOp.string.Typed := trivial
    obtain ⟨b, tail, rfl, -⟩ := Frame.begins hstring hframe
    rw [List.length_append, List.length_cons]
    omega

/-! ## any read -/

def Drops (data rest : Bytes) : Prop := rest <:+ data

theorem Drops.refl (s : Bytes) : Drops s s := List.suffix_rfl

theorem Drops.trans (s t u : Bytes) (h : Drops s t) (h' : Drops t u) : Drops s u :=
  List.IsSuffix.trans h' h

theorem Safe.drops {α : Type} {Q : α → Prop} {x : Reader Bytes α} (hx : Safe Q x) : Keeps Drops x :=
  fun s => (hx s).2

theorem bind_drops {α γ : Type} {x : Reader Bytes α} {f : α → Reader Bytes γ} {rest : Bytes}
    (hx : Drops rest (x data).2) (hf : ∀ a, Keeps Drops (f a)) : Drops rest ((x >>= f) data).2 := by
  rw [bind_run]
  rcases hr : x data with ⟨a | e | _ | _, mid⟩
  · rw [hr] at hx
    exact hx.trans rest mid _ (hf a mid)
  all_goals
    rw [hr] at hx
    exact hx

theorem valueHead_takes (b : UInt8) (rest : Bytes) : Drops rest (valueHead (b :: rest)).2 := by
  cases hb : Marker.fromByte b with
  | ok m =>
    rw [valueHead, bind_ok (readMarker_good hb rest)]
    exact (markerHead_safe ⟨b, toByte_of_fromByte hb⟩ rest).2
  | error e =>
    rw [valueHead, bind_err (readMarker_bad hb rest)]
    exact List.suffix_rfl

/-- the first round of the loop takes its marker, and no other one gives anything back -/
theorem skipValue_takes (b : UInt8) (rest : Bytes) :
    Drops rest ((skipValue : Reader Bytes Unit) (b :: rest)).2 := by
  have hadd : ∀ k n, Keeps Drops
      (bounded (2 ^ 64) PackStreamError.unexpectedEof k n : Reader Bytes Nat) := fun k n =>
    Safe.drops (Q := fun _ => True) (Safe.ite (fun _ => Safe.pure trivial) fun _ => Safe.err _)
  have hstep : ∀ k, Keeps Drops
      (countStep (bounded (2 ^ 64) PackStreamError.unexpectedEof) valueHead k) := fun k =>
    Keeps.bind Drops.trans (Safe.drops valueHead_safe) fun n => hadd (k - 1) n
  have hloop : ∀ n k, Keeps Drops
      (whileLoop owed (countStep (bounded (2 ^ 64) PackStreamError.unexpectedEof) valueHead) n k) :=
    Keeps.whileLoop Drops.refl Drops.trans hstep
  rw [skipValue_eq, countOne]
  refine bind_drops ?_ fun _ => Drops.refl
  show Drops rest
    ((countStep (bounded (2 ^ 64) .unexpectedEof) valueHead 1 >>= whileLoop owed _ _) (b :: rest)).2
  exact bind_drops (bind_drops (valueHead_takes b rest) fun n => hadd 0 n) (hloop _)

theorem skipValue_nil : (skipValue : Reader Bytes Unit) [] = (.err .unexpectedEof, []) := by
  have hfit : ∀ c ∈ ([] : List WriteCall), ¬ c.TooLong := fun _ h => absurd h List.not_mem_nil
  exact skip_words hfit (Nat.two_pow_pos 30)

/-- every operation but `peek` and `remaining` -/
def ReadOp.reads : ReadOp → Bool
  | .peek | .remaining => false
  | _ => true

theorem typed_takes (h : op.Typed) (hne : data ≠ []) :
    ((op.run : Reader Bytes ReadVal) data).2.length < data.length := by
  rcases hrun : (op.run : Reader Bytes ReadVal) data with ⟨v | e | _ | _, left⟩
  · obtain ⟨enc, henc, rfl⟩ := (run_accepts h _ _ _).mp hrun
    obtain ⟨v', hframe⟩ := henc.frame
    obtain ⟨b, tail, rfl, -⟩ := Frame.begins h hframe
    show left.length < (b :: tail ++ left).length
    rw [List.length_append, List.length_cons]
    omega
  · exact (failed_run h hrun).takes hne
  all_goals
    have hret := (op_safe op data).1
    rw [hrun] at hret
    exact hret.elim

/-- **A read that finds a byte takes it**, whether it fails or not. -/
theorem reads_takes (h : op.reads = true) (hne : data ≠ []) :
    ((op.run : Reader Bytes ReadVal) data).2.length < data.length := by
  cases op with
  | peek | remaining => cases h
  | skip =>
    obtain ⟨b, rest, rfl⟩ := List.exists_cons_of_ne_nil hne
    refine Nat.lt_succ_of_le (List.IsSuffix.length_le ?_)
    exact bind_drops (skipValue_takes b rest) fun _ => Drops.refl
  | _ => exact typed_takes trivial hne

theorem reads_nil (h : op.reads = true) :
    (op.run : Reader Bytes ReadVal) [] = (.err .unexpectedEof, []) := by
  cases op with
  | peek | remaining => cases h
  | skip => exact bind_err skipValue_nil _
  | _ => exact typed_nil trivial

end

/-! ## clients -/

section
variable [BytesCrate] {B : Type} [Buf B]

/-- how often a client reads or skips where there is a byte -/
def Client.found : Client → B → Nat
  | .stop, _ => 0
  | .ask op next, b =>
    (next (op.run b).1 (Buf.remaining (op.run b).2)).found (op.run b).2
      + if op.reads ∧ 0 < Buf.remaining b then 1 else 0

variable [LawfulBuf B] {b : B} {data : Bytes}

theorem op_found (op : ReadOp) (hb : Same b data) : Buf.remaining (op.run b).2
    + (if op.reads ∧ 0 < Buf.remaining b then 1 else 0) ≤ Buf.remaining b := by
  rw [(sim_op op b data hb).2.remaining, hb.remaining]
  show ((op.run : Reader Bytes ReadVal) data).2.length + _ ≤ data.length
  split
  next h => exact reads_takes h.1 (List.length_pos_iff.mp h.2)
  next h => exact (PackStreamReader.op_safe op data).2.length_le

theorem Client.found_le (c : Client) : ∀ {b : B} {data : Bytes}, Same b data →
    c.found b + Buf.remaining (c.talk b).2 ≤ Buf.remaining b := by
  induction c with
  | stop => exact fun _ => Nat.le_of_eq (Nat.zero_add _)
  | ask op next ih =>
    intro b data hb
    have hone := op_found op hb
    have hrest := ih (op.run b).1 (Buf.remaining (op.run b).2) (sim_op op b data hb).2
    show (next (op.run b).1 (Buf.remaining (op.run b).2)).found (op.run b).2 + _
      + Buf.remaining ((next (op.run b).1 (Buf.remaining (op.run b).2)).talk (op.run b).2).2 ≤ _
    omega

/-- **No client gets round the end of its input.**  On any bytes, in any lawful buffer: how a typed
read fails and what it leaves is decided by the bytes, the marker taken and at most its length, or a
whole string that is not UTF-8; whatever a client does next, and however its reads fail, it reads or
skips no more often than there are bytes where it finds one; and at the end every read says so. -/
theorem reads_left (hb : Same b data) :
    (∀ op : ReadOp, op.Typed → ∀ e left, (op.run b).1 = .err e ∧ Same (op.run b).2 left ↔
      Failed op data e left) ∧
    (∀ op : ReadOp, op.Typed → ∀ e, (op.run b).1 = .err e → e ≠ .invalidUtf8 →
      Buf.remaining b ≤ Buf.remaining (op.run b).2 + 5) ∧
    (∀ c : Client, c.found b + Buf.remaining (c.talk b).2 ≤ Buf.remaining b) ∧
    ∀ op : ReadOp, op.reads = true → data = [] →
      (op.run b).1 = .err .unexpectedEof ∧ Same (op.run b).2 [] := by
  refine ⟨fun op h e left => ?_, fun op h e he hne => ?_, fun c => c.found_le hb, fun op h hnil => ?_⟩
  · obtain ⟨hres, hrest⟩ := sim_op op b data hb
    rw [← run_failed_iff h, hres]
    constructor
    · rintro ⟨he, hleft⟩
      exact Prod.ext he (hrest.2.symm.trans hleft.2)
    · intro hrun
      rw [hrun] at hrest
      exact ⟨congrArg Prod.fst hrun, hrest⟩
  · obtain ⟨hres, hrest⟩ := sim_op op b data hb
    rw [hb.remaining, hrest.remaining]
    exact (failed_run h (Prod.ext (hres.symm.trans he) rfl)).few hne
  · obtain ⟨hres, hrest⟩ := sim_op op b data hb
    rw [hnil, reads_nil h] at hres hrest
    exact ⟨hres, hrest⟩

end

/-- a string that is cut behind its length, and a client that reads on -/
theorem reads_left_string :
    letI := BytesCrate.copying
    Failed .string [0xD0, 5, 0x61] .unexpectedEof [0x61] ∧
    (Client.script [.string, .peek, .int, .skip]).found (⟨[[0xD0], [5, 0x61]], 3⟩ : MessageBuf UInt8)
      ≤ 3 := by
  let _ := BytesCrate.copying
  have hflat : Same ([0xD0, 5, 0x61] : Bytes) [0xD0, 5, 0x61] := ⟨trivial, rfl⟩
  have hb : Same (⟨[[0xD0], [5, 0x61]], 3⟩ : MessageBuf UInt8) [0xD0, 5, 0x61] :=
    ⟨⟨by decide, rfl⟩, rfl⟩
  refine ⟨((reads_left hflat).1 .string trivial _ _).mp ⟨rfl, trivial, rfl⟩, ?_⟩
  have hfound := (reads_left hb).2.2.1 (Client.script [.string, .peek, .int, .skip])
  exact Nat.le_trans (Nat.le_add_right _ _) hfound

end Bolt
