import BoltWire.ReaderSim
import BoltWire.Resources
import BoltWire.SkipValue

/-!
# The read path cannot panic

* `op_safe`, `session_returns`   every operation returns, on every input, also after errors;
* `Logged`          a buffer that writes down every length it is asked for, with what it held then;
* `feeds_returns`   every feed of a decoder returns;
* `feeds_safe`      the whole path: feeds of any bytes, any operations on what came out.
-/

set_option linter.unusedSectionVars false

namespace Bolt
open Rust Rust.Call

namespace PackStreamReader
variable [BytesCrate] {α : Type}

theorem peek_safe : Safe (fun _ => True) (peek : Reader Bytes (Option UInt8)) :=
  Safe.get fun _ => Safe.ite (fun _ => Safe.pure trivial) fun _ => Safe.pure trivial

theorem remaining_safe : Safe (fun _ => True) (remaining : Reader Bytes Nat) :=
  Safe.get fun _ => Safe.pure trivial

theorem readNull_safe : Safe (fun _ => True) (readNull : Reader Bytes Unit) :=
  readMarker_safe.bind fun _ h => Safe.ite (fun _ => Safe.pure trivial) fun _ => rejectMarker_safe h

theorem readBool_safe : Safe (fun _ => True) (readBool : Reader Bytes Bool) := by
  refine readMarker_safe.bind fun marker h => ?_
  cases marker with
  | true => exact Safe.pure trivial
  | false => exact Safe.pure trivial
  | _ => exact rejectMarker_safe h

theorem readInt_safe : Safe (fun _ => True) (readInt : Reader Bytes Int64) := by
  refine readMarker_safe.bind fun marker h => ?_
  cases marker with
  | tinyInt v => exact Safe.pure trivial
  | int8 => exact (readBe_safe 1 Int8.ofNat).bind fun _ _ => Safe.pure trivial
  | int16 => exact (readBe_safe 2 Int16.ofNat).bind fun _ _ => Safe.pure trivial
  | int32 => exact (readBe_safe 4 Int32.ofNat).bind fun _ _ => Safe.pure trivial
  | int64 => exact readBe_safe 8 Int64.ofNat
  | _ => exact rejectMarker_safe h

theorem readFloat_safe : Safe (fun _ => True) (readFloat : Reader Bytes UInt64) :=
  readMarker_safe.bind fun _ h =>
    Safe.ite (fun _ => rejectMarker_safe h) fun _ => readBe_safe 8 UInt64.ofNat

theorem readString_safe : Safe (fun _ => True) (readString : Reader Bytes PackStreamString) :=
  readMarker_safe.bind fun _ h => (sizeLen_safe _ _ _ _ _ h).bind fun len _ =>
    (readExactBytes_safe len).bind fun _ _ => okOr_safe fun _ _ => trivial

theorem readBytes_safe : Safe (fun _ => True) (readBytes : Reader Bytes Bytes) :=
  readMarker_safe.bind fun _ h => (sizeLen_safe _ _ _ _ _ h).bind fun len _ => readExactBytes_safe len

theorem readListHeader_safe : Safe (fun _ => True) (readListHeader : Reader Bytes UInt32) :=
  readMarker_safe.bind fun _ h => sizeLen_safe _ _ _ _ _ h

theorem readMapHeader_safe : Safe (fun _ => True) (readMapHeader : Reader Bytes UInt32) :=
  readMarker_safe.bind fun _ h => sizeLen_safe _ _ _ _ _ h

theorem readStructHeader_safe :
    Safe (fun _ => True) (readStructHeader : Reader Bytes (UInt8 × UInt32)) :=
  readMarker_safe.bind fun _ h => (sizeLen_safe _ _ _ _ _ h).bind fun _ _ =>
    (readBe_safe 1 UInt8.ofNat).bind fun _ _ => Safe.pure trivial

/-- an operation is a call of the reader and a constructor -/
theorem Safe.wrap {x : Reader Bytes α} (hx : Safe (fun _ => True) x) (f : α → ReadVal) :
    Safe (fun _ => True) (x >>= fun a => pure (f a)) := hx.bind fun _ _ => Safe.pure trivial

theorem op_safe (op : ReadOp) : Safe (fun _ => True) (op.run : Reader Bytes ReadVal) := by
  cases op with
  | peek => exact Safe.wrap peek_safe _
  | remaining => exact Safe.wrap remaining_safe _
  | null => exact Safe.wrap readNull_safe _
  | bool => exact Safe.wrap readBool_safe _
  | int => exact Safe.wrap readInt_safe _
  | float => exact Safe.wrap readFloat_safe _
  | string => exact Safe.wrap readString_safe _
  | bytes => exact Safe.wrap readBytes_safe _
  | listHeader => exact Safe.wrap readListHeader_safe _
  | mapHeader => exact Safe.wrap readMapHeader_safe _
  | structHeader => exact Safe.wrap readStructHeader_safe _
  | skip => exact Safe.wrap skipValue_safe _

end PackStreamReader

/-! ## sessions -/

section
variable [BytesCrate]

theorem session_flat_returns (ops : List ReadOp) : ∀ data : Bytes,
    ∀ r ∈ (session ops data).1, r.1.Returns := by
  induction ops with
  | nil => intro data r hr; cases hr
  | cons op ops ih =>
    intro data r hr
    rcases List.mem_cons.mp hr with rfl | hr
    · exact (PackStreamReader.op_safe op data).1.returns
    · exact ih _ r hr

/-- **No operation on a lawful buffer panics**, whatever bytes are in it. -/
theorem session_returns {B : Type} [Buf B] [LawfulBuf B] {b : B} (h : LawfulBuf.Inv b)
    (ops : List ReadOp) : ∀ r ∈ (session ops b).1, r.1.Returns := by
  rw [(session_same ops ⟨h, rfl⟩).1]
  exact session_flat_returns ops _

end

/-! ## what is asked of a buffer -/

structure Logged (B : Type) where
  buf : B
  /-- the lengths handed to `advance` and `copyToBytes`, each with `remaining()` at that moment -/
  log : List (Nat × Nat)

namespace Logged
variable {B : Type} [Buf B]

def start (buf : B) : Logged B := ⟨buf, []⟩

/-- the call `x`, which is handed the length `n` -/
def logging {ε α : Type} (n : Nat) (x : Call B ε α) : Call (Logged B) ε α := fun s =>
  ((x s.buf).1, ⟨(x s.buf).2, s.log ++ [(n, Buf.remaining s.buf)]⟩)

instance : Buf (Logged B) where
  remaining s := Buf.remaining s.buf
  chunk s := Buf.chunk s.buf
  advance cnt := logging cnt (Buf.advance cnt)
  copyToBytes len := logging len (Buf.copyToBytes len)

theorem logging_run [LawfulBuf B] {ε α : Type} {s : Logged B} {n : Nat} {x : Call B ε α} {a : α}
    {b : B} (hx : x s.buf = (.ok a, b)) :
    logging n x s = (.ok a, ⟨b, s.log ++ [(n, Buf.remaining s.buf)]⟩) := by
  unfold logging
  rw [hx]

theorem log_snoc {s : Logged B} (h : ∀ p ∈ s.log, p.1 ≤ p.2) {n : Nat}
    (hn : n ≤ Buf.remaining s.buf) : ∀ p ∈ s.log ++ [(n, Buf.remaining s.buf)], p.1 ≤ p.2 := by
  intro p hp
  rcases List.mem_append.mp hp with hp | hp
  · exact h p hp
  · rw [List.mem_singleton.mp hp]
    exact hn

/-- nothing in the log was asked for in excess of what was there -/
instance [LawfulBuf B] : LawfulBuf (Logged B) where
  Inv s := LawfulBuf.Inv s.buf ∧ ∀ p ∈ s.log, p.1 ≤ p.2
  bytes s := LawfulBuf.bytes s.buf
  remaining_eq s h := LawfulBuf.remaining_eq s.buf h.1
  chunk_prefix s h := LawfulBuf.chunk_prefix s.buf h.1
  chunk_ne_nil s h := LawfulBuf.chunk_ne_nil s.buf h.1
  advance_run s n h hn := by
    obtain ⟨b, hrun, hI, hbytes⟩ := LawfulBuf.advance_run s.buf n h.1 hn
    rw [← LawfulBuf.remaining_eq s.buf h.1] at hn
    exact ⟨_, logging_run hrun, ⟨hI, log_snoc h.2 hn⟩, hbytes⟩
  copyToBytes_run s n h hn := by
    obtain ⟨b, hrun, hI, hbytes⟩ := LawfulBuf.copyToBytes_run s.buf n h.1 hn
    rw [← LawfulBuf.remaining_eq s.buf h.1] at hn
    exact ⟨_, logging_run hrun, ⟨hI, log_snoc h.2 hn⟩, hbytes⟩

theorem start_same [LawfulBuf B] {b : B} (h : LawfulBuf.Inv b) :
    Same (start b) (LawfulBuf.bytes b) := ⟨⟨h, fun _ hp => by cases hp⟩, rfl⟩

/-- the log changes nothing, and bounds every length that an operation asks for -/
theorem session_logged [BytesCrate] [LawfulBuf B] {b : B} (h : LawfulBuf.Inv b)
    (ops : List ReadOp) :
    (session ops (start b)).1 = (session ops b).1 ∧
      ∀ p ∈ (session ops (start b)).2.log, p.1 ≤ p.2 := by
  obtain ⟨h1, h2⟩ := session_same ops (start_same h)
  rw [h1, (session_same ops ⟨h, rfl⟩).1]
  exact ⟨rfl, h2.1.2⟩

end Logged

/-! ## feeds -/

namespace ChunkDecoder

theorem feeds_returns {β : Type} [Octet β] (maxSize maxSegs : Usize) (fs : List (List β)) :
    ∀ r ∈ (feeds fs (fresh maxSize maxSegs)).1, r.Returns := by
  have hok : ∀ bs : List (List (List (List β))), ∀ r ∈ bs.map emitted, r.Returns := by
    intro bs r hr
    obtain ⟨outs, -, rfl⟩ := List.mem_map.mp hr
    trivial
  intro r hr
  rw [fresh_eq_decoderOf] at hr
  rcases feeds_cases maxSize maxSegs .start fs with
    hc | ⟨done, data, todo, pre, x, post, e, rfl, hdata, hc, hx⟩
  · rw [feeds_clean fs Deframe.Inv.start hc] at hr
    exact hok _ r hr
  · rw [feeds_bad Deframe.Inv.start done data todo hdata hc hx] at hr
    rcases List.mem_append.mp hr with hr | hr
    · exact hok _ r hr
    · rcases List.mem_cons.mp hr with rfl | hr
      · trivial
      · obtain ⟨_, -, rfl⟩ := List.mem_map.mp hr
        trivial

theorem bounded_inv {m : MessageBuf UInt8} {maxSize maxSegs : Usize}
    (h : m.Bounded maxSize maxSegs) : LawfulBuf.Inv m :=
  ⟨h.nonempty, h.size_eq.trans List.length_flatten.symm⟩

/-- `remaining - to_take as u16` does not lose bits: `to_take` is at most `remaining` -/
theorem toTake_cast (remaining : UInt16) (n : Nat) :
    (UInt16.ofNat (min remaining.toNat n)).toNat = min remaining.toNat n :=
  UInt16.toNat_ofNat_of_lt' (Nat.lt_of_le_of_lt (Nat.min_le_left _ _) remaining.toNat_lt)

/-- **The read path is panic-free.**  Whatever bytes a peer sends, in whatever feeds, under whatever
limits: every feed returns; and whatever is then read from a message that came out, also after
errors, every operation returns, and none hands the buffer a length beyond what it holds. -/
theorem feeds_safe [BytesCrate] (maxSize maxSegs : Usize) (fs : List Bytes) :
    (∀ r ∈ (feeds fs (fresh maxSize maxSegs : ChunkDecoder UInt8)).1, r.Returns) ∧
    (∀ (remaining : UInt16) (data : Bytes),
      (UInt16.ofNat (min remaining.toNat data.length)).toNat = min remaining.toNat data.length) ∧
    (∀ b m, Marker.fromByte b = .ok m → m.toByte = .ok b) ∧
    ∀ messages, Res.ok messages ∈ (feeds fs (fresh maxSize maxSegs : ChunkDecoder UInt8)).1 →
      ∀ m ∈ messages, ∀ ops : List ReadOp,
        (∀ r ∈ (session ops m).1, r.1.Returns) ∧
        (session ops (Logged.start m)).1 = (session ops m).1 ∧
        ∀ p ∈ (session ops (Logged.start m)).2.log, p.1 ≤ p.2 := by
  refine ⟨feeds_returns maxSize maxSegs fs, fun remaining data => toTake_cast remaining _,
    fun b m => toByte_of_fromByte, ?_⟩
  intro messages hm m hmem ops
  obtain ⟨segs, hsegs, rfl⟩ := feeds_emitted Deframe.Inv.start fs messages hm m hmem
  have hinv := bounded_inv (fromChunks_bounded hsegs).2
  exact ⟨session_returns hinv ops, Logged.session_logged hinv ops⟩

/-- a string that announces 4 GiB, in a message of three segments -/
theorem feeds_safe_string :
    letI := BytesCrate.copying
    (feeds ([[0, 3, 0xD2, 0xFF], [0xFF, 0, 2, 0xFF, 0xFF, 0, 0]] : List Bytes) (fresh 16 16)).1
      = [.ok [], .ok [⟨[[0xD2, 0xFF], [0xFF], [0xFF, 0xFF]], 5⟩]] ∧
    ∀ p ∈ (session [.string, .skip]
        (Logged.start (⟨[[0xD2, 0xFF], [0xFF], [0xFF, 0xFF]], 5⟩ : MessageBuf UInt8))).2.log,
      p.1 ≤ p.2 := by
  have hemit : (feeds ([[0, 3, 0xD2, 0xFF], [0xFF, 0, 2, 0xFF, 0xFF, 0, 0]] : List Bytes) (fresh 16 16)).1
      = [.ok [], .ok [⟨[[0xD2, 0xFF], [0xFF], [0xFF, 0xFF]], 5⟩]] := by decide
  refine ⟨hemit, ?_⟩
  have hm : Res.ok [⟨[[0xD2, 0xFF], [0xFF], [0xFF, 0xFF]], 5⟩]
      ∈ (feeds ([[0, 3, 0xD2, 0xFF], [0xFF, 0, 2, 0xFF, 0xFF, 0, 0]] : List Bytes) (fresh 16 16)).1 :=
    hemit ▸ List.mem_cons_of_mem _ List.mem_cons_self
  exact ((@feeds_safe BytesCrate.copying 16 16 _).2.2.2 _ hm _ List.mem_cons_self _).2.2

end ChunkDecoder
end Bolt
