import BoltWire.ReaderFlat
import BoltWire.MessageBuf

/-!
# Reading segments is reading their concatenation

* `Same`            a lawful buffer and the byte string it stands for;
* `sim_readBe` .. `sim_skipValue`   every method returns the same on both and keeps them the same;
* `ReadOp`, `session`   a sequence of operations on one reader, also after errors;
* `session_same`    whole sessions agree; `session_fromChunks` for a `MessageBuf`.
-/

set_option linter.unusedSectionVars false

namespace Bolt
open Rust Rust.Call BigEndian

section
variable {B : Type} [Buf B] [LawfulBuf B]

/-- the buffer stands for the bytes -/
def Same (b : B) (data : Bytes) : Prop := LawfulBuf.Inv b ∧ LawfulBuf.bytes b = data

theorem Same.remaining {b : B} {data : Bytes} (h : Same b data) :
    Buf.remaining b = Buf.remaining data := by
  obtain ⟨hI, rfl⟩ := h
  exact LawfulBuf.remaining_eq b hI

end

namespace PackStreamReader
variable {B α : Type} [Buf B] [LawfulBuf B]

theorem sim_get {f : B → Reader B α} {g : Bytes → Reader Bytes α}
    (h : ∀ b data, Same b data → (f b b).1 = (g data data).1 ∧ Same (f b b).2 (g data data).2) :
    Sim Same (get >>= f) (get >>= g) := fun b data hs => h b data hs

/-- a call that is made after `ensure n` need only agree on buffers that hold `n` bytes -/
theorem sim_ensured {n : Nat} {x : Reader B α} {y : Reader Bytes α}
    (h : ∀ b data, Same b data → n ≤ data.length → (x b).1 = (y data).1 ∧ Same (x b).2 (y data).2) :
    Sim Same (ensure n >>= fun _ => x) (ensure n >>= fun _ => y) := by
  intro b data hs
  have hb : (ensure n : Reader B Unit) b
      = if data.length < n then (.err .unexpectedEof, b) else (.ok (), b) := by
    show (if Buf.remaining b < n then err .unexpectedEof else pure () : Reader B Unit) b = _
    rw [hs.remaining]
    show (if data.length < n then err .unexpectedEof else pure () : Reader B Unit) b = _
    split <;> rfl
  by_cases hlt : data.length < n
  · rw [if_pos hlt] at hb
    rw [bind_err hb, bind_err (ensure_short hlt)]
    exact ⟨rfl, hs⟩
  · rw [if_neg hlt] at hb
    rw [bind_ok hb, bind_ok (ensure_enough (Nat.le_of_not_lt hlt))]
    exact h b data hs (Nat.le_of_not_lt hlt)

theorem sim_peek : Sim Same (peek : Reader B (Option UInt8)) peek := by
  refine sim_get fun b data hs => ?_
  rw [hs.remaining]
  obtain ⟨hI, rfl⟩ := hs
  by_cases h : Buf.remaining (LawfulBuf.bytes b) = 0
  · rw [if_pos h, if_pos h]
    exact ⟨rfl, hI, rfl⟩
  · rw [if_neg h, if_neg h]
    refine ⟨?_, hI, rfl⟩
    show Res.ok (Buf.chunk b).head? = Res.ok (LawfulBuf.bytes b).head?
    have hne : LawfulBuf.bytes b ≠ [] := fun e => h (congrArg List.length e)
    obtain ⟨rest, hrest⟩ := LawfulBuf.chunk_prefix b hI
    have hchunk := LawfulBuf.chunk_ne_nil b hI hne
    cases hc : Buf.chunk b with
    | nil => exact absurd hc hchunk
    | cons c rest' =>
      rw [← hrest, hc]
      rfl

theorem sim_remaining : Sim Same (remaining : Reader B Nat) remaining := by
  refine sim_get fun b data hs => ⟨?_, hs⟩
  show Res.ok (Buf.remaining b) = Res.ok (Buf.remaining data)
  rw [hs.remaining]

theorem sim_readExactBytes (n : Nat) :
    Sim Same (readExactBytes n : Reader B Bytes) (readExactBytes n) := by
  refine sim_ensured fun b data hs hn => ?_
  obtain ⟨hI, rfl⟩ := hs
  obtain ⟨b', hrun, hI', hbytes⟩ := LawfulBuf.copyToBytes_run (ε := PackStreamError) b n hI hn
  rw [hrun, Bytes.copyToBytes_run hn]
  exact ⟨rfl, hI', hbytes⟩

theorem sim_skipBytes (n : Nat) : Sim Same (skipBytes n : Reader B Unit) (skipBytes n) := by
  refine sim_ensured fun b data hs hn => ?_
  obtain ⟨hI, rfl⟩ := hs
  obtain ⟨b', hrun, hI', hbytes⟩ := LawfulBuf.advance_run (ε := PackStreamError) b n hI hn
  rw [hrun, Bytes.advance_run hn]
  exact ⟨rfl, hI', hbytes⟩

theorem sim_rejectMarker (marker : Marker) :
    Sim Same (rejectMarker marker : Reader B α) (rejectMarker marker) := by
  refine Sim.bind ?_ fun b => Sim.err _
  unfold Marker.byte
  cases marker.toByte with
  | ok b => exact Sim.pure b
  | error e => exact Sim.panic

theorem sim_okOr (opt : Option α) (e : PackStreamError) :
    Sim Same (okOr opt e : Reader B α) (okOr opt e) := by
  cases opt with
  | some a => exact Sim.pure a
  | none => exact Sim.err e

variable [BytesCrate]

theorem sim_readBe (n : Nat) (of : Nat → α) : Sim Same (readBe n of : Reader B α) (readBe n of) := by
  refine sim_ensured fun b data hs hn => ?_
  obtain ⟨hI, rfl⟩ := hs
  obtain ⟨b', hrun, hI', hbytes⟩ := BytesCrate.getArray_run (ε := PackStreamError) b n hI hn
  rw [bind_ok hrun, bind_ok (getArray_flat hn)]
  exact ⟨rfl, hI', hbytes⟩

theorem sim_readMarker : Sim Same (readMarker : Reader B Marker) readMarker := by
  refine Sim.bind (sim_readBe 1 UInt8.ofNat) fun b => ?_
  cases Marker.fromByte b with
  | ok marker => exact Sim.pure marker
  | error e => exact Sim.err _

theorem sim_sizeLen (of : Nat → α) (tiny : Marker → Option UInt8) (m8 m16 : Marker)
    (m32 : Option Marker) (marker : Marker) :
    Sim Same (sizeLen of tiny m8 m16 m32 marker : Reader B α) (sizeLen of tiny m8 m16 m32 marker) := by
  unfold sizeLen
  cases tiny marker with
  | some size => exact Sim.pure _
  | none =>
    refine Sim.ite (fun _ => (sim_readBe 1 UInt8.ofNat).bind fun _ => Sim.pure _) fun _ => ?_
    refine Sim.ite (fun _ => (sim_readBe 2 UInt16.ofNat).bind fun _ => Sim.pure _) fun _ => ?_
    exact Sim.ite (fun _ => (sim_readBe 4 UInt32.ofNat).bind fun _ => Sim.pure _) fun _ =>
      sim_rejectMarker marker

/-! ## the typed reads -/

theorem sim_readNull : Sim Same (readNull : Reader B Unit) readNull :=
  sim_readMarker.bind fun marker => Sim.ite (fun _ => Sim.pure ()) fun _ => sim_rejectMarker marker

theorem sim_readBool : Sim Same (readBool : Reader B Bool) readBool := by
  refine sim_readMarker.bind fun marker => ?_
  cases marker with
  | true => exact Sim.pure true
  | false => exact Sim.pure false
  | _ => exact sim_rejectMarker _

theorem sim_readInt : Sim Same (readInt : Reader B Int64) readInt := by
  refine sim_readMarker.bind fun marker => ?_
  cases marker with
  | tinyInt v => exact Sim.pure _
  | int8 => exact (sim_readBe 1 Int8.ofNat).bind fun _ => Sim.pure _
  | int16 => exact (sim_readBe 2 Int16.ofNat).bind fun _ => Sim.pure _
  | int32 => exact (sim_readBe 4 Int32.ofNat).bind fun _ => Sim.pure _
  | int64 => exact sim_readBe 8 Int64.ofNat
  | _ => exact sim_rejectMarker _

theorem sim_readFloat : Sim Same (readFloat : Reader B UInt64) readFloat :=
  sim_readMarker.bind fun marker =>
    Sim.ite (fun _ => sim_rejectMarker marker) fun _ => sim_readBe 8 UInt64.ofNat

theorem sim_readString : Sim Same (readString : Reader B PackStreamString) readString :=
  sim_readMarker.bind fun marker => (sim_sizeLen _ _ _ _ _ marker).bind fun len =>
    (sim_readExactBytes len).bind fun _ => sim_okOr _ _

theorem sim_readBytes : Sim Same (readBytes : Reader B Bytes) readBytes :=
  sim_readMarker.bind fun marker => (sim_sizeLen _ _ _ _ _ marker).bind fun len =>
    sim_readExactBytes len

theorem sim_readListHeader : Sim Same (readListHeader : Reader B UInt32) readListHeader :=
  sim_readMarker.bind fun marker => sim_sizeLen _ _ _ _ _ marker

theorem sim_readMapHeader : Sim Same (readMapHeader : Reader B UInt32) readMapHeader :=
  sim_readMarker.bind fun marker => sim_sizeLen _ _ _ _ _ marker

theorem sim_readStructHeader :
    Sim Same (readStructHeader : Reader B (UInt8 × UInt32)) readStructHeader :=
  sim_readMarker.bind fun marker => (sim_sizeLen _ _ _ _ _ marker).bind fun _ =>
    (sim_readBe 1 UInt8.ofNat).bind fun _ => Sim.pure _

/-! ## skipping -/

theorem sim_skip (n remaining : Nat) :
    Sim Same (skipBytes n >>= fun _ => pure remaining : Reader B Nat)
      (skipBytes n >>= fun _ => pure remaining) :=
  (sim_skipBytes n).bind fun _ => Sim.pure remaining

theorem sim_skipMarker (remaining : Nat) (marker : Marker) :
    Sim Same (skipMarker remaining marker : Reader B Nat) (skipMarker remaining marker) := by
  cases marker with
  | null | true | false | tinyInt => exact Sim.pure remaining
  | int8 => exact sim_skip 1 remaining
  | int16 => exact sim_skip 2 remaining
  | int32 => exact sim_skip 4 remaining
  | int64 | float64 => exact sim_skip 8 remaining
  | tinyString | string8 | string16 | string32 | bytes8 | bytes16 | bytes32 =>
    exact (sim_sizeLen _ _ _ _ _ _).bind fun len => sim_skip len remaining
  | tinyList | list8 | list16 | list32 =>
    exact (sim_sizeLen _ _ _ _ _ _).bind fun _ => sim_okOr _ _
  | tinyMap | map8 | map16 | map32 =>
    exact (sim_sizeLen _ _ _ _ _ _).bind fun _ => (sim_okOr _ _).bind fun _ => sim_okOr _ _
  | tinyStruct | struct8 | struct16 =>
    exact (sim_sizeLen _ _ _ _ _ _).bind fun _ => (sim_skipBytes 1).bind fun _ => sim_okOr _ _

theorem sim_skipStep (remaining : Nat) :
    Sim Same (skipStep remaining : Reader B Nat) (skipStep remaining) := by
  refine Sim.bind ?_ fun left => sim_readMarker.bind fun marker => sim_skipMarker left marker
  refine Sim.bind ?_ fun _ => Sim.pure _
  exact Sim.ite (fun _ => Sim.pure ()) fun _ => Sim.panic

theorem sim_skipValue : Sim Same (skipValue : Reader B Unit) skipValue := by
  refine sim_get fun b data hs => ?_
  rw [hs.remaining]
  exact ((Sim.whileLoop sim_skipStep _ 1).bind fun _ => Sim.pure ()) b data hs

end PackStreamReader

/-! ## sessions -/

inductive ReadOp where
  | peek
  | remaining
  | null
  | bool
  | int
  | float
  | string
  | bytes
  | listHeader
  | mapHeader
  | structHeader
  | skip
  deriving DecidableEq, Repr

/-- what an operation returns -/
inductive ReadVal where
  | peeked (b : Option UInt8)
  | size (n : Nat)
  | null
  | bool (b : Bool)
  | int (v : Int64)
  | float (bits : UInt64)
  | string (s : PackStreamString)
  | bytes (b : Bytes)
  | count (n : UInt32)
  | header (tag : UInt8) (numFields : UInt32)
  | skipped
  deriving DecidableEq, Repr

section
variable {B : Type} [Buf B] [BytesCrate]

open PackStreamReader in
def ReadOp.run : ReadOp → Reader B ReadVal
  | .peek => do
    let b ← PackStreamReader.peek
    pure (.peeked b)
  | .remaining => do
    let n ← PackStreamReader.remaining
    pure (.size n)
  | .null => do
    let _ ← readNull
    pure .null
  | .bool => do
    let b ← readBool
    pure (.bool b)
  | .int => do
    let v ← readInt
    pure (.int v)
  | .float => do
    let bits ← readFloat
    pure (.float bits)
  | .string => do
    let s ← readString
    pure (.string s)
  | .bytes => do
    let b ← readBytes
    pure (.bytes b)
  | .listHeader => do
    let n ← readListHeader
    pure (.count n)
  | .mapHeader => do
    let n ← readMapHeader
    pure (.count n)
  | .structHeader => do
    let h ← readStructHeader
    pure (.header h.1 h.2)
  | .skip => do
    let _ ← skipValue
    pure .skipped

/-- a reader in use: what each operation returns and `remaining()` after it, also after errors -/
def session : List ReadOp → B → List (Res PackStreamError ReadVal × Nat) × B
  | [], b => ([], b)
  | op :: ops, b =>
    let t := session ops (op.run b).2
    (((op.run b).1, Buf.remaining (op.run b).2) :: t.1, t.2)

variable [LawfulBuf B]

open PackStreamReader in
theorem sim_op (op : ReadOp) : Sim Same (op.run : Reader B ReadVal) (op.run : Reader Bytes ReadVal) := by
  cases op with
  | peek => exact sim_peek.bind fun _ => Sim.pure _
  | remaining => exact sim_remaining.bind fun _ => Sim.pure _
  | null => exact sim_readNull.bind fun _ => Sim.pure _
  | bool => exact sim_readBool.bind fun _ => Sim.pure _
  | int => exact sim_readInt.bind fun _ => Sim.pure _
  | float => exact sim_readFloat.bind fun _ => Sim.pure _
  | string => exact sim_readString.bind fun _ => Sim.pure _
  | bytes => exact sim_readBytes.bind fun _ => Sim.pure _
  | listHeader => exact sim_readListHeader.bind fun _ => Sim.pure _
  | mapHeader => exact sim_readMapHeader.bind fun _ => Sim.pure _
  | structHeader => exact sim_readStructHeader.bind fun _ => Sim.pure _
  | skip => exact sim_skipValue.bind fun _ => Sim.pure _

/-- **Sessions on a buffer and on its bytes** return the same. -/
theorem session_same (ops : List ReadOp) : ∀ {b : B} {data : Bytes}, Same b data →
    (session ops b).1 = (session ops data).1 ∧ Same (session ops b).2 (session ops data).2 := by
  induction ops with
  | nil => intro b data hs; exact ⟨rfl, hs⟩
  | cons op ops ih =>
    intro b data hs
    obtain ⟨hres, hs'⟩ := sim_op op b data hs
    obtain ⟨h1, h2⟩ := ih hs'
    refine ⟨?_, h2⟩
    show ((op.run b).1, Buf.remaining (op.run b).2) :: (session ops (op.run b).2).1
      = ((op.run data).1, Buf.remaining (op.run data).2) :: (session ops (op.run data).2).1
    rw [hres, hs'.remaining, h1]

end

theorem same_fromChunks {segs : List Bytes} (h : segs.flatten.length ≤ usizeMax) :
    Same (MessageBuf.fromChunks segs) segs.flatten := by
  refine ⟨MessageBuf.fromChunks_wf h, ?_⟩
  show (MessageBuf.fromChunks segs).chunks.flatten = _
  rw [MessageBuf.fromChunks_chunks, MessageBuf.flatten_filter_isEmpty]

/-- **Segmented reading is contiguous reading**, whatever the operations, for every cut of the bytes
into segments. -/
theorem session_fromChunks [BytesCrate] (segs : List Bytes) (ops : List ReadOp)
    (h : segs.flatten.length ≤ usizeMax) :
    (session ops (MessageBuf.fromChunks segs)).1 = (session ops segs.flatten).1 :=
  (session_same ops (same_fromChunks h)).1

/-- a number cut in the middle, a failing read, and a value at the end of the buffer -/
theorem session_fromChunks_cut :
    letI := BytesCrate.copying
    (session [.int, .bool, .int]
        (MessageBuf.fromChunks ([[0xC9, 1], [], [2, 0xC0], [7]] : List Bytes))).1
      = (session [.int, .bool, .int] ([0xC9, 1, 2, 0xC0, 7] : Bytes)).1 := by
  let _ := BytesCrate.copying
  exact session_fromChunks [[0xC9, 1], [], [2, 0xC0], [7]] [.int, .bool, .int] (by decide)

end Bolt
