import BoltWire.Lib.Call
import BoltWire.Lib.BigEndian

/-!
# Byte buffers: `Bytes` and the trait `Buf`

What the crate uses of its dependency `bytes`.

* `Bytes`           a flat queue of bytes; `index`, `splitTo`, `dropFront` are its indexing,
                    `split_to` and `advance` with their length assertions;
* `Buf`             the trait, with the methods that its implementors write;
* `LawfulBuf`       what the documentation of the trait asks of an implementor: some states
                    (`Inv`) stand for a byte string (`bytes`), and the methods act on it;
* `BytesCrate`      the provided getters of the trait, and the putters of `BytesMut`.  Their code is
                    not part of this repository: `getArray n` fetches the `n` bytes that `get_u8` ..
                    `get_f64` hand to `from_be_bytes`, and on a lawful buffer it reads the next `n`
                    bytes; `putArray src` is `put_slice`, and `put_u8` .. `put_i64` on the bytes of
                    `to_be_bytes`, and appends `src`;
* `BytesCrate.copying`   the getters as a copy loop over `chunk` and `advance`, the putters as `++`.
-/

set_option linter.unusedSectionVars false

namespace Bolt
open Rust Rust.Call BigEndian

abbrev Bytes := List UInt8

section
variable {σ ε β : Type}

/-- `data[i]` -/
def index (data : List β) (i : Nat) : Call σ ε β :=
  match data[i]? with
  | some b => pure b
  | none => panic

/-- `data.split_to(at)`: the front and what stays -/
def splitTo (data : List β) (n : Nat) : Call σ ε (List β × List β) := do
  assert (n ≤ data.length)
  pure (data.take n, data.drop n)

/-- `data.advance(cnt)` -/
def dropFront (data : List β) (cnt : Nat) : Call σ ε (List β) := do
  assert (cnt ≤ data.length)
  pure (data.drop cnt)

@[simp] theorem index_zero (b : β) (t : List β) :
    (index (b :: t) 0 : Call σ ε β) = pure b := rfl
theorem splitTo_run {data : List β} {n : Nat} (h : n ≤ data.length) (s : σ) :
    (splitTo data n : Call σ ε (List β × List β)) s = (.ok (data.take n, data.drop n), s) := by
  unfold splitTo
  rw [assert_bind_pos h, pure_run]

theorem dropFront_run {data : List β} {n : Nat} (h : n ≤ data.length) (s : σ) :
    (dropFront data n : Call σ ε (List β)) s = (.ok (data.drop n), s) := by
  unfold dropFront
  rw [assert_bind_pos h, pure_run]

/-- `a - b` on unsigned integers -/
def checkedSub (a b : Nat) : Call σ ε Nat := do
  assert (b ≤ a)
  pure (a - b)

theorem checkedSub_run {a b : Nat} (h : b ≤ a) (s : σ) :
    (checkedSub a b : Call σ ε Nat) s = (.ok (a - b), s) := by
  unfold checkedSub
  rw [assert_bind_pos h, pure_run]

end

/-- `u16::from_be_bytes` -/
def u16FromBe (bs : Bytes) : UInt16 := UInt16.ofNat (ofBe bs)

theorem u16FromBe_toNat {bs : Bytes} (h : bs.length = 2) : (u16FromBe bs).toNat = ofBe bs := by
  have hlt := ofBe_lt bs
  rw [h] at hlt
  exact UInt16.toNat_ofNat_of_lt' hlt

/-! ## the trait -/

class Buf (B : Type) where
  remaining : B → Nat
  chunk : B → Bytes
  advance {ε : Type} (cnt : Nat) : Call B ε Unit
  copyToBytes {ε : Type} (len : Nat) : Call B ε Bytes

instance : Buf Bytes where
  remaining data := data.length
  chunk data := data
  advance cnt := do
    let data ← get
    let rest ← dropFront data cnt
    set rest
  copyToBytes len := do
    let data ← get
    let (front, rest) ← splitTo data len
    set rest
    pure front

class LawfulBuf (B : Type) [Buf B] where
  Inv : B → Prop
  bytes : B → Bytes
  remaining_eq (b : B) : Inv b → Buf.remaining b = (bytes b).length
  chunk_prefix (b : B) : Inv b → Buf.chunk b <+: bytes b
  chunk_ne_nil (b : B) : Inv b → bytes b ≠ [] → Buf.chunk b ≠ []
  advance_run {ε : Type} (b : B) (n : Nat) : Inv b → n ≤ (bytes b).length →
    ∃ b', (Buf.advance n : Call B ε Unit) b = (.ok (), b') ∧ Inv b' ∧ bytes b' = (bytes b).drop n
  copyToBytes_run {ε : Type} (b : B) (n : Nat) : Inv b → n ≤ (bytes b).length →
    ∃ b', (Buf.copyToBytes n : Call B ε Bytes) b = (.ok ((bytes b).take n), b') ∧ Inv b' ∧
      bytes b' = (bytes b).drop n

theorem Bytes.advance_run {ε : Type} {data : Bytes} {n : Nat} (h : n ≤ data.length) :
    (Buf.advance n : Call Bytes ε Unit) data = (.ok (), data.drop n) := by
  show ((get : Call Bytes ε Bytes) >>= fun d => dropFront d n >>= fun rest => set rest) data = _
  rw [get_bind_run, bind_ok (dropFront_run h data), set_run]

theorem Bytes.copyToBytes_run {ε : Type} {data : Bytes} {n : Nat} (h : n ≤ data.length) :
    (Buf.copyToBytes n : Call Bytes ε Bytes) data = (.ok (data.take n), data.drop n) := by
  show ((get : Call Bytes ε Bytes) >>= fun d => splitTo d n >>= fun p =>
    set p.2 >>= fun _ => pure p.1) data = _
  rw [get_bind_run, bind_ok (splitTo_run h data), set_bind_run, pure_run]

/-- a flat byte queue stands for itself -/
instance : LawfulBuf Bytes where
  Inv _ := True
  bytes data := data
  remaining_eq _ _ := rfl
  chunk_prefix _ _ := List.prefix_rfl
  chunk_ne_nil _ _ h := h
  advance_run _ _ _ h := ⟨_, Bytes.advance_run h, trivial, rfl⟩
  copyToBytes_run _ _ _ h := ⟨_, Bytes.copyToBytes_run h, trivial, rfl⟩

/-! ## the provided getters and the putters -/

open LawfulBuf in
class BytesCrate where
  getArray {B : Type} [Buf B] {ε : Type} (n : Nat) : Call B ε Bytes
  getArray_run {B : Type} [Buf B] [LawfulBuf B] {ε : Type} (b : B) (n : Nat) :
    Inv b → n ≤ (bytes b).length →
    ∃ b', (getArray n : Call B ε Bytes) b = (.ok ((bytes b).take n), b') ∧ Inv b' ∧
      bytes b' = (bytes b).drop n
  putArray {ε : Type} (src : Bytes) : Call Bytes ε Unit
  putArray_run {ε : Type} (src buf : Bytes) :
    (putArray src : Call Bytes ε Unit) buf = (.ok (), buf ++ src)

section
variable {B : Type} [Buf B] {ε : Type}

/-- one round of the copy: as much of the current chunk as is still wanted -/
def copyChunk (n : Nat) (dst : Bytes) : Call B ε Bytes := do
  let b ← get
  let src := Buf.chunk b
  let cnt := min src.length (n - dst.length)
  Buf.advance cnt
  pure (dst ++ src.take cnt)

def copyArray (n : Nat) : Call B ε Bytes := do
  let b ← get
  assert (n ≤ Buf.remaining b)
  whileLoop (fun dst => decide (dst.length < n)) (copyChunk n) (n + 1) []

variable [LawfulBuf B]
open LawfulBuf

/-- a round moves a non-empty piece from the buffer to `dst` -/
theorem copyChunk_run {n : Nat} {dst : Bytes} {b : B} (h : Inv b)
    (hn : n ≤ (dst ++ bytes b).length) (hd : dst.length < n) :
    ∃ dst' b', (copyChunk n dst : Call B ε Bytes) b = (.ok dst', b') ∧ Inv b' ∧
      dst' ++ bytes b' = dst ++ bytes b ∧ dst'.length ≤ n ∧ dst.length < dst'.length := by
  rw [List.length_append] at hn
  have hne : Buf.chunk b ≠ [] := chunk_ne_nil b h (by intro e; rw [e, List.length_nil] at hn; omega)
  obtain ⟨rest, hrest⟩ := chunk_prefix b h
  have hpos : 0 < (Buf.chunk b).length := List.length_pos_iff.mpr hne
  have hlen := congrArg List.length hrest
  rw [List.length_append] at hlen
  have hcnt : min (Buf.chunk b).length (n - dst.length) ≤ (bytes b).length := by omega
  obtain ⟨b', hb', hI, hbytes⟩ := advance_run (ε := ε) b _ h hcnt
  refine ⟨dst ++ (Buf.chunk b).take (min (Buf.chunk b).length (n - dst.length)), b', ?_, hI, ?_,
    ?_, ?_⟩
  · show ((get : Call B ε B) >>= fun b => Buf.advance _ >>= fun _ => pure _) b = _
    rw [get_bind_run, bind_ok hb', pure_run]
  · have e : (Buf.chunk b).take (min (Buf.chunk b).length (n - dst.length))
        = (bytes b).take (min (Buf.chunk b).length (n - dst.length)) := by
      rw [← hrest, List.take_append_of_le_length (Nat.min_le_left _ _)]
    rw [hbytes, e, List.append_assoc, List.take_append_drop]
  · rw [List.length_append, List.length_take]; omega
  · rw [List.length_append, List.length_take]; omega

theorem copyArray_run (b : B) (n : Nat) (h : Inv b) (hn : n ≤ (bytes b).length) :
    ∃ b', (copyArray n : Call B ε Bytes) b = (.ok ((bytes b).take n), b') ∧ Inv b' ∧
      bytes b' = (bytes b).drop n := by
  have hloop := whileLoop_rule (ε := ε) (fun dst => decide (dst.length < n)) (copyChunk n)
    (fun dst c => Inv c ∧ dst ++ bytes c = bytes b ∧ dst.length ≤ n)
    (fun r c => r = .ok ((bytes b).take n) ∧ Inv c ∧ bytes c = (bytes b).drop n)
    (fun dst _ => n - dst.length)
    (by
      rintro dst c ⟨hI, hb, hd⟩ hc
      have hge : dst.length = n := by
        have := of_decide_eq_false hc
        omega
      refine ⟨?_, hI, ?_⟩
      · rw [← hb, ← hge, List.take_left]
      · rw [← hb, ← hge, List.drop_left])
    (by
      rintro dst c ⟨hI, hb, hd⟩ hc
      obtain ⟨dst', c', h1, h2, h3, h4, h5⟩ := copyChunk_run (ε := ε) hI (by rw [hb]; exact hn)
        (of_decide_eq_true hc)
      exact .inl ⟨dst', c', h1, ⟨h2, h3.trans hb, h4⟩, by omega⟩)
    (n + 1) [] b ⟨h, rfl, Nat.zero_le n⟩ (by rw [List.length_nil]; omega)
  refine ⟨_, ?_, hloop.2⟩
  have hassert : n ≤ Buf.remaining b := by rw [remaining_eq b h]; exact hn
  show ((get : Call B ε B) >>= fun b => assert (n ≤ Buf.remaining b) >>= fun _ => _) b = _
  rw [get_bind_run, assert_bind_pos hassert]
  exact Prod.ext hloop.1 rfl

end

@[reducible] def BytesCrate.copying : BytesCrate where
  getArray n := copyArray n
  getArray_run b n h hn := copyArray_run b n h hn
  putArray src := do
    let buf ← get
    set (buf ++ src)
  putArray_run _ _ := rfl

end Bolt
