import BoltWire.Framing
import BoltWire.Safety

/-!
# Clients of a connection

A client decides on its next operation by what the last one returned.

* `Client.talk`      a client with a reader; `script` the client that only goes through a list;
* `talk_same`        no client tells a buffer from the bytes it stands for;
* `delivered_inv`    every message that is delivered is a lawful buffer;
* `feeds_rechunk`    no client tells how its messages were cut into chunks and feeds, which limits
                     were set, or whether the connection failed later.
-/

set_option linter.unusedSectionVars false

namespace Bolt
open Rust Message

/-- a client is told what an operation returned and `remaining()` after it -/
inductive Client where
  | stop
  | ask (op : ReadOp) (next : Res PackStreamError ReadVal → Nat → Client)

namespace Client
variable [BytesCrate] {B : Type} [Buf B]

def talk : Client → B → List (Res PackStreamError ReadVal × Nat) × B
  | stop, b => ([], b)
  | ask op next, b =>
    let t := (next (op.run b).1 (Buf.remaining (op.run b).2)).talk (op.run b).2
    (((op.run b).1, Buf.remaining (op.run b).2) :: t.1, t.2)

def script : List ReadOp → Client
  | [] => stop
  | op :: ops => ask op fun _ _ => script ops

theorem script_talk (ops : List ReadOp) : ∀ b : B, (script ops).talk b = session ops b := by
  induction ops with
  | nil => exact fun b => rfl
  | cons op ops ih =>
    intro b
    rw [script, talk, session, ih]

variable [LawfulBuf B]

theorem talk_same (c : Client) : ∀ {b : B} {data : Bytes}, Same b data →
    (c.talk b).1 = (c.talk data).1 ∧ Same (c.talk b).2 (c.talk data).2 := by
  induction c with
  | stop => exact fun hs => ⟨rfl, hs⟩
  | ask op next ih =>
    intro b data hs
    obtain ⟨hres, hs'⟩ := sim_op op b data hs
    have hrem := hs'.remaining
    obtain ⟨h1, h2⟩ := ih (op.run data).1 (Buf.remaining (op.run data).2) hs'
    rw [talk, talk, hres, hrem]
    exact ⟨congrArg _ h1, h2⟩

end Client

namespace ChunkDecoder
variable {maxSize maxSegs : Usize}

theorem mem_delivered {β : Type} {rs : List (Res ChunkError (List (MessageBuf β)))} {m : MessageBuf β}
    (h : m ∈ delivered rs) : ∃ messages, Res.ok messages ∈ rs ∧ m ∈ messages := by
  induction rs with
  | nil => cases h
  | cons r rs ih =>
    have hrest : m ∈ delivered rs → ∃ messages, Res.ok messages ∈ r :: rs ∧ m ∈ messages := fun h => by
      obtain ⟨messages, hmem, hm⟩ := ih h
      exact ⟨messages, List.mem_cons_of_mem r hmem, hm⟩
    cases r with
    | ok messages =>
      rcases List.mem_append.mp h with h | h
      · exact ⟨messages, List.mem_cons_self, h⟩
      · exact hrest h
    | err e => exact hrest h
    | panic => exact hrest h
    | spin => exact hrest h

theorem delivered_inv {fs : List Bytes} {m : MessageBuf UInt8}
    (h : m ∈ delivered (feeds fs (fresh maxSize maxSegs)).1) : LawfulBuf.Inv m := by
  obtain ⟨messages, hok, hm⟩ := mem_delivered h
  rw [fresh_eq_decoderOf] at hok
  obtain ⟨segs, hsegs, rfl⟩ := feeds_emitted Deframe.Inv.start fs messages hok m hm
  exact bounded_inv (fromChunks_bounded hsegs).2

/-- the message at a place of what was delivered, as the stream has it -/
theorem delivered_same {fs : List Bytes} {msgs : List Message} (hc : Completes fs.flatten msgs)
    {i : Nat} {m : MessageBuf UInt8}
    (h : (delivered (feeds fs (fresh maxSize maxSegs)).1)[i]? = some m) :
    ∃ payload, (msgs.map Message.payload)[i]? = some payload ∧ Same m payload := by
  obtain ⟨rest, hrest⟩ := delivered_prefix maxSize maxSegs hc
  have hi := (List.getElem?_eq_some_iff.mp h).1
  refine ⟨m.payload, ?_, delivered_inv (List.mem_of_getElem? h), rfl⟩
  rw [← hrest, List.getElem?_append_left (by rwa [List.length_map]), List.getElem?_map, h]
  rfl

/-- **Chunking is invisible.**  Two connections carry the same payloads, cut into chunks and feeds in
ways of their own, under limits of their own, and each may fail at some point: on the message that
stands at one place of what the two deliver, every client is answered the same, and as on the payload
in one piece.  While neither fails they deliver equally many. -/
theorem feeds_rechunk [BytesCrate] (maxSize maxSegs maxSize' maxSegs' : Usize) (fs fs' : List Bytes)
    (msgs msgs' : List Message) (h : Completes fs.flatten msgs) (h' : Completes fs'.flatten msgs')
    (hpay : msgs.map payload = msgs'.map payload) :
    (∀ (i : Nat) (m m' : MessageBuf UInt8),
      (delivered (feeds fs (fresh maxSize maxSegs)).1)[i]? = some m →
      (delivered (feeds fs' (fresh maxSize' maxSegs')).1)[i]? = some m' →
      m.payload = m'.payload ∧ ∀ c : Client, (c.talk m).1 = (c.talk m').1 ∧
        (c.talk m).1 = (c.talk m.payload).1) ∧
    (AllOk maxSize maxSegs fs → AllOk maxSize' maxSegs' fs' →
      (delivered (feeds fs (fresh maxSize maxSegs)).1).length
        = (delivered (feeds fs' (fresh maxSize' maxSegs')).1).length) := by
  constructor
  · intro i m m' hm hm'
    obtain ⟨payload, hi, hsame⟩ := delivered_same h hm
    obtain ⟨payload', hi', hsame'⟩ := delivered_same h' hm'
    rw [hpay, hi'] at hi
    obtain rfl : payload' = payload := Option.some.inj hi
    have hflat : m.payload = payload' := hsame.2
    refine ⟨hflat.trans hsame'.2.symm, fun c => ?_⟩
    rw [hflat, (c.talk_same hsame).1, (c.talk_same hsame').1]
    exact ⟨rfl, rfl⟩
  · intro hok hok'
    have hlen := congrArg List.length ((delivered_completes hok h).trans
      (hpay.trans (delivered_completes hok' h').symm))
    rwa [List.length_map, List.length_map] at hlen

/-- one message in one chunk and in three, under a limit that the second connection exceeds later; the
client peeks before it reads -/
theorem feeds_rechunk_three :
    letI := BytesCrate.copying
    ((Client.ask .peek fun r _ => if r = .ok (.peeked (some 0xC9)) then .script [.int] else .stop).talk
      (⟨[[0xC9, 1, 2]], 3⟩ : MessageBuf UInt8)).1
      = ((Client.ask .peek fun r _ => if r = .ok (.peeked (some 0xC9)) then .script [.int] else .stop).talk
        (⟨[[0xC9], [1], [2]], 3⟩ : MessageBuf UInt8)).1 := by
  let _ := BytesCrate.copying
  have hrechunk := feeds_rechunk 16 1 3 4 [[0, 3, 0xC9, 1, 2, 0, 0]]
    [[0, 1, 0xC9, 0, 1, 1], [0, 1, 2, 0, 0], [0, 4]] [[⟨[0xC9, 1, 2], by decide, by decide⟩]]
    [[⟨[0xC9], by decide, by decide⟩, ⟨[1], by decide, by decide⟩, ⟨[2], by decide, by decide⟩]]
    ⟨[], 0, by decide, by decide⟩ ⟨[⟨[0, 0, 0, 0], by decide, by decide⟩], 2, by decide, by decide⟩
    (by decide)
  exact ((hrechunk.1 0 _ _ rfl rfl).2 _).1

end ChunkDecoder
end Bolt
