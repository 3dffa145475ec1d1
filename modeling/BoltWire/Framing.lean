import BoltWire.Lib.PrefixCode
import BoltWire.Delivery

/-!
# One stream, one list of messages

The framing of chunked transfer is a code: where a message ends follows from its own bytes.

* `chunk_apart`, `frame_apart`   chunks and framed messages are told apart by their beginnings;
* `completes_iff`   the messages of a stream as the words of a cut stream;
* `completes_unique`, `completes_mono`   a stream has one list of messages, and a longer one only
                    adds to it;
* `feeds_unambiguous`   every stream has exactly one list of messages, and it is the one emitted;
* `completed_first`   the messages within a part of a stream come first;
* `exists_delivered`   what has been delivered after any number of calls;
* `feeds_deliver`   what a connection delivers, failing or not.
-/

set_option linter.unusedSectionVars false

namespace Bolt
open Rust Message PrefixCode

theorem Chunk.eq_of_payload {c c' : Chunk} (h : c.payload = c'.payload) : c = c' := by
  cases c
  cases c'
  subst h
  rfl

theorem chunk_apart : TellsApart Chunk.encode := by
  intro c c' rest rest' e
  obtain ⟨hhi, e⟩ := List.cons.inj e
  obtain ⟨hlo, e⟩ := List.cons.inj e
  have hlen : c.payload.length = c'.payload.length := by
    rw [← c.headerSize, ← c'.headerSize, hhi, hlo]
  obtain ⟨hpayload, hrest⟩ := List.append_inj e hlen
  exact ⟨Chunk.eq_of_payload hpayload, hrest⟩

/-- the size of a chunk is not zero -/
theorem chunk_not_end (c : Chunk) (rest rest' : Bytes) : c.encode ++ rest ≠ [0, 0] ++ rest' := by
  intro e
  obtain ⟨hhi, e⟩ := List.cons.inj e
  obtain ⟨hlo, -⟩ := List.cons.inj e
  have hsize := c.headerSize
  rw [hhi, hlo] at hsize
  exact absurd hsize.symm (Nat.ne_of_gt c.pos)

theorem frame_apart : TellsApart frame := chunk_apart.seq chunk_not_end

namespace ChunkDecoder
variable {maxSize maxSegs : Usize}

theorem completes_iff {s : Bytes} {msgs : List Message} :
    Completes s msgs ↔ ∃ t, Cut frame t ∧ s = msgs.flatMap frame ++ t := by
  constructor
  · rintro ⟨last, n, hn, hs⟩
    exact ⟨_, ⟨last, n, hn, rfl⟩, hs⟩
  · rintro ⟨_, ⟨last, n, hn, rfl⟩, hs⟩
    exact ⟨last, n, hn, hs⟩

theorem completes_unique {s : Bytes} {msgs msgs' : List Message} (h : Completes s msgs)
    (h' : Completes s msgs') : msgs = msgs' := by
  obtain ⟨t, ht, rfl⟩ := completes_iff.mp h
  obtain ⟨t', ht', e⟩ := completes_iff.mp h'
  exact (parse_unique frame_apart ht ht' e).1

theorem completes_mono {s more : Bytes} {msgs msgs' : List Message} (h : Completes s msgs)
    (h' : Completes (s ++ more) msgs') : msgs <+: msgs' := by
  obtain ⟨t, -, rfl⟩ := completes_iff.mp h
  obtain ⟨t', ht', e⟩ := completes_iff.mp h'
  rw [List.append_assoc] at e
  exact parse_mono frame_apart ht' e

theorem completes_wire (msgs : List Message) : Completes (wire msgs) msgs :=
  ⟨[], 0, Nat.two_pos, (List.append_nil _).symm⟩

theorem delivered_completes {fs : List Bytes} {msgs : List Message} (h : AllOk maxSize maxSegs fs)
    (hc : Completes fs.flatten msgs) :
    (delivered (feeds fs (fresh maxSize maxSegs)).1).map MessageBuf.payload = msgs.map payload := by
  obtain ⟨last, n, hn, hfs⟩ := hc
  have hall := delivered_allOk h hn (t := []) (by rw [List.append_nil, hfs]) fs.length
  have hlen : (wire msgs).length ≤ fs.flatten.length := by
    rw [hfs, List.length_append]
    exact Nat.le_add_right _ _
  rwa [List.take_of_length_le (Nat.le_of_eq (feeds_length fs _)), List.take_length,
    completed_eq_self hlen] at hall

/-- **Framing is unambiguous.**  Every byte stream holds exactly one list of complete messages; a
stream that goes on holds the same ones and possibly more; and these are the messages that any
decoder emits, however the stream is split into feeds, if no limit stands in the way. -/
theorem feeds_unambiguous :
    (∀ s : Bytes, ∃! msgs, Completes s msgs) ∧
    (∀ s more msgs msgs', Completes s msgs → Completes (s ++ more) msgs' → msgs <+: msgs') ∧
    (∀ msgs msgs', wire msgs = wire msgs' → msgs = msgs') ∧
    ∀ (maxSize maxSegs : Usize) (fs : List Bytes) (msgs : List Message),
      AllOk maxSize maxSegs fs → Completes fs.flatten msgs →
      (delivered (feeds fs (fresh maxSize maxSegs)).1).map MessageBuf.payload = msgs.map payload := by
  refine ⟨fun s => ?_, fun s more msgs msgs' h h' => completes_mono h h', fun msgs msgs' e => ?_,
    fun maxSize maxSegs fs msgs h hc => delivered_completes h hc⟩
  · obtain ⟨msgs, h⟩ := exists_completes s
    exact ⟨msgs, h, fun msgs' h' => completes_unique h' h⟩
  · exact completes_unique (completes_wire msgs) (e ▸ completes_wire msgs')

/-- a stream that is cut in its second message -/
theorem feeds_unambiguous_cut :
    (delivered (feeds ([[0, 1, 7], [0, 0, 0], [2, 9]] : List Bytes) (fresh 4 4)).1).map
      MessageBuf.payload = [[7]] :=
  feeds_unambiguous.2.2.2 4 4 _ [[⟨[7], by decide, by decide⟩]] ⟨[[], [⟨[[7]], 1⟩], []], by decide⟩
    ⟨[⟨[9, 0], by decide, by decide⟩], 3, by decide, by decide⟩

/-! ## failing connections -/

theorem completed_first (msgs : List Message) : ∀ n, completed n msgs <+: msgs := by
  induction msgs with
  | nil => exact fun _ => List.nil_prefix
  | cons m msgs ih =>
    intro n
    rw [completed]
    split
    · exact List.cons_prefix_cons.mpr ⟨rfl, ih _⟩
    · exact List.nil_prefix

/-- the feeds up to the first error, and what they return -/
theorem exists_good (maxSize maxSegs : Usize) (fs : List Bytes) : ∃ good bad, fs = good ++ bad ∧
    AllOk maxSize maxSegs good ∧
    (feeds fs (fresh maxSize maxSegs)).1.take good.length = (feeds good (fresh maxSize maxSegs)).1 ∧
    ∀ r ∈ (feeds fs (fresh maxSize maxSegs)).1.drop good.length, ∃ e, r = .err e := by
  have htake : ∀ good bad, (feeds (good ++ bad) (fresh maxSize maxSegs)).1.take good.length
      = (feeds good (fresh maxSize maxSegs : ChunkDecoder UInt8)).1 := fun good bad => by
    rw [feeds_append, List.take_left' (feeds_length good _)]
  rcases allOk_or_failsAt maxSize maxSegs fs with h | ⟨i, e, h⟩
  · refine ⟨fs, [], (List.append_nil fs).symm, h, ?_, fun r hr => ?_⟩
    · have := htake fs []
      rwa [List.append_nil] at this
    · rw [List.drop_of_length_le (Nat.le_of_eq (feeds_length fs _))] at hr
      cases hr
  · obtain ⟨done, data, todo, j, outs, rfl, -, -, -, hcut, hres⟩ := h
    have hlen := congrArg List.length hcut
    rw [feeds_length, List.length_append, List.length_append, List.length_map] at hlen
    have houts : done.length = outs.length := Nat.succ.inj hlen
    have hdone := htake done (data :: todo)
    refine ⟨done, data :: todo, rfl, ⟨outs, ?_⟩, hdone, fun r hr => ?_⟩
    · rw [← hdone, hres, List.take_left' (by rw [List.length_map, houts])]
    · rw [hres, List.drop_left' (by rw [List.length_map, houts])] at hr
      rcases List.mem_cons.mp hr with rfl | hr
      · exact ⟨e, rfl⟩
      · obtain ⟨_, -, rfl⟩ := List.mem_map.mp hr
        exact ⟨_, rfl⟩

theorem delivered_fails {β : Type} {rs : List (Res ChunkError (List (MessageBuf β)))}
    (h : ∀ r ∈ rs, ∃ e, r = .err e) : delivered rs = [] := by
  induction rs with
  | nil => rfl
  | cons r rs ih =>
    obtain ⟨e, rfl⟩ := h r List.mem_cons_self
    exact ih fun r hr => h r (List.mem_cons_of_mem _ hr)

/-- the feeds before the first error, and what has been delivered after any number of calls -/
theorem exists_delivered (maxSize maxSegs : Usize) {fs : List Bytes} {msgs : List Message}
    (hc : Completes fs.flatten msgs) : ∃ good bad, fs = good ++ bad ∧
    (∀ r ∈ (feeds fs (fresh maxSize maxSegs)).1.take good.length, ∃ messages, r = .ok messages) ∧
    (∀ r ∈ (feeds fs (fresh maxSize maxSegs)).1.drop good.length, ∃ e, r = .err e) ∧
    ∀ k, (delivered ((feeds fs (fresh maxSize maxSegs)).1.take k)).map MessageBuf.payload
      = (completed (good.take k).flatten.length msgs).map payload := by
  obtain ⟨good, bad, rfl, hok, htake, hbad⟩ := exists_good maxSize maxSegs fs
  refine ⟨good, bad, rfl, fun r hr => ?_, hbad, fun k => ?_⟩
  · obtain ⟨outs, houts⟩ := hok
    rw [htake, houts] at hr
    obtain ⟨messages, -, rfl⟩ := List.mem_map.mp hr
    exact ⟨messages, rfl⟩
  · obtain ⟨last, n, hn, hfs⟩ := hc
    rw [List.flatten_append] at hfs
    have hdrop : delivered ((feeds (good ++ bad) (fresh maxSize maxSegs)).1.take k)
        = delivered ((feeds good (fresh maxSize maxSegs)).1.take k) := by
      have hsplit := @List.take_append _ (feeds good (fresh maxSize maxSegs)).1
        ((feeds (good ++ bad) (fresh maxSize maxSegs)).1.drop good.length) k
      rw [← htake, List.take_append_drop] at hsplit
      rw [hsplit, htake, delivered_append, delivered_fails fun r hr => hbad r (List.mem_of_mem_take hr),
        List.append_nil]
    rw [hdrop]
    exact delivered_allOk hok hn hfs k

/-- **What a connection delivers**, whether it fails or not: at every moment the messages whose end
marker lies in the feeds before the first error, in order, each with its own payload. -/
theorem feeds_deliver (maxSize maxSegs : Usize) (fs : List Bytes) : ∃ msgs good bad,
    Completes fs.flatten msgs ∧ fs = good ++ bad ∧
    (∀ r ∈ (feeds fs (fresh maxSize maxSegs)).1.take good.length, ∃ messages, r = .ok messages) ∧
    (∀ r ∈ (feeds fs (fresh maxSize maxSegs)).1.drop good.length, ∃ e, r = .err e) ∧
    (∀ k, (delivered ((feeds fs (fresh maxSize maxSegs)).1.take k)).map MessageBuf.payload
      = (completed (good.take k).flatten.length msgs).map payload) ∧
    ∀ k, completed (good.take k).flatten.length msgs <+: msgs := by
  obtain ⟨msgs, hc⟩ := exists_completes fs.flatten
  obtain ⟨good, bad, hfs, hgood, hbad, hk⟩ := exists_delivered maxSize maxSegs hc
  exact ⟨msgs, good, bad, hc, hfs, hgood, hbad, hk, fun k => completed_first msgs _⟩

/-- whatever goes wrong, the payloads delivered are the first ones of the stream -/
theorem delivered_prefix (maxSize maxSegs : Usize) {fs : List Bytes} {msgs : List Message}
    (hc : Completes fs.flatten msgs) :
    (delivered (feeds fs (fresh maxSize maxSegs)).1).map MessageBuf.payload <+: msgs.map payload := by
  obtain ⟨good, bad, -, -, -, hk⟩ := exists_delivered maxSize maxSegs hc
  have hall := hk fs.length
  rw [List.take_of_length_le (Nat.le_of_eq (feeds_length fs _))] at hall
  rw [hall]
  exact (completed_first msgs _).map payload

end ChunkDecoder
end Bolt
