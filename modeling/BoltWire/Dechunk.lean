import BoltWire.Grammar

/-!
# De-chunking inverts framing

* `MessageBuf.payload`   the bytes of a message that came out;
* `run_stream`           the deframer on framed messages and the beginning of one more;
* `feeds_dechunk`        the decoder on their bytes, in any feeds.
-/

set_option linter.unusedSectionVars false

namespace Bolt
open Rust Message

def MessageBuf.payload (m : MessageBuf UInt8) : Bytes := m.chunks.flatten

theorem MessageBuf.payload_fromChunks (segs : List Bytes) :
    (MessageBuf.fromChunks segs).payload = segs.flatten := by
  unfold payload
  rw [fromChunks_chunks, flatten_filter_isEmpty]

theorem MessageBuf.map_payload_fromChunks (outs : List (List Bytes)) :
    (outs.map MessageBuf.fromChunks).map payload = outs.map List.flatten := by
  rw [List.map_map]
  exact List.map_congr_left fun o _ => payload_fromChunks o

namespace ChunkDecoder
variable {maxSize maxSegs : Usize}

/-- the payloads that the batches of a run give -/
theorem batches_payloads (S : Scanner (Deframe UInt8) (UInt8 × Bool) (List Bytes) ChunkError)
    (st : Deframe UInt8) (fs : List Bytes) :
    ((S.batches st (fs.map mark)).map fun outs =>
        outs.map MessageBuf.fromChunks).flatten.map MessageBuf.payload
      = (S.run st (marks fs)).2.map List.flatten := by
  rw [← List.map_flatten, MessageBuf.map_payload_fromChunks, Scanner.batches_flatten]
  rfl

theorem flatten_take (fs : List Bytes) (k : Nat) :
    (fs.take k).flatten = fs.flatten.take (fs.take k).flatten.length := by
  have e : fs.flatten = (fs.take k).flatten ++ (fs.drop k).flatten := by
    rw [← List.flatten_append, List.take_append_drop]
  rw [e, List.take_left]

/-- what a stream of framed messages leaves of the deframer -/
theorem run_stream (maxSize maxSegs : Nat) (msgs : List Message) (last : Message) {n : Nat}
    (hn : n < last.frame.length) {k : Nat} {xs : List (UInt8 × Bool)} {idx : List Nat}
    (hst : Stamped k xs idx) (hx : xs.map Prod.fst = wire msgs ++ last.frame.take n) :
    ((deframer maxSize maxSegs).run .start xs).1.phase = heldPhase last n ∧
    ((deframer maxSize maxSegs).run .start xs).1.segs.flatten = heldPayload last n ∧
    ((deframer maxSize maxSegs).run .start xs).2.map List.flatten = msgs.map payload := by
  obtain ⟨whole, rest, rfl, hwhole, hrest⟩ := List.map_eq_append_iff.mp hx
  have h1 := hst.take whole.length
  rw [List.take_left] at h1
  obtain ⟨outs, hrun, houts⟩ := Deframe.run_wire maxSize maxSegs msgs h1 hwhole
  obtain ⟨segs, opn, hheld, hflat⟩ := Deframe.run_held maxSize maxSegs last hn hrest []
  have hheld' : (deframer maxSize maxSegs).run .start rest
      = (⟨heldPhase last n, segs, opn⟩, []) := hheld
  rw [Scanner.run_append, hrun]
  show ((deframer maxSize maxSegs).run .start rest).1.phase = _ ∧
    ((deframer maxSize maxSegs).run .start rest).1.segs.flatten = _ ∧
    (outs ++ ((deframer maxSize maxSegs).run .start rest).2).map List.flatten = _
  rw [hheld', List.append_nil]
  exact ⟨rfl, hflat, houts⟩

/-- **De-chunking inverts framing**, however the bytes of the messages (and of the beginning of one
more) are split into feeds: every feed returns, the first `k` feeds have given exactly the messages
whose end marker they contain, and the decoder holds what was seen of the unfinished message. -/
theorem feeds_dechunk (maxSize maxSegs : Usize) (msgs : List Message) (last : Message) (n : Nat)
    (hn : n < last.frame.length) (fs : List Bytes) (hfs : fs.flatten = wire msgs ++ last.frame.take n)
    (hlim : WithinLimits maxSize.val maxSegs.val (feedOf fs) (msgs ++ [last])) :
    ∃ outs : List (List (MessageBuf UInt8)),
      (feeds fs (fresh maxSize maxSegs)).1 = outs.map Res.ok ∧
      outs.flatten.map MessageBuf.payload = msgs.map payload ∧
      (∀ k, (outs.take k).flatten.map MessageBuf.payload
        = (completed (fs.take k).flatten.length msgs).map payload) ∧
      (feeds fs (fresh maxSize maxSegs)).2.pending.flatten = heldPayload last n ∧
      (feeds fs (fresh maxSize maxSegs)).2.pendingSize = (heldPayload last n).length ∧
      (feeds fs (fresh maxSize maxSegs)).2.state = (heldPhase last n).state := by
  have hst := Stamped.marks fs
  have hx : (marks fs).map Prod.fst = wire msgs ++ last.frame.take n := (marks_fst fs).trans hfs
  have hclean : (scanner maxSize maxSegs).Clean .start (marks fs) :=
    Deframe.clean_wire msgs last n hst hx hlim
  obtain ⟨hphase, hheld, hall⟩ := run_stream maxSize.val maxSegs.val msgs last hn hst hx
  rw [fresh_eq_decoderOf, feeds_clean fs Deframe.Inv.start hclean]
  refine ⟨((scanner maxSize maxSegs).batches .start (fs.map mark)).map fun outs =>
    outs.map MessageBuf.fromChunks, ?_, ?_, ?_, hheld, congrArg List.length hheld,
    congrArg Phase.state hphase⟩
  · exact map_emitted _
  · rw [batches_payloads, hall]
  · intro k
    rw [← List.map_take, Scanner.batches_take, ← List.map_take, batches_payloads]
    obtain ⟨last', n', hn', hcut⟩ := take_wire msgs last hn (fs.take k).flatten.length
    have hpre : (marks (fs.take k)).map Prod.fst
        = wire (completed (fs.take k).flatten.length msgs) ++ last'.frame.take n' := by
      rw [marks_fst, ← hcut, ← hfs]
      exact flatten_take fs k
    exact (run_stream maxSize.val maxSegs.val _ last' hn' (Stamped.marks _) hpre).2.2

/-- two messages, of two chunks and of none, and the beginning of a third one -/
theorem feeds_dechunk_two :
    ∃ outs : List (List (MessageBuf UInt8)),
      (feeds [[0, 2, 7], [8, 0], [], [1, 9, 0, 0, 0, 0, 0, 2, 5]] (fresh 8 3 : ChunkDecoder UInt8)).1
        = outs.map Res.ok ∧
      outs.flatten.map MessageBuf.payload = [[7, 8, 9], []] ∧
      (feeds [[0, 2, 7], [8, 0], [], [1, 9, 0, 0, 0, 0, 0, 2, 5]] (fresh 8 3 : ChunkDecoder UInt8)).2.state
        = .readingPayload 1 := by
  obtain ⟨outs, hok, hpay, -, -, -, hstate⟩ := feeds_dechunk 8 3
    [[⟨[7, 8], by decide, by decide⟩, ⟨[9], by decide, by decide⟩], []]
    [⟨[5, 6], by decide, by decide⟩] 3 (by decide)
    [[0, 2, 7], [8, 0], [], [1, 9, 0, 0, 0, 0, 0, 2, 5]] (by decide) (by decide)
  exact ⟨outs, hok, hpay, hstate⟩

end ChunkDecoder
end Bolt
