import BoltWire.Refine

/-!
# What a connection can cost: the resource invariant of the decoder

* `ChunkDecoder.Inv`    the counters of a decoder agree with its segments and stay within the limits;
* `MessageBuf.Bounded`  the same for a message that came out;
* `feeds_reach`, `feeds_emitted`   every reachable decoder and every emitted message, in the terms
                        of the deframer;
* `feeds_inv`           both invariants, after any sequence of feeds.
-/

set_option linter.unusedSectionVars false

namespace Bolt
open Rust

section
variable {β : Type}

structure ChunkDecoder.Inv (d : ChunkDecoder β) : Prop where
  size_eq : d.pendingSize = (d.pending.map List.length).sum
  nonempty : ∀ s ∈ d.pending, s ≠ []
  segs_le : d.pending.length ≤ d.maxSegmentsPerMessage.val
  size_le : d.pendingSize ≤ d.maxMessageSize.val
  owed : ∀ remaining, d.state = .readingPayload remaining →
    0 < remaining.toNat ∧ d.pendingSize + remaining.toNat ≤ d.maxMessageSize.val ∧
      ∀ n ≤ remaining.toNat, saturatingAdd d.pendingSize n = d.pendingSize + n
  defunct : d.state = .defunct → d.pending = [] ∧ d.pendingSize = 0

structure MessageBuf.Bounded (maxSize maxSegs : Usize) (m : MessageBuf β) : Prop where
  size_eq : m.remaining = (m.chunks.map List.length).sum
  size_le : m.remaining ≤ maxSize.val
  segs_le : m.chunks.length ≤ maxSegs.val
  nonempty : ∀ s ∈ m.chunks, s ≠ []

end

namespace ChunkDecoder
variable {β : Type} [Octet β] {maxSize maxSegs : Usize}

theorem decoderOf_inv {st : Deframe β} (h : Deframe.Inv maxSize.val maxSegs.val st) :
    (decoderOf maxSize maxSegs st).Inv where
  size_eq := List.length_flatten
  nonempty := h.nonempty
  segs_le := h.segs_le
  size_le := h.size_le
  owed := by
    intro remaining hr
    obtain ⟨phase, segs, opn⟩ := st
    cases phase with
    | header => cases hr
    | header2 hi => cases hr
    | payload owed =>
      cases hr
      obtain ⟨h0, h16, hsize⟩ := h.owed owed rfl
      have hmax : maxSize.val ≤ usizeMax := Nat.le_of_lt_succ maxSize.isLt
      rw [UInt16.toNat_ofNat_of_lt' h16]
      refine ⟨h0, hsize, fun n hn => Nat.min_eq_left ?_⟩
      have h2 : segs.flatten.length + owed ≤ maxSize.val := hsize
      show segs.flatten.length + n ≤ usizeMax
      omega
  defunct := fun h => absurd h (state_ne_defunct st.phase)

theorem deadDecoder_inv : (deadDecoder maxSize maxSegs : ChunkDecoder β).Inv where
  size_eq := rfl
  nonempty s hs := absurd hs List.not_mem_nil
  segs_le := Nat.zero_le _
  size_le := Nat.zero_le _
  owed remaining h := by cases h
  defunct _ := ⟨rfl, rfl⟩

/-- every reachable decoder is that of a deframer state within the limits, or dead -/
theorem feeds_reach {st : Deframe β} (hI : Deframe.Inv maxSize.val maxSegs.val st)
    (fs : List (List β)) :
    (∃ st', Deframe.Inv maxSize.val maxSegs.val st' ∧
      (feeds fs (decoderOf maxSize maxSegs st)).2 = decoderOf maxSize maxSegs st') ∨
    (feeds fs (decoderOf maxSize maxSegs st)).2 = deadDecoder maxSize maxSegs := by
  rcases feeds_cases maxSize maxSegs st fs with
    hc | ⟨done, data, todo, pre, x, post, e, rfl, hdata, hc, hx⟩
  · left
    rw [feeds_clean fs hI hc]
    exact ⟨_, hI.run hc, rfl⟩
  · right
    rw [feeds_bad hI done data todo hdata hc hx]

/-- every emitted message is built from segments within the limits -/
theorem feeds_emitted {st : Deframe β} (hI : Deframe.Inv maxSize.val maxSegs.val st)
    (fs : List (List β)) :
    ∀ messages, Res.ok messages ∈ (feeds fs (decoderOf maxSize maxSegs st)).1 → ∀ m ∈ messages,
      ∃ segs, Deframe.Within maxSize.val maxSegs.val segs ∧ m = MessageBuf.fromChunks segs := by
  have hbatch : ∀ bs : List (List β), (scanner maxSize maxSegs).Clean st (marks bs) →
      ∀ messages, Res.ok messages
        ∈ ((scanner maxSize maxSegs).batches st (bs.map mark)).map emitted → ∀ m ∈ messages,
      ∃ segs, Deframe.Within maxSize.val maxSegs.val segs ∧ m = MessageBuf.fromChunks segs := by
    intro bs hc messages hm m hmem
    obtain ⟨outs, houts, he⟩ := List.mem_map.mp hm
    cases he
    obtain ⟨segs, hsegs, rfl⟩ := List.mem_map.mp hmem
    have hflat : segs ∈ ((scanner maxSize maxSegs).run st (marks bs)).2 := by
      show segs ∈ ((scanner maxSize maxSegs).run st (bs.map mark).flatten).2
      rw [← Scanner.batches_flatten]
      exact List.mem_flatten.mpr ⟨outs, houts, hsegs⟩
    exact ⟨segs, hI.outputs hc segs hflat, rfl⟩
  intro messages hm m hmem
  rcases feeds_cases maxSize maxSegs st fs with
    hc | ⟨done, data, todo, pre, x, post, e, rfl, hdata, hc, hx⟩
  · rw [feeds_clean fs hI hc] at hm
    exact hbatch fs hc messages hm m hmem
  · rw [feeds_bad hI done data todo hdata hc hx] at hm
    rcases List.mem_append.mp hm with hm | hm
    · exact hbatch done ((Scanner.clean_append _ _ _ _).mp hc).1 messages hm m hmem
    · rcases List.mem_cons.mp hm with hm | hm
      · cases hm
      · obtain ⟨_, _, he⟩ := List.mem_map.mp hm
        cases he

theorem fromChunks_bounded {segs : List (List β)}
    (h : Deframe.Within maxSize.val maxSegs.val segs) :
    MessageBuf.fromChunks segs = ⟨segs, segs.flatten.length⟩ ∧
      (MessageBuf.fromChunks segs).Bounded maxSize maxSegs := by
  have hmax : segs.flatten.length ≤ usizeMax := h.size_le.trans (Nat.le_of_lt_succ maxSize.isLt)
  have e := MessageBuf.fromChunks_of_nonempty h.nonempty hmax
  rw [e]
  exact ⟨rfl, List.length_flatten, h.size_le, h.segs_le, h.nonempty⟩

/-- **The resource invariant**: after any feeds of any bytes the counters of the decoder are right
and within the limits it was built with, and so is every message it has emitted. -/
theorem feeds_inv (maxSize maxSegs : Usize) (fs : List (List β)) :
    (feeds fs (fresh maxSize maxSegs)).2.Inv ∧
    (feeds fs (fresh maxSize maxSegs)).2.maxMessageSize = maxSize ∧
    (feeds fs (fresh maxSize maxSegs)).2.maxSegmentsPerMessage = maxSegs ∧
    ∀ messages, Res.ok messages ∈ (feeds fs (fresh maxSize maxSegs)).1 →
      ∀ m ∈ messages, m.Bounded maxSize maxSegs := by
  rw [fresh_eq_decoderOf]
  have hemit : ∀ messages,
      Res.ok messages ∈ (feeds fs (decoderOf maxSize maxSegs (.start : Deframe β))).1 →
      ∀ m ∈ messages, m.Bounded maxSize maxSegs := by
    intro messages hm m hmem
    obtain ⟨segs, hw, rfl⟩ := feeds_emitted Deframe.Inv.start fs messages hm m hmem
    exact (fromChunks_bounded hw).2
  rcases feeds_reach Deframe.Inv.start fs with
    ⟨st, hst, hd⟩ | hd
  · rw [hd]
    exact ⟨decoderOf_inv hst, rfl, rfl, hemit⟩
  · rw [hd]
    exact ⟨deadDecoder_inv, rfl, rfl, hemit⟩

end ChunkDecoder
end Bolt
