import BoltWire.Layout
import BoltWire.Relabel
import BoltWire.Lib.Provenance

/-!
# Where every byte of the stream goes

A `Bytes` of the decoder is a range of the feed that supplied it.  Here the bytes of the feeds carry
their feed and their place in it (`label`); the decoder does not see the labels, and they come out
with the bytes.

* `marks_label`      a byte begins a feed exactly at place zero;
* `pieces_cuts`      the segments of a chunk cut its payload into slices of the feeds;
* `Tiled`            what is where: headers and segments tile the stream, and every segment is the
                     whole share that its chunk has of one feed;
* `feeds_tiled`      calls without an error tile their stream.
-/

set_option linter.unusedSectionVars false

namespace Bolt
open Rust Provenance

section
variable {β : Type}

instance [Octet β] : Octet (Cell β) where
  val c := Octet.val c.val

/-- a byte with the mark that its place says -/
def stamp (c : Cell β) : Cell β × Bool := (c, decide (c.pos = 0))

theorem stamp_fst (q : List (Cell β)) : (q.map stamp).map Prod.fst = q := by
  rw [List.map_map]
  exact List.map_id q

theorem stamp_tag (l : List β) : ∀ src pos : Nat,
    (tag src (pos + 1) l).map stamp = (tag src (pos + 1) l).map fun c => (c, false) := by
  induction l with
  | nil => intro src pos; rfl
  | cons b l ih =>
    intro src pos
    rw [tag_cons, List.map_cons, ih, List.map_cons]
    rfl

theorem mark_tag (src : Nat) (data : List β) : mark (tag src 0 data) = (tag src 0 data).map stamp := by
  cases data with
  | nil => rfl
  | cons b t =>
    show ((⟨b, src, 0⟩ : Cell β), true) :: (tag src (0 + 1) t).map _ = _
    rw [← stamp_tag]
    rfl

theorem marks_labelFrom (fs : List (List β)) : ∀ src : Nat,
    marks (labelFrom src fs) = (labelFrom src fs).flatten.map stamp := by
  induction fs with
  | nil => intro src; rfl
  | cons data fs ih =>
    intro src
    show mark (tag src 0 data) ++ marks (labelFrom (src + 1) fs)
      = (tag src 0 data ++ (labelFrom (src + 1) fs).flatten).map stamp
    rw [mark_tag, ih, List.map_append]

theorem marks_label (fs : List (List β)) : marks (label fs) = (label fs).flatten.map stamp :=
  marks_labelFrom fs 0

/-! ## segments are slices -/

/-- **The segments of a chunk** cut its payload into slices of the feeds. -/
theorem pieces_cuts {fs : List (List β)} {q : List (Cell β)} (h : q <:+: (label fs).flatten) :
    Cuts fs q (pieces (q.map stamp)) := by
  induction q using List.reverseRecOn with
  | nil => exact .nil
  | append_singleton q c ih =>
    have hcuts := ih ((List.prefix_append q [c]).isInfix.trans h)
    have hchain : (q ++ [c]).IsChain Next := chain_of_stretch h
    have hc : c ∈ (label fs).flatten := h.subset (List.mem_append_right q List.mem_cons_self)
    have hsnoc : pieces ((q ++ [c]).map stamp)
        = addByte (!(q.map stamp).isEmpty && !decide (c.pos = 0)) (pieces (q.map stamp)) c := by
      rw [List.map_append, List.map_singleton]
      exact pieces_snoc (q.map stamp) (stamp c)
    rw [hsnoc]
    by_cases hq : q = []
    · subst hq
      exact hcuts.start hc fun a ha => by cases ha
    · have hne : (q.map stamp) ≠ [] := fun e => hq (List.map_eq_nil_iff.mp e)
      by_cases hpos : c.pos = 0
      · rw [decide_eq_true hpos, Bool.not_true, Bool.and_false]
        exact hcuts.start hc (src_lt_of_first hchain hpos)
      · obtain ⟨pre, s, hpre⟩ := eq_concat (pieces_ne_nil hne)
        have hj : (!(q.map stamp).isEmpty && !decide (c.pos = 0)) = true := by
          rw [decide_eq_false hpos, List.isEmpty_eq_false_iff.mpr hne]
          rfl
        rw [hj, hpre]
        show Cuts fs (q ++ [c]) (appendLast (pre ++ [s]) c)
        rw [appendLast_concat]
        rw [hpre] at hcuts
        exact hcuts.join hchain hc hpos

end

/-- Where the bytes of the feeds `fs` are once the `messages` are given away and `self` holds the
rest: `L` is the layout of their stream. -/
structure Tiled (fs : List Bytes) (messages : List (MessageBuf (Cell UInt8)))
    (self : ChunkDecoder (Cell UInt8)) (L : Layout (Cell UInt8)) : Prop where
  -- headers, end markers and segments are the stream, in order
  tiles : L.tiles.flatten = (label fs).flatten
  -- the segments of the layout are those of the decoder
  emitted : messages.map MessageBuf.chunks = L.emitted
  pending : self.pending = L.pending
  state : self.state = L.tail.phase.state
  -- no byte is there twice, so it is in one tile and in no other payload
  once : (label fs).flatten.Nodup
  apart : (L.payloads.flatten.map Prod.fst).Nodup
  inside : ∀ s, (∃ m ∈ messages, s ∈ m.chunks) ∨ s ∈ self.pending → ∃ p ∈ L.payloads, s ∈ pieces p
  -- a segment is a range of one feed, and all that its chunk has of this feed
  share : ∀ p ∈ L.payloads, ∀ s ∈ pieces p, ∃ r : Slice fs, s = r.cells ∧
    s = (p.map Prod.fst).filter fun c : Cell UInt8 => c.src = r.src

namespace ChunkDecoder
variable {maxSize maxSegs : Usize}

theorem layout_share (fs : List Bytes) {p : List (Cell UInt8 × Bool)}
    (h : p ∈ (layout (marks (label fs))).payloads) :
    ∀ s ∈ pieces p, ∃ r : Slice fs, s = r.cells ∧
      s = (p.map Prod.fst).filter fun c : Cell UInt8 => c.src = r.src := by
  have hin := Layout.payload_stretch h
  rw [layout_symbols, marks_label] at hin
  obtain ⟨l, r, hlr⟩ := hin
  obtain ⟨lq, r, hsplit, hlq, rfl⟩ := List.map_eq_append_iff.mp hlr.symm
  obtain ⟨l, q, rfl, rfl, rfl⟩ := List.map_eq_append_iff.mp hlq
  have hcuts : Cuts fs q (pieces (q.map stamp)) := pieces_cuts ⟨l, r, hsplit.symm⟩
  intro s hs
  rw [stamp_fst]
  exact hcuts.share hs

/-- a decoder that gives away and holds what the layout of its stream says -/
theorem layout_tiled (fs : List Bytes) {messages : List (MessageBuf (Cell UInt8))}
    {self : ChunkDecoder (Cell UInt8)}
    (hemitted : messages.map MessageBuf.chunks = (layout (marks (label fs))).emitted)
    (hpending : self.pending = (layout (marks (label fs))).pending)
    (hstate : self.state = (layout (marks (label fs))).tail.phase.state) :
    Tiled fs messages self (layout (marks (label fs))) where
  tiles := by rw [Layout.tiles_flatten, layout_symbols, marks_fst]
  emitted := hemitted
  pending := hpending
  state := hstate
  once := label_nodup fs
  apart := by
    have hsub := (layout (marks (label fs))).payloads_sublist.map Prod.fst
    rw [layout_symbols, marks_fst] at hsub
    exact hsub.nodup (label_nodup fs)
  inside s hs := by
    refine Layout.mem_segs ?_
    rw [← hemitted, ← hpending]
    rcases hs with ⟨m, hm, hs⟩ | hs
    · exact .inl ⟨m.chunks, List.mem_map.mpr ⟨m, hm, rfl⟩, hs⟩
    · exact .inr hs
  share p hp := layout_share fs hp

/-- **Every byte goes to one place.**  Whatever the feeds are, when none of them fails the decoder
does the same to their labelled bytes, and these are tiled by the headers and the segments: no byte
is lost, given away twice, moved or spliced to one of another feed or chunk. -/
theorem feeds_tiled (maxSize maxSegs : Usize) (fs : List Bytes)
    (outs : List (List (MessageBuf UInt8))) (self : ChunkDecoder UInt8)
    (h : feeds fs (fresh maxSize maxSegs) = (outs.map Res.ok, self)) :
    ∃ (outs' : List (List (MessageBuf (Cell UInt8)))) (self' : ChunkDecoder (Cell UInt8)),
      feeds (label fs) (fresh maxSize maxSegs) = (outs'.map Res.ok, self') ∧
      outs = outs'.map (List.map (MessageBuf.map Cell.val)) ∧ self = self'.map Cell.val ∧
      Tiled fs outs'.flatten self' (layout (marks (label fs))) := by
  have hval : (label fs).map (List.map Cell.val) = fs := label_val fs
  have hoctet : ∀ c : Cell UInt8, Octet.val (Cell.val c) = Octet.val c := fun _ => rfl
  rw [← hval] at h
  obtain ⟨outs', self', hlabel, rfl, rfl⟩ := feeds_map Cell.val hoctet h
  have hclean := (allOk_iff (label fs)).mp ⟨outs', congrArg Prod.fst hlabel⟩
  have hrun := feeds_clean (label fs) Deframe.Inv.start hclean
  have hwithin := Deframe.Inv.start.outputs hclean
  have hlayout : (scanner maxSize maxSegs).run .start (marks (label fs)) = _ :=
    layout_run maxSize.val maxSegs.val (marks (label fs))
  rw [← fresh_eq_decoderOf, hlabel, map_emitted, hlayout] at hrun
  rw [hlayout] at hwithin
  obtain ⟨hres, rfl⟩ := Prod.mk.inj hrun
  obtain rfl := List.map_injective_iff.mpr (fun _ _ e => Res.ok.inj e) hres
  refine ⟨_, _, hlabel, rfl, rfl, layout_tiled fs ?_ rfl rfl⟩
  have hbatches : ((scanner maxSize maxSegs).batches .start ((label fs).map mark)).flatten
      = (layout (marks (label fs))).emitted := by
    rw [Scanner.batches_flatten]
    exact congrArg Prod.snd hlayout
  rw [← List.map_flatten, hbatches, List.map_map]
  refine (List.map_congr_left fun o ho => ?_).trans (List.map_id _)
  exact MessageBuf.fromChunks_chunks_of_nonempty (hwithin o ho).nonempty

/-- a payload from three feeds and a header in two, with a chunk begun after the end marker -/
theorem feeds_tiled_six :
    ∃ (outs' : List (List (MessageBuf (Cell UInt8)))) (self' : ChunkDecoder (Cell UInt8)),
      feeds (label [[0, 3, 7], [8], [], [9, 0], [1, 5, 0], [0, 0, 2, 6]]) (fresh 16 4)
        = (outs'.map Res.ok, self') ∧
      [[], [], [], [], [], [⟨[[7], [8], [9], [5]], 4⟩]]
        = outs'.map (List.map (MessageBuf.map Cell.val)) ∧
      decoderOf 16 4 ⟨.payload 1, [[6]], true⟩ = self'.map Cell.val ∧
      Tiled [[0, 3, 7], [8], [], [9, 0], [1, 5, 0], [0, 0, 2, 6]] outs'.flatten self'
        (layout (marks (label [[0, 3, 7], [8], [], [9, 0], [1, 5, 0], [0, 0, 2, 6]]))) :=
  feeds_tiled 16 4 _ _ _ (by decide)

end ChunkDecoder
end Bolt
