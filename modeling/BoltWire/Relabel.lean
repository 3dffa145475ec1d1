import BoltWire.FirstError
import BoltWire.Lib.Along

/-!
# The decoder looks at headers only

It moves the bytes of a payload without looking at them.  So it does the same to bytes that carry
something else along, and what they carry comes out with them.

* `MessageBuf.map`, `ChunkDecoder.map`   the same buffer and decoder over other bytes;
* `Framed`           a byte that is read in a header keeps its value;
* `deframer_imageAlong`   the deframer on bytes of two kinds;
* `feeds_image`      calls on the images of a stream are the images of the calls;
* `feeds_map`        for bytes that all keep their value.
-/

set_option linter.unusedSectionVars false

namespace Bolt
open Rust Scanner

section
variable {β γ : Type} (f : β → γ)

theorem addByte_map (joins : Bool) (segs : List (List β)) (b : β) :
    addByte joins (segs.map (List.map f)) (f b) = (addByte joins segs b).map (List.map f) := by
  cases joins with
  | false => simp [addByte]
  | true =>
    by_cases h : segs = []
    · subst h
      rfl
    · obtain ⟨init, s, rfl⟩ := eq_concat h
      show appendLast ((init ++ [s]).map (List.map f)) (f b)
        = (appendLast (init ++ [s]) b).map (List.map f)
      rw [List.map_append, List.map_singleton, appendLast_concat, appendLast_concat]
      simp

def Deframe.map (st : Deframe β) : Deframe γ := ⟨st.phase, st.segs.map (List.map f), st.opn⟩

def MessageBuf.map (m : MessageBuf β) : MessageBuf γ := ⟨m.chunks.map (List.map f), m.remaining⟩

def ChunkDecoder.map (self : ChunkDecoder β) : ChunkDecoder γ where
  pending := self.pending.map (List.map f)
  pendingSize := self.pendingSize
  state := self.state
  maxMessageSize := self.maxMessageSize
  maxSegmentsPerMessage := self.maxSegmentsPerMessage

theorem flatten_length_map (segs : List (List β)) :
    (segs.map (List.map f)).flatten.length = segs.flatten.length := by
  rw [← List.map_flatten, List.length_map]

theorem MessageBuf.fromChunks_map (segs : List (List β)) :
    MessageBuf.fromChunks (segs.map (List.map f)) = (MessageBuf.fromChunks segs).map f := by
  have hchunks : (MessageBuf.fromChunks (segs.map (List.map f))).chunks
      = (MessageBuf.fromChunks segs).chunks.map (List.map f) := by
    rw [fromChunks_chunks, fromChunks_chunks, List.filter_map]
    congr 1
    refine List.filter_congr fun s _ => ?_
    cases s <;> rfl
  have hremaining : (MessageBuf.fromChunks (segs.map (List.map f))).remaining
      = (MessageBuf.fromChunks segs).remaining := by
    rw [fromChunks_remaining, fromChunks_remaining, flatten_length_map]
  unfold MessageBuf.map
  rw [← hchunks, ← hremaining]

theorem decoderOf_map (maxSize maxSegs : Usize) (st : Deframe β) :
    decoderOf maxSize maxSegs (st.map f) = (decoderOf maxSize maxSegs st).map f := by
  unfold decoderOf ChunkDecoder.map Deframe.total
  rw [← flatten_length_map f]
  rfl

theorem mark_map (data : List β) :
    mark (data.map f) = (mark data).map (Prod.map f id) := by
  cases data with
  | nil => rfl
  | cons b t =>
    show (f b, true) :: (t.map f).map _ = (f b, true) :: (t.map _).map _
    rw [List.map_map, List.map_map]
    rfl

theorem marks_map (fs : List (List β)) :
    marks (fs.map (List.map f)) = (marks fs).map (Prod.map f id) := by
  induction fs with
  | nil => rfl
  | cons data fs ih => rw [List.map_cons, marks_cons, mark_map, ih, marks_cons, List.map_append]

end

namespace ChunkDecoder
variable {β γ : Type}

/-- what the calls on a decoder gave, over other bytes -/
def imageOf (f : β → γ) (r : List (Res ChunkError (List (MessageBuf β))) × ChunkDecoder β) :
    List (Res ChunkError (List (MessageBuf γ))) × ChunkDecoder γ :=
  (r.1.map (Res.map (List.map (MessageBuf.map f))), r.2.map f)

end ChunkDecoder

section
variable {β γ : Type} [Octet β] [Octet γ] (f : β → γ)

/-- a byte that is read in a header keeps its value -/
def Framed (st : Deframe β) (x : β × Bool) : Prop :=
  (∀ owed, st.phase ≠ .payload owed) → Octet.val (f x.1) = Octet.val x.1

/-- **The deframer does not look at payload.** -/
theorem deframer_imageAlong (maxSize maxSegs : Nat) :
    ImageAlong (deframer maxSize maxSegs : Scanner (Deframe β) _ _ _)
      (deframer maxSize maxSegs : Scanner (Deframe γ) _ _ _)
      (Framed f) (Deframe.map f) (Prod.map f id) (List.map (List.map f)) where
  next := by
    rintro ⟨phase, segs, opn⟩ ⟨b, first⟩ hx
    cases phase with
    | header =>
      have hb : Octet.val (f b) = Octet.val b := hx nofun
      show ((⟨.header2 (Octet.val (f b)), _, opn⟩ : Deframe γ), _) = _
      rw [hb]
      rfl
    | header2 hi =>
      have hb : Octet.val (f b) = Octet.val b := hx nofun
      show Deframe.next ⟨.header2 hi, segs.map (List.map f), opn⟩ (f b, first)
        = ((Deframe.next ⟨.header2 hi, segs, opn⟩ (b, first)).1.map f,
          (Deframe.next ⟨.header2 hi, segs, opn⟩ (b, first)).2.map (List.map (List.map f)))
      by_cases h0 : headerSize hi (Octet.val b) = 0
      · have h0' : headerSize hi (Octet.val (f b, first).1) = 0 := (congrArg _ hb).trans h0
        have e : Deframe.next ⟨.header2 hi, segs, opn⟩ (b, first) = (.start, some segs) :=
          Deframe.next_end h0 segs opn
        rw [e, Deframe.next_end h0']
        rfl
      · have h0' : headerSize hi (Octet.val (f b, first).1) ≠ 0 := fun e =>
          h0 ((congrArg _ hb).symm.trans e)
        have e : Deframe.next ⟨.header2 hi, segs, opn⟩ (b, first)
            = (⟨.payload (headerSize hi (Octet.val b)), segs, false⟩, none) :=
          Deframe.next_chunk h0 segs opn
        rw [e, Deframe.next_chunk h0', hb]
        rfl
    | payload owed =>
      show ((Deframe.owing (owed - 1) (addByte (opn && !first) (segs.map (List.map f)) (f b))), _)
        = ((Deframe.owing (owed - 1) (addByte (opn && !first) segs b)).map f, _)
      rw [addByte_map]
      unfold Deframe.owing
      split <;> rfl
  bad := by
    rintro ⟨phase, segs, opn⟩ ⟨b, first⟩ hx
    show Deframe.bad maxSize maxSegs ⟨phase, segs.map (List.map f), opn⟩ (f b, first)
      = Deframe.bad maxSize maxSegs ⟨phase, segs, opn⟩ (b, first)
    cases phase with
    | header => rfl
    | header2 hi =>
      have hb : Octet.val (f b) = Octet.val b := hx nofun
      simp only [Deframe.bad, Deframe.total, flatten_length_map, hb]
      congr
    | payload owed => simp only [Deframe.bad, List.length_map]

namespace ChunkDecoder
variable {maxSize maxSegs : Usize}

theorem emitted_image (bs : List (List (List (List β)))) :
    (bs.map fun outs => outs.map (List.map (List.map f))).map emitted
      = (bs.map emitted).map (Res.map (List.map (MessageBuf.map f))) := by
  rw [List.map_map, List.map_map]
  refine List.map_congr_left fun outs _ => congrArg Res.ok ?_
  show (outs.map _).map MessageBuf.fromChunks = (outs.map MessageBuf.fromChunks).map _
  rw [List.map_map, List.map_map]
  exact List.map_congr_left fun segs _ => MessageBuf.fromChunks_map f segs

theorem marked_map (fs : List (List β)) : (fs.map (List.map f)).map mark
    = (fs.map mark).map fun b => b.map (Prod.map f id) := by
  rw [List.map_map, List.map_map]
  exact List.map_congr_left fun data _ => mark_map f data

/-- **A change of payload bytes goes through the decoder**, whether it fails or not. -/
theorem feeds_image {fs : List (List β)}
    (hx : (scanner maxSize maxSegs).Along (Framed f) .start (marks fs)) :
    feeds (fs.map (List.map f)) (fresh maxSize maxSegs)
      = imageOf f (feeds fs (fresh maxSize maxSegs)) := by
  have himg := deframer_imageAlong f maxSize.val maxSegs.val
  rw [fresh_eq_decoderOf, fresh_eq_decoderOf]
  rcases feeds_cases maxSize maxSegs .start fs with
    hc | ⟨done, data, todo, pre, x, post, e, rfl, hdata, hc, hbad⟩
  · have hclean : (scanner maxSize maxSegs).Clean (Deframe.start.map f) (marks (fs.map (List.map f))) := by
      rw [marks_map]
      exact (himg.clean hx).mpr hc
    rw [feeds_clean fs Deframe.Inv.start hc, feeds_clean _ Deframe.Inv.start hclean, imageOf]
    refine Prod.ext ?_ ?_
    · rw [marked_map, ← emitted_image]
      exact congrArg (List.map emitted) (himg.batches hx)
    · rw [marks_map, ← decoderOf_map]
      exact congrArg (decoderOf maxSize maxSegs) (congrArg Prod.fst (himg.run hx))
  · rw [marks_append, marks_cons, hdata, List.append_assoc, ← List.append_assoc, List.cons_append,
      along_append] at hx
    obtain ⟨hpre, hx, -⟩ := hx
    have hdone := (along_append.mp hpre).1
    have hdata' : mark (data.map f)
        = pre.map (Prod.map f id) ++ Prod.map f id x :: post.map (Prod.map f id) := by
      rw [mark_map, hdata, List.map_append, List.map_cons]
    have hmarks : marks (done.map (List.map f)) ++ pre.map (Prod.map f id)
        = (marks done ++ pre).map (Prod.map f id) := by rw [marks_map, List.map_append]
    have hclean : (scanner maxSize maxSegs).Clean (Deframe.start.map f)
        (marks (done.map (List.map f)) ++ pre.map (Prod.map f id)) := by
      rw [hmarks]
      exact (himg.clean hpre).mpr hc
    have hbad' : (scanner maxSize maxSegs).bad ((scanner maxSize maxSegs).run (Deframe.start.map f)
        (marks (done.map (List.map f)) ++ pre.map (Prod.map f id))).1 (Prod.map f id x) = some e := by
      rw [hmarks, himg.run hpre]
      exact (himg.bad _ x hx).trans hbad
    rw [List.map_append, List.map_cons, feeds_bad Deframe.Inv.start done data todo hdata hc hbad,
      feeds_bad Deframe.Inv.start _ _ _ hdata' hclean hbad', imageOf]
    have hemit := congrArg (List.map emitted) (himg.batches hdone)
    have htodo : (todo.map (List.map f)).map (fun _ => Res.err .defunct)
        = (todo.map fun _ => (Res.err .defunct : Res ChunkError (List (MessageBuf β)))).map
          (Res.map (List.map (MessageBuf.map f))) := by
      rw [List.map_map, List.map_map]
      rfl
    refine Prod.ext ?_ rfl
    rw [List.map_append, List.map_cons, ← emitted_image, marked_map, htodo]
    exact congrArg (· ++ _) hemit

/-- results that are a value in the image are a value before -/
theorem ok_of_map {α γ ε : Type} {g : α → γ} {rs : List (Res ε α)} : ∀ {outs : List γ},
    rs.map (Res.map g) = outs.map Res.ok →
    ∃ outs' : List α, rs = outs'.map Res.ok ∧ outs = outs'.map g := by
  induction rs with
  | nil =>
    intro outs h
    obtain rfl := List.map_eq_nil_iff.mp h.symm
    exact ⟨[], rfl, rfl⟩
  | cons r rs ih =>
    intro outs h
    cases outs with
    | nil => cases h
    | cons out outs =>
      obtain ⟨hr, hrest⟩ := List.cons.inj h
      obtain ⟨outs', rfl, rfl⟩ := ih hrest
      cases r with
      | ok a => exact ⟨a :: outs', rfl, congrArg (· :: _) (Res.ok.inj hr).symm⟩
      | err e => cases hr
      | panic => cases hr
      | spin => cases hr

/-- calls without an error on the images come from calls on the bytes themselves -/
theorem feeds_map (hf : ∀ b, Octet.val (f b) = Octet.val b) {fs : List (List β)}
    {outs : List (List (MessageBuf γ))} {self : ChunkDecoder γ}
    (h : feeds (fs.map (List.map f)) (fresh maxSize maxSegs) = (outs.map Res.ok, self)) :
    ∃ (outs' : List (List (MessageBuf β))) (self' : ChunkDecoder β),
      feeds fs (fresh maxSize maxSegs) = (outs'.map Res.ok, self') ∧
      outs = outs'.map (List.map (MessageBuf.map f)) ∧ self = self'.map f := by
  have hframed : ∀ (st : Deframe β) (x : β × Bool), Framed f st x := fun _ x _ => hf x.1
  rw [feeds_image f (along_of_forall hframed _ _)] at h
  obtain ⟨hres, rfl⟩ := Prod.mk.inj h
  obtain ⟨outs', hok, houts⟩ := ok_of_map hres
  exact ⟨outs', _, Prod.ext hok rfl, houts, rfl⟩

end ChunkDecoder
end
end Bolt
