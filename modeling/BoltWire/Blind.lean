import BoltWire.Relabel
import BoltWire.Grammar

/-!
# The decoder is blind to payload

What is done with a stream depends on its headers alone, errors included.

* `Change`           a byte and what stands in its place in another stream;
* `along_wire`       streams of messages of one shape have the same headers;
* `feeds_blind`      nothing but payload bytes differs between their runs.
-/

set_option linter.unusedSectionVars false

namespace Bolt
open Rust Scanner

namespace ChunkDecoder
variable {β γ δ : Type}

theorem imageOf_comp (f : β → γ) (g : γ → δ)
    (r : List (Res ChunkError (List (MessageBuf β))) × ChunkDecoder β) :
    imageOf g (imageOf f r) = imageOf (g ∘ f) r := by
  have hmap : ∀ segs : List (List β), (segs.map (List.map f)).map (List.map g)
      = segs.map (List.map (g ∘ f)) := fun segs => by
    rw [List.map_map]
    exact List.map_congr_left fun s _ => List.map_map
  have hbuf : ∀ m : MessageBuf β, (m.map f).map g = m.map (g ∘ f) := fun m =>
    congrArg (MessageBuf.mk · m.remaining) (hmap m.chunks)
  refine Prod.ext ?_ ?_
  · show (r.1.map _).map _ = r.1.map _
    rw [List.map_map]
    refine List.map_congr_left fun res _ => ?_
    cases res with
    | ok messages =>
      refine congrArg Res.ok ?_
      rw [List.map_map]
      exact List.map_congr_left fun m _ => hbuf m
    | err e => rfl
    | panic => rfl
    | spin => rfl
  · show (r.2.map f).map g = r.2.map (g ∘ f)
    unfold ChunkDecoder.map
    rw [hmap]

end ChunkDecoder

/-! ## two streams -/

/-- a byte of a stream, and the byte that another stream has in its place -/
structure Change where
  before : UInt8
  after : UInt8
  deriving DecidableEq, Repr

instance : Octet Change where
  val c := c.before

/-- the sizes of the chunks of a message -/
def Message.shape (m : Message) : List Nat := m.map fun c => c.payload.length

theorem Message.frame_length_of_shape : ∀ {m m' : Message}, m.shape = m'.shape →
    m.frame.length = m'.frame.length := by
  intro m
  induction m with
  | nil =>
    intro m' h
    obtain rfl : m' = [] := List.map_eq_nil_iff.mp h.symm
    rfl
  | cons c m ih =>
    intro m' h
    cases m' with
    | nil => cases h
    | cons c' m' =>
      obtain ⟨hc, h⟩ := List.cons.inj h
      have hc : c.payload.length = c'.payload.length := hc
      rw [frame_length_cons, frame_length_cons, hc, ih h]

theorem Message.wire_length_of_shape : ∀ {msgs msgs' : List Message},
    msgs.map shape = msgs'.map shape → (wire msgs).length = (wire msgs').length := by
  intro msgs
  induction msgs with
  | nil =>
    intro msgs' h
    obtain rfl : msgs' = [] := List.map_eq_nil_iff.mp h.symm
    rfl
  | cons m msgs ih =>
    intro msgs' h
    cases msgs' with
    | nil => cases h
    | cons m' msgs' =>
      obtain ⟨hm, h⟩ := List.cons.inj h
      rw [wire_cons, wire_cons, List.length_append, List.length_append, frame_length_of_shape hm, ih h]

namespace Deframe
variable {maxSize maxSegs : Nat}

/-- payload bytes are not looked at -/
theorem along_payload {owed : Nat} {zs : List (Change × Bool)} (h : zs.length ≤ owed)
    (segs : List (List Change)) (opn : Bool) :
    (deframer maxSize maxSegs).Along (Framed Change.after) ⟨.payload owed, segs, opn⟩ zs := by
  induction zs generalizing owed segs opn with
  | nil => trivial
  | cons z zs ih =>
    refine ⟨fun hp => absurd rfl (hp owed), ?_⟩
    show (deframer maxSize maxSegs).Along _ (owing (owed - 1) (addByte (opn && !z.2) segs z.1)) zs
    rw [List.length_cons] at h
    by_cases h1 : owed - 1 = 0
    · obtain rfl : zs = [] := List.length_eq_zero_iff.mp (by omega)
      trivial
    · unfold owing
      rw [if_neg h1]
      exact ih (by omega) _ _

/-- two bytes of a header, the same in both streams -/
theorem along_header {x y : Change × Bool} (hx : x.1.after = x.1.before)
    (hy : y.1.after = y.1.before) (segs : List (List Change)) (opn : Bool) :
    (deframer maxSize maxSegs).Along (Framed Change.after) ⟨.header, segs, opn⟩ [x, y] :=
  ⟨fun _ => hx, fun _ => hy, trivial⟩

theorem along_chunk {c c' : Chunk} (hc : c.payload.length = c'.payload.length)
    {zs : List (Change × Bool)} (h : zs.map (fun z => z.1.before) = c.encode)
    (h' : zs.map (fun z => z.1.after) = c'.encode) (segs : List (List Change)) (opn : Bool) :
    (deframer maxSize maxSegs).Along (Framed Change.after) ⟨.header, segs, opn⟩ zs ∧
      ∃ segs', (deframer maxSize maxSegs).run ⟨.header, segs, opn⟩ zs = (⟨.header, segs', false⟩, []) := by
  obtain ⟨x, zs, rfl, hx, h⟩ := List.map_eq_cons_iff.mp h
  obtain ⟨y, body, rfl, hy, h⟩ := List.map_eq_cons_iff.mp h
  obtain ⟨hx', h'⟩ := List.cons.inj h'
  obtain ⟨hy', -⟩ := List.cons.inj h'
  have hhi : c.hi = c'.hi := by rw [Chunk.hi, Chunk.hi, hc]
  have hlo : c.lo = c'.lo := by rw [Chunk.lo, Chunk.lo, hc]
  have hlen : body.length = c.payload.length := by rw [← h, List.length_map]
  have hsize : headerSize (Octet.val x.1) (Octet.val y.1) = c.payload.length := by
    rw [← c.headerSize, ← hx, ← hy]
    rfl
  have hpos : headerSize (Octet.val x.1) (Octet.val y.1) ≠ 0 := by
    rw [hsize]
    exact Nat.ne_of_gt c.pos
  have hne : body ≠ [] := by
    rintro rfl
    exact Nat.ne_of_gt c.pos hlen.symm
  have hnext : (deframer maxSize maxSegs).next ⟨.header2 (Octet.val x.1), segs, opn⟩ y
      = (⟨.payload c.payload.length, segs, false⟩, none) := by
    rw [← hsize]
    exact next_chunk hpos segs opn
  have hrun : (deframer maxSize maxSegs).run ⟨.header, segs, opn⟩ [x, y]
      = (⟨.payload c.payload.length, segs, false⟩, []) := by
    show ((deframer maxSize maxSegs).run (Deframe.mk (.header2 (Octet.val x.1)) segs opn) [y]) = _
    rw [Scanner.run_cons, hnext]
    rfl
  have hbody := run_pieces maxSize maxSegs (Nat.le_of_eq hlen) hne segs
  rw [hlen, Nat.sub_self] at hbody
  have e : x :: y :: body = [x, y] ++ body := rfl
  constructor
  · rw [e, along_append, hrun]
    exact ⟨along_header (hx'.trans (hhi.symm.trans hx.symm)) (hy'.trans (hlo.symm.trans hy.symm)) segs opn,
      along_payload (Nat.le_of_eq hlen) segs false⟩
  · refine ⟨segs ++ pieces body, ?_⟩
    rw [e, Scanner.run_append, hrun, hbody]
    rfl

/-- messages of one shape have the same headers -/
theorem along_frame : ∀ {m m' : Message}, m.shape = m'.shape → ∀ {zs : List (Change × Bool)},
    zs.map (fun z => z.1.before) = m.frame → zs.map (fun z => z.1.after) = m'.frame →
    ∀ segs, (deframer maxSize maxSegs).Along (Framed Change.after) ⟨.header, segs, false⟩ zs ∧
      ((deframer maxSize maxSegs).run ⟨.header, segs, false⟩ zs).1 = start := by
  intro m
  induction m with
  | nil =>
    intro m' hshape zs h h' segs
    obtain rfl : m' = [] := List.map_eq_nil_iff.mp hshape.symm
    obtain ⟨x, zs, rfl, hx, h⟩ := List.map_eq_cons_iff.mp h
    obtain ⟨y, zs, rfl, hy, h⟩ := List.map_eq_cons_iff.mp h
    obtain rfl := List.map_eq_nil_iff.mp h
    obtain ⟨hx', h'⟩ := List.cons.inj h'
    obtain ⟨hy', -⟩ := List.cons.inj h'
    refine ⟨along_header (hx'.trans hx.symm) (hy'.trans hy.symm) segs false, ?_⟩
    have hsize : headerSize (Octet.val x.1) (Octet.val y.1) = 0 := by
      show headerSize x.1.before y.1.before = 0
      rw [hx, hy]
      rfl
    show ((deframer maxSize maxSegs).next (Deframe.mk (.header2 (Octet.val x.1)) segs false) y).1 = start
    exact congrArg Prod.fst (next_end hsize segs false)
  | cons c m ih =>
    intro m' hshape zs h h' segs
    cases m' with
    | nil => cases hshape
    | cons c' m' =>
      obtain ⟨hc, hshape⟩ := List.cons.inj hshape
      have hc : c.payload.length = c'.payload.length := hc
      have h : zs.map _ = c.encode ++ Message.frame m := h.trans (Message.frame_cons c m)
      have h' : zs.map _ = c'.encode ++ Message.frame m' := h'.trans (Message.frame_cons c' m')
      obtain ⟨zs, rest, rfl, hzs, hrest⟩ := List.map_eq_append_iff.mp h
      rw [List.map_append] at h'
      have hlen : (zs.map fun z => z.1.after).length = c'.encode.length := by
        rw [List.length_map, c'.encode_length, ← hc, ← c.encode_length, ← hzs, List.length_map]
      obtain ⟨hzs', hrest'⟩ := List.append_inj h' hlen
      obtain ⟨hchunk, segs', hrun⟩ := along_chunk hc hzs hzs' segs false
      obtain ⟨hframe, hend⟩ := ih hshape hrest hrest' segs'
      rw [along_append, Scanner.run_append, hrun]
      exact ⟨⟨hchunk, hframe⟩, hend⟩

theorem along_wire : ∀ {msgs msgs' : List Message},
    msgs.map Message.shape = msgs'.map Message.shape → ∀ {zs : List (Change × Bool)},
    zs.map (fun z => z.1.before) = wire msgs → zs.map (fun z => z.1.after) = wire msgs' →
    (deframer maxSize maxSegs).Along (Framed Change.after) start zs := by
  intro msgs
  induction msgs with
  | nil =>
    intro msgs' _ zs h _
    obtain rfl := List.map_eq_nil_iff.mp h
    trivial
  | cons m msgs ih =>
    intro msgs' hshape zs h h'
    cases msgs' with
    | nil => cases hshape
    | cons m' msgs' =>
      obtain ⟨hm, hshape⟩ := List.cons.inj hshape
      rw [wire_cons] at h h'
      obtain ⟨zs, rest, rfl, hzs, hrest⟩ := List.map_eq_append_iff.mp h
      rw [List.map_append] at h'
      have hlen : (zs.map fun z => z.1.after).length = m'.frame.length := by
        rw [List.length_map, ← Message.frame_length_of_shape hm, ← hzs, List.length_map]
      obtain ⟨hzs', hrest'⟩ := List.append_inj h' hlen
      obtain ⟨hframe, hend⟩ := along_frame hm hzs hzs' []
      rw [along_append]
      refine ⟨hframe, ?_⟩
      have hrest := ih hshape hrest hrest'
      rwa [← hend] at hrest

end Deframe

theorem exists_change {as : Bytes} : ∀ {bs : Bytes}, as.length = bs.length →
    ∃ cs : List Change, cs.map Change.before = as ∧ cs.map Change.after = bs := by
  induction as with
  | nil =>
    intro bs h
    obtain rfl := List.length_eq_zero_iff.mp h.symm
    exact ⟨[], rfl, rfl⟩
  | cons a as ih =>
    intro bs h
    cases bs with
    | nil => cases h
    | cons b bs =>
      obtain ⟨cs, rfl, rfl⟩ := ih (Nat.succ.inj h)
      exact ⟨⟨a, b⟩ :: cs, rfl, rfl⟩

/-- two sequences of feeds of the same lengths are one of changes -/
theorem exists_changes {fs : List Bytes} : ∀ {fs' : List Bytes},
    fs.map List.length = fs'.map List.length →
    ∃ cs : List (List Change), cs.map (List.map Change.before) = fs ∧
      cs.map (List.map Change.after) = fs' := by
  induction fs with
  | nil =>
    intro fs' h
    obtain rfl := List.map_eq_nil_iff.mp h.symm
    exact ⟨[], rfl, rfl⟩
  | cons data fs ih =>
    intro fs' h
    cases fs' with
    | nil => cases h
    | cons data' fs' =>
      obtain ⟨hdata, hrest⟩ := List.cons.inj h
      obtain ⟨cs, rfl, rfl⟩ := ih hrest
      obtain ⟨c, rfl, rfl⟩ := exists_change hdata
      exact ⟨c :: cs, rfl, rfl⟩

namespace ChunkDecoder
variable {maxSize maxSegs : Usize}

theorem marks_values (g : Change → UInt8) (cs : List (List Change)) :
    (marks cs).map (fun z => g z.1) = (cs.map (List.map g)).flatten := by
  rw [← List.map_flatten, ← marks_fst, List.map_map]
  rfl

/-- the headers are the same as far as the streams go, for the messages are of the same shapes -/
theorem along_changes {cs : List (List Change)} {msgs msgs' : List Message}
    (hshape : msgs.map Message.shape = msgs'.map Message.shape)
    (h : (cs.map (List.map Change.before)).flatten <+: wire msgs)
    (h' : (cs.map (List.map Change.after)).flatten <+: wire msgs') :
    (scanner maxSize maxSegs).Along (Framed Change.after) .start (marks cs) := by
  obtain ⟨rest, hrest⟩ := h
  obtain ⟨rest', hrest'⟩ := h'
  have hlen := Message.wire_length_of_shape hshape
  rw [← hrest, ← hrest', List.length_append, List.length_append, ← List.map_flatten,
    ← List.map_flatten, List.length_map, List.length_map] at hlen
  obtain ⟨tail, rfl, rfl⟩ := exists_change (Nat.add_left_cancel hlen)
  -- the rest of the messages, in feeds to come
  have hall : (scanner maxSize maxSegs).Along (Framed Change.after) .start
      (marks cs ++ tail.map fun c => (c, false)) := by
    refine Deframe.along_wire hshape ?_ ?_
    · rw [List.map_append, marks_values, List.map_map, ← hrest]
      rfl
    · rw [List.map_append, marks_values, List.map_map, ← hrest']
      rfl
  exact (along_append.mp hall).1

/-- **The decoder is blind to payload.**  Two streams of messages with the same chunk sizes, each
broken off somewhere, come in feeds of the same lengths.  Whatever the payload bytes are, the calls
fail at the same place with the same error or emit messages of the same shape, and the decoders end
in the same state, up to the payload bytes that they hold. -/
theorem feeds_blind (maxSize maxSegs : Usize) (msgs msgs' : List Message) (fs fs' : List Bytes)
    (hshape : msgs.map Message.shape = msgs'.map Message.shape)
    (hlen : fs.map List.length = fs'.map List.length)
    (h : fs.flatten <+: wire msgs) (h' : fs'.flatten <+: wire msgs') :
    imageOf (fun _ => ()) (feeds fs (fresh maxSize maxSegs))
      = imageOf (fun _ => ()) (feeds fs' (fresh maxSize maxSegs)) := by
  obtain ⟨cs, rfl, rfl⟩ := exists_changes hlen
  have hbefore : (scanner maxSize maxSegs).Along (Framed Change.before) .start (marks cs) :=
    along_of_forall (fun _ _ _ => rfl) _ _
  rw [feeds_image Change.before hbefore, feeds_image Change.after (along_changes hshape h h'),
    imageOf_comp, imageOf_comp]
  rfl

/-- two messages that differ in a payload byte; the second of two feeds is refused -/
theorem feeds_blind_two :
    imageOf (fun _ => ()) (feeds ([[0, 1, 7, 0], [2, 8, 9]] : List Bytes) (fresh 2 4))
      = imageOf (fun _ => ()) (feeds ([[0, 1, 0, 0], [2, 0, 0]] : List Bytes) (fresh 2 4)) :=
  feeds_blind 2 4 [[⟨[7], by decide, by decide⟩, ⟨[8, 9], by decide, by decide⟩]]
    [[⟨[0], by decide, by decide⟩, ⟨[0, 0], by decide, by decide⟩]] _ _ (by decide) (by decide)
    ⟨[0, 0], by decide⟩ ⟨[0, 0], by decide⟩

end ChunkDecoder
end Bolt
