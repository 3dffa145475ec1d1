import BoltWire.Grammar
import BoltWire.FirstError
import Mathlib.Data.List.Induction

/-!
# What is rejected, and where

* `TooLargeAt`, `TooManyAt`   the two events of a stream, in the terms of the framing grammar;
* `ViolatesAt`      one of them, with the error it calls for;
* `parsed`          every stream is a prefix of a framed one: the deframer's phase says which;
* `run_header2`, `run_payload`   the deframer inside a header and inside a payload;
* `refused_of_violates`, `violates_of_badAt`   events and refused bytes;
* `allOk_iff_not_violates`, `failsAt_iff_violates`   the decoder's first error and the events;
* `feeds_reject`    the first error of a decoder is the earliest event.
-/

set_option linter.unusedSectionVars false

namespace Bolt
open Rust Message

/-! ## the events -/

/-- the byte at place `i` completes a chunk header that makes the message `size` bytes long, more
than `maxSize` -/
def TooLargeAt (maxSize : Nat) (s : Bytes) (i size : Nat) : Prop :=
  ∃ (msgs : List Message) (m : Message) (hi lo : UInt8), i < s.length ∧
    s.take (i + 1) = wire msgs ++ (m.encode ++ [hi, lo]) ∧ headerSize hi lo ≠ 0 ∧
    size = m.size + headerSize hi lo ∧ maxSize < size

/-- the fragments of the chunks `m` and of the first `n` payload bytes of the chunk after them -/
def fragmentsUpTo (idx : List Nat) (m : Message) (n : Nat) : Nat :=
  fragments idx m + ((idx.drop (m.encode.length + 2)).take n).dedup.length

/-- the byte at place `i` is the first one of fragment `maxSegs + 1` of a message -/
def TooManyAt (maxSegs : Nat) (fs : List Bytes) (i : Nat) : Prop :=
  ∃ (msgs : List Message) (m : Message) (hi lo b : UInt8) (part : Bytes), i < fs.flatten.length ∧
    fs.flatten.take (i + 1) = wire msgs ++ (m.encode ++ hi :: lo :: (part ++ [b])) ∧
    part.length < headerSize hi lo ∧
    fragmentsUpTo ((feedOf fs).drop (wire msgs).length) m part.length = maxSegs ∧
    fragmentsUpTo ((feedOf fs).drop (wire msgs).length) m (part.length + 1) = maxSegs + 1

def ViolatesAt (maxSize maxSegs : Nat) (fs : List Bytes) (i : Nat) (e : ChunkError) : Prop :=
  (∃ size, TooLargeAt maxSize fs.flatten i size ∧
    e = .messageTooLarge (min size usizeMax) maxSize) ∨
  (TooManyAt maxSegs fs i ∧ e = .tooManySegments (maxSegs + 1) maxSegs)

theorem fragmentsUpTo_take (idx : List Nat) (m : Message) {w n N : Nat}
    (h : w + m.encode.length + 2 + n ≤ N) (hN : N ≤ idx.length) :
    fragmentsUpTo ((idx.take N).drop w) m n = fragmentsUpTo (idx.drop w) m n := by
  unfold fragmentsUpTo
  rw [List.drop_take, List.drop_take, List.take_take,
    fragments_take m (idx.drop w) (by omega) (by rw [List.length_drop]; omega),
    Nat.min_eq_left (by omega)]

/-! ## the deframer between messages -/

namespace Deframe
variable {maxSize maxSegs : Nat}

/-- the phase of the deframer after the bytes `s` -/
inductive Parsed : Phase → Bytes → Prop where
  | header (msgs : List Message) (m : Message) : Parsed .header (wire msgs ++ m.encode)
  | header2 (msgs : List Message) (m : Message) (hi : UInt8) :
      Parsed (.header2 hi) (wire msgs ++ (m.encode ++ [hi]))
  | payload (msgs : List Message) (m : Message) (hi lo : UInt8) (part : Bytes) {owed : Nat}
      (h : part.length + owed = headerSize hi lo) (h0 : 0 < owed) :
      Parsed (.payload owed) (wire msgs ++ (m.encode ++ hi :: lo :: part))

theorem Parsed.next {phase : Phase} {s : Bytes} (h : Parsed phase s) (segs : List (List UInt8))
    (opn : Bool) (x : UInt8 × Bool) :
    Parsed (next ⟨phase, segs, opn⟩ x).1.phase (s ++ [x.1]) := by
  cases h with
  | header msgs m =>
    rw [List.append_assoc]
    exact .header2 msgs m x.1
  | header2 msgs m hi =>
    by_cases h0 : headerSize hi x.1 = 0
    · -- an end marker
      have hz : hi = 0 ∧ x.1 = 0 := by
        rw [headerSize_eq] at h0
        constructor <;> apply UInt8.toNat_inj.mp <;> simp <;> omega
      have e : wire msgs ++ (m.encode ++ [hi]) ++ [x.1] = wire (msgs ++ [m]) ++ encode [] := by
        rw [wire_snoc, hz.1, hz.2, frame, encode_nil]
        simp
      have e2 : (Deframe.next ⟨.header2 hi, segs, opn⟩ x).1 = start := by
        rw [next_end h0]
      rw [e, e2]
      exact .header (msgs ++ [m]) []
    · have e2 : (Deframe.next ⟨.header2 hi, segs, opn⟩ x).1
          = ⟨.payload (headerSize hi x.1), segs, false⟩ := by
        rw [next_chunk h0]
        rfl
      rw [e2, List.append_assoc, List.append_assoc]
      exact .payload msgs m hi x.1 [] (Nat.zero_add _) (Nat.pos_of_ne_zero h0)
  | @payload msgs m hi lo part owed h h0 =>
    rw [next_payload]
    unfold owing
    split
    · -- the last byte of a chunk
      have hlen : headerSize hi lo = (part ++ [x.1]).length := by
        rw [List.length_append, List.length_singleton]
        omega
      obtain ⟨c, hc, henc⟩ := Chunk.of_header hlen (List.append_ne_nil_of_right_ne_nil _ (by simp))
      have e : wire msgs ++ (m.encode ++ hi :: lo :: part) ++ [x.1] = wire msgs ++ encode (m ++ [c]) := by
        rw [encode_append, encode_cons, henc, encode_nil]
        simp
      rw [e]
      exact .header msgs (m ++ [c])
    · have e : wire msgs ++ (m.encode ++ hi :: lo :: part) ++ [x.1]
          = wire msgs ++ (m.encode ++ hi :: lo :: (part ++ [x.1])) := by simp
      rw [e]
      exact .payload msgs m hi lo (part ++ [x.1])
        (by rw [List.length_append, List.length_singleton]; omega) (by omega)

/-- **Every stream parses**, up to a last chunk that may be cut. -/
theorem parsed (maxSize maxSegs : Nat) (xs : List (UInt8 × Bool)) :
    Parsed ((deframer maxSize maxSegs).run start xs).1.phase (xs.map Prod.fst) := by
  induction xs using List.reverseRecOn with
  | nil => exact .header [] []
  | append_singleton xs x ih =>
    rw [Scanner.run_snoc, List.map_append]
    exact ih.next _ _ x

theorem pieces_ne_nil {body : List (UInt8 × Bool)} (h : body ≠ []) : pieces body ≠ [] := by
  intro e
  have hf := pieces_flatten body
  rw [e] at hf
  exact h (List.map_eq_nil_iff.mp hf.symm)

/-- inside a chunk header -/
theorem run_header2 (maxSize maxSegs : Nat) {k : Nat} {xs : List (UInt8 × Bool)} {idx : List Nat}
    (hst : Stamped k xs idx) {msgs : List Message} {m : Message} {hi : UInt8}
    (hx : xs.map Prod.fst = wire msgs ++ (m.encode ++ [hi])) :
    ∃ segs, ((deframer maxSize maxSegs).run start xs).1 = ⟨.header2 hi, segs, false⟩ ∧
      segs.flatten = m.payload := by
  obtain ⟨whole, rest, rfl, hwhole, hrest⟩ := List.map_eq_append_iff.mp hx
  obtain ⟨body, rest, rfl, hbody, hrest⟩ := List.map_eq_append_iff.mp hrest
  obtain ⟨x, rest, rfl, hx1, hrest⟩ := List.map_eq_cons_iff.mp hrest
  obtain rfl := List.map_eq_nil_iff.mp hrest
  obtain ⟨j, h2⟩ := hst.drop whole.length
  have h1 := hst.take whole.length
  rw [List.take_left] at h1
  rw [List.drop_left] at h2
  have h3 := h2.take body.length
  rw [List.take_left] at h3
  obtain ⟨outs, hrun1, -⟩ := run_wire maxSize maxSegs msgs h1 hwhole
  obtain ⟨segs, hrun2, hflat, -⟩ := run_encode maxSize maxSegs m h3 hbody []
  have hrun2' : (deframer maxSize maxSegs).run start body = (⟨.header, segs, false⟩, []) := hrun2
  refine ⟨segs, ?_, hflat⟩
  rw [Scanner.run_append, hrun1, Scanner.run_append, hrun2', ← hx1]
  rfl

/-- inside a payload, or at its end -/
theorem run_payload (maxSize maxSegs : Nat) {k : Nat} {xs : List (UInt8 × Bool)} {idx : List Nat}
    (hst : Stamped k xs idx) {msgs : List Message} {m : Message} {hi lo : UInt8} {part : Bytes}
    (hx : xs.map Prod.fst = wire msgs ++ (m.encode ++ hi :: lo :: part))
    (h0 : 0 < headerSize hi lo) (hp : part.length ≤ headerSize hi lo) :
    ∃ segs opn, ((deframer maxSize maxSegs).run start xs).1
        = ⟨if part.length = headerSize hi lo then .header
          else .payload (headerSize hi lo - part.length), segs, opn⟩ ∧
      segs.length = fragmentsUpTo (idx.drop (wire msgs).length) m part.length ∧
      (opn = true → segs ≠ []) := by
  obtain ⟨whole, rest, rfl, hwhole, hrest⟩ := List.map_eq_append_iff.mp hx
  obtain ⟨body, rest, rfl, hbody, hrest⟩ := List.map_eq_append_iff.mp hrest
  obtain ⟨x, rest, rfl, hx1, hrest⟩ := List.map_eq_cons_iff.mp hrest
  obtain ⟨y, rest, rfl, hy1, hrest⟩ := List.map_eq_cons_iff.mp hrest
  have hlw : whole.length = (wire msgs).length := by rw [← hwhole, List.length_map]
  have hlb : body.length = m.encode.length := by rw [← hbody, List.length_map]
  have hlp : rest.length = part.length := by rw [← hrest, List.length_map]
  have hidx := hst.length_eq
  rw [List.length_append, List.length_append] at hidx
  obtain ⟨j, h2⟩ := hst.drop whole.length
  have h1 := hst.take whole.length
  rw [List.take_left] at h1
  rw [List.drop_left] at h2
  have h3 := h2.take body.length
  obtain ⟨j', hdrop⟩ := h2.drop (body.length + 2)
  rw [List.take_left] at h3
  rw [← List.drop_drop, List.drop_left] at hdrop
  have h4 : Stamped j' rest ((idx.drop whole.length).drop (body.length + 2)) := hdrop
  obtain ⟨outs, hrun1, -⟩ := run_wire maxSize maxSegs msgs h1 hwhole
  obtain ⟨segs, hrun2, hflat, hcount⟩ := run_encode maxSize maxSegs m h3 hbody []
  have hrun2' : (deframer maxSize maxSegs).run start body = (⟨.header, segs, false⟩, []) := hrun2
  obtain ⟨opn, hrun3, -, hopn⟩ := run_body maxSize maxSegs h0 (hlp.trans_le hp) segs
  refine ⟨segs ++ pieces rest, opn, ?_, ?_, ?_⟩
  · rw [Scanner.run_append, hrun1, Scanner.run_append, hrun2']
    show ((deframer maxSize maxSegs).run ⟨.header, segs, false⟩ (x :: y :: rest)).1 = _
    rw [run_header rfl h0 hx1 hy1, hrun3, hlp]
  · have hlen4 := h4.length_eq
    have hfrag := fragments_take m (idx.drop whole.length) (n := body.length) hlb.ge
      (by rw [List.length_drop]; omega)
    rw [List.length_append, hcount, hfrag, h4.pieces_length, hlw, hlb]
    unfold fragmentsUpTo
    rw [List.take_of_length_le]
    · exact congrArg (· + _) (Nat.zero_add _)
    · rw [← hlw, ← hlb, ← hlp]
      exact hlen4.ge
  · intro e hnil
    exact pieces_ne_nil (hopn e) (List.append_eq_nil_iff.mp hnil).2

/-- a payload byte raises the count exactly when it starts a segment -/
theorem count_next (maxSize maxSegs : Nat) {xs : List (UInt8 × Bool)} {x : UInt8 × Bool}
    {idx : List Nat} (hst : Stamped 0 (xs ++ [x]) idx) {msgs : List Message} {m : Message}
    {hi lo : UInt8} {part : Bytes}
    (hx : xs.map Prod.fst = wire msgs ++ (m.encode ++ hi :: lo :: part))
    (hp : part.length < headerSize hi lo) :
    ∃ owed segs opn, ((deframer maxSize maxSegs).run start xs).1 = ⟨.payload owed, segs, opn⟩ ∧
      fragmentsUpTo (idx.drop (wire msgs).length) m part.length = segs.length ∧
      fragmentsUpTo (idx.drop (wire msgs).length) m (part.length + 1)
        = if opn && !x.2 then segs.length else segs.length + 1 := by
  have hlen := hst.length_eq
  rw [List.length_append, List.length_singleton] at hlen
  have hxlen := congrArg List.length hx
  simp only [List.length_map, List.length_append, List.length_cons] at hxlen
  have hpre := hst.take xs.length
  rw [List.take_left] at hpre
  have h0 : 0 < headerSize hi lo := by omega
  obtain ⟨segs, opn, hrun, hcount, hopn⟩ := run_payload maxSize maxSegs hpre hx h0 hp.le
  rw [if_neg hp.ne] at hrun
  rw [fragmentsUpTo_take idx m (by omega) (by omega)] at hcount
  refine ⟨headerSize hi lo - part.length, segs, opn, hrun, hcount.symm, ?_⟩
  have hx' : (xs ++ [x]).map Prod.fst
      = wire msgs ++ (m.encode ++ hi :: lo :: (part ++ [x.1])) := by
    rw [List.map_append, hx]
    simp
  have hp' : (part ++ [x.1]).length ≤ headerSize hi lo := by
    rw [List.length_append, List.length_singleton]
    omega
  obtain ⟨segs', opn', hrun', hcount', -⟩ := run_payload maxSize maxSegs hst hx' h0 hp'
  rw [Scanner.run_snoc, hrun] at hrun'
  have hsegs : segs' = addByte (opn && !x.2) segs x.1 :=
    (congrArg Deframe.segs hrun').symm.trans (owing_segs _ _)
  rw [List.length_append, List.length_singleton] at hcount'
  rw [← hcount', hsegs, addByte_length fun h => hopn (Bool.and_eq_true_iff.mp h).1]

end Deframe

/-! ## events and refused bytes -/

namespace ChunkDecoder
variable {maxSize maxSegs : Usize}

/-- the byte at place `i` of the stream of some feeds -/
theorem marks_split {fs : List Bytes} {i : Nat} (h : i < fs.flatten.length) :
    ∃ pre x post, marks fs = pre ++ x :: post ∧ pre.length = i ∧
      fs.flatten.take (i + 1) = pre.map Prod.fst ++ [x.1] := by
  have hlen : i < (marks fs).length := by rwa [marks_length]
  refine ⟨(marks fs).take i, (marks fs)[i], (marks fs).drop (i + 1), ?_, ?_, ?_⟩
  · rw [List.getElem_cons_drop, List.take_append_drop]
  · rw [List.length_take]
    omega
  · rw [← marks_fst, ← List.map_take, List.take_succ_eq_append_getElem hlen, List.map_append]
    rfl

/-- the same for a given cut of the stream -/
theorem take_of_marks {fs : List Bytes} {pre post : List (UInt8 × Bool)} {x : UInt8 × Bool}
    (hxs : marks fs = pre ++ x :: post) :
    pre.length < fs.flatten.length ∧
      fs.flatten.take (pre.length + 1) = pre.map Prod.fst ++ [x.1] := by
  constructor
  · rw [← marks_length, hxs, List.length_append, List.length_cons]
    omega
  · have e : pre ++ x :: post = (pre ++ [x]) ++ post := by simp
    have h1 : (pre ++ [x]).length = pre.length + 1 := by simp
    rw [← marks_fst, hxs, e, ← List.map_take, ← h1, List.take_left, List.map_append]
    rfl

/-- feed numbers of later bytes do not count -/
theorem fragmentsUpTo_feedOf {fs : List Bytes} {pre post : List (UInt8 × Bool)} {x : UInt8 × Bool}
    (hxs : marks fs = (pre ++ [x]) ++ post) {msgs : List Message} {m : Message} {hi lo : UInt8}
    {part : Bytes} (hx : pre.map Prod.fst = wire msgs ++ (m.encode ++ hi :: lo :: part)) {n : Nat}
    (hn : n ≤ part.length + 1) :
    fragmentsUpTo (((feedOf fs).take (pre ++ [x]).length).drop (wire msgs).length) m n
      = fragmentsUpTo ((feedOf fs).drop (wire msgs).length) m n := by
  have hidx := (Stamped.marks fs).length_eq
  have hlen := congrArg List.length hx
  rw [hxs, List.length_append, List.length_append] at hidx
  simp only [List.length_map, List.length_append, List.length_cons] at hlen
  refine fragmentsUpTo_take (feedOf fs) m ?_ ?_
  · rw [List.length_append, List.length_singleton]
    omega
  · rw [List.length_append]
    omega

theorem refused_of_tooLarge {fs : List Bytes} {i size : Nat}
    (h : TooLargeAt maxSize.val fs.flatten i size) :
    (scanner maxSize maxSegs).RefusedAt .start (marks fs) i
      (.messageTooLarge (min size usizeMax) maxSize.val) := by
  obtain ⟨msgs, m, hi, lo, hlen, hcut, hne, rfl, hlt⟩ := h
  obtain ⟨pre, x, post, hxs, hpre, htake⟩ := marks_split hlen
  have e : pre.map Prod.fst ++ [x.1] = (wire msgs ++ (m.encode ++ [hi])) ++ [lo] := by
    rw [← htake, hcut]
    simp
  obtain ⟨hx, hlo⟩ := List.append_inj' e rfl
  obtain rfl := (List.cons.inj hlo).1
  have hst := (Stamped.marks fs).take pre.length
  rw [hxs, List.take_left] at hst
  obtain ⟨segs, hrun, hflat⟩ := Deframe.run_header2 maxSize.val maxSegs.val hst hx
  have hrun' : ((scanner maxSize maxSegs).run .start pre).1 = ⟨.header2 hi, segs, false⟩ := hrun
  have htotal : segs.flatten.length = m.size := congrArg List.length hflat
  refine ⟨pre, x, post, hxs, hpre, ?_⟩
  rw [← htotal] at hlt ⊢
  rw [hrun']
  show Deframe.bad maxSize.val maxSegs.val ⟨.header2 hi, segs, false⟩ x = _
  exact Deframe.bad_header2_iff.mpr ⟨⟨hne, hlt⟩, rfl⟩

theorem refused_of_tooMany {fs : List Bytes} {i : Nat} (h : TooManyAt maxSegs.val fs i) :
    (scanner maxSize maxSegs).RefusedAt .start (marks fs) i
      (.tooManySegments (maxSegs.val + 1) maxSegs.val) := by
  obtain ⟨msgs, m, hi, lo, b, part, hlen, hcut, hpart, hfrag, hfrag1⟩ := h
  obtain ⟨pre, x, post, hxs, hpre, htake⟩ := marks_split hlen
  have e : pre.map Prod.fst ++ [x.1] = (wire msgs ++ (m.encode ++ hi :: lo :: part)) ++ [b] := by
    rw [← htake, hcut]
    simp
  obtain ⟨hx, -⟩ := List.append_inj' e rfl
  have hxs' : marks fs = (pre ++ [x]) ++ post := by
    rw [hxs, List.append_assoc]
    rfl
  have hst := (Stamped.marks fs).take (pre ++ [x]).length
  rw [hxs', List.take_left] at hst
  obtain ⟨owed, segs, opn, hrun, hn, hn1⟩ :=
    Deframe.count_next maxSize.val maxSegs.val hst hx hpart
  rw [fragmentsUpTo_feedOf hxs' hx (Nat.le_succ _), hfrag] at hn
  rw [fragmentsUpTo_feedOf hxs' hx le_rfl, hfrag1] at hn1
  have hrun' : ((scanner maxSize maxSegs).run .start pre).1 = ⟨.payload owed, segs, opn⟩ := hrun
  have hjoin : (opn && !x.2) = false := by
    by_contra hj
    rw [Bool.not_eq_false] at hj
    rw [hj, if_pos rfl] at hn1
    omega
  refine ⟨pre, x, post, hxs, hpre, ?_⟩
  rw [hrun', hn]
  show Deframe.bad maxSize.val maxSegs.val ⟨.payload owed, segs, opn⟩ x = _
  rw [hn]
  exact Deframe.bad_payload_iff.mpr ⟨⟨hjoin, Nat.lt_succ_self _⟩, rfl⟩

theorem refused_of_violates {fs : List Bytes} {i : Nat} {e : ChunkError}
    (h : ViolatesAt maxSize.val maxSegs.val fs i e) :
    (scanner maxSize maxSegs).RefusedAt .start (marks fs) i e := by
  rcases h with ⟨size, h, rfl⟩ | ⟨h, rfl⟩
  · exact refused_of_tooLarge h
  · exact refused_of_tooMany h

/-- a refused header byte, where the stream so far ends in the first byte of a header -/
theorem tooLarge_of_bad {fs : List Bytes} {pre post : List (UInt8 × Bool)} {x : UInt8 × Bool}
    (hxs : marks fs = pre ++ x :: post) {msgs : List Message} {m : Message} {hi : UInt8}
    (hs : pre.map Prod.fst = wire msgs ++ (m.encode ++ [hi])) {segs : List Bytes} {opn : Bool}
    (hrun : ((deframer maxSize.val maxSegs.val).run .start pre).1 = ⟨.header2 hi, segs, opn⟩)
    {e : ChunkError} (hbad : Deframe.bad maxSize.val maxSegs.val ⟨.header2 hi, segs, opn⟩ x = some e) :
    ViolatesAt maxSize.val maxSegs.val fs pre.length e := by
  obtain ⟨hlen, htake⟩ := take_of_marks hxs
  have hst := (Stamped.marks fs).take pre.length
  rw [hxs, List.take_left] at hst
  obtain ⟨segs', hrun2, hflat⟩ := Deframe.run_header2 maxSize.val maxSegs.val hst hs
  obtain rfl : segs = segs' := congrArg Deframe.segs (hrun.symm.trans hrun2)
  have htotal : segs.flatten.length = m.size := congrArg List.length hflat
  obtain ⟨⟨hne, hlt⟩, he⟩ := Deframe.bad_header2_iff.mp hbad
  rw [htotal] at hlt he
  refine .inl ⟨_, ⟨msgs, m, hi, x.1, hlen, ?_, hne, rfl, hlt⟩, he.symm⟩
  rw [htake, hs]
  simp

/-- a refused payload byte, where the stream so far ends inside a payload -/
theorem tooMany_of_bad {fs : List Bytes} {pre post : List (UInt8 × Bool)} {x : UInt8 × Bool}
    (hxs : marks fs = pre ++ x :: post) {msgs : List Message} {m : Message} {hi lo : UInt8}
    {part : Bytes} (hs : pre.map Prod.fst = wire msgs ++ (m.encode ++ hi :: lo :: part))
    (hpart : part.length < headerSize hi lo) {owed : Nat} {segs : List Bytes} {opn : Bool}
    (hrun : ((deframer maxSize.val maxSegs.val).run .start pre).1 = ⟨.payload owed, segs, opn⟩)
    (hle : segs.length ≤ maxSegs.val) {e : ChunkError}
    (hbad : Deframe.bad maxSize.val maxSegs.val ⟨.payload owed, segs, opn⟩ x = some e) :
    ViolatesAt maxSize.val maxSegs.val fs pre.length e := by
  obtain ⟨hlen, htake⟩ := take_of_marks hxs
  have hxs' : marks fs = (pre ++ [x]) ++ post := by
    rw [hxs, List.append_assoc]
    rfl
  have hst := (Stamped.marks fs).take (pre ++ [x]).length
  rw [hxs', List.take_left] at hst
  obtain ⟨owed', segs', opn', hrun2, hn, hn1⟩ :=
    Deframe.count_next maxSize.val maxSegs.val hst hs hpart
  rw [fragmentsUpTo_feedOf hxs' hs (Nat.le_succ _)] at hn
  rw [fragmentsUpTo_feedOf hxs' hs le_rfl] at hn1
  rw [hrun] at hrun2
  cases hrun2
  obtain ⟨⟨hjoin, hlt⟩, he⟩ := Deframe.bad_payload_iff.mp hbad
  have hmax : segs.length = maxSegs.val := Nat.le_antisymm hle (Nat.lt_succ_iff.mp hlt)
  rw [hmax] at he
  rw [hjoin, hmax] at hn1
  refine .inr ⟨⟨msgs, m, hi, lo, x.1, part, hlen, ?_, hpart, hn.trans hmax, hn1⟩, he.symm⟩
  rw [htake, hs]
  simp

/-- **The first refused byte is an event.** -/
theorem violates_of_badAt {fs : List Bytes} {i : Nat} {e : ChunkError}
    (h : (scanner maxSize maxSegs).BadAt .start (marks fs) i e) :
    ViolatesAt maxSize.val maxSegs.val fs i e := by
  obtain ⟨pre, x, post, hxs, rfl, hclean, hbad⟩ := h
  have hInv : Deframe.Inv maxSize.val maxSegs.val ((scanner maxSize maxSegs).run .start pre).1 :=
    Deframe.Inv.start.run hclean
  have hle := hInv.segs_le
  have hparse := Deframe.parsed maxSize.val maxSegs.val pre
  have hbad' : Deframe.bad maxSize.val maxSegs.val
      ((deframer maxSize.val maxSegs.val).run .start pre).1 x = some e := hbad
  rcases hrun : ((deframer maxSize.val maxSegs.val).run .start pre).1 with ⟨phase, segs, opn⟩
  rw [hrun] at hparse hbad' hle
  generalize hs : pre.map Prod.fst = s at hparse
  cases hparse with
  | header msgs m => cases hbad'
  | header2 msgs m hi => exact tooLarge_of_bad hxs hs hrun hbad'
  | @payload msgs m hi lo part owed h h0 =>
    exact tooMany_of_bad hxs hs (by omega) hrun hle hbad'

theorem allOk_iff_not_violates (maxSize maxSegs : Usize) (fs : List Bytes) :
    AllOk maxSize maxSegs fs ↔ ∀ i e, ¬ ViolatesAt maxSize.val maxSegs.val fs i e := by
  rw [allOk_iff]
  refine ⟨fun hc i e hv => (refused_of_violates hv).not_clean hc, fun hv => ?_⟩
  rcases Scanner.clean_or_badAt (scanner maxSize maxSegs) .start (marks fs) with hc | ⟨i, e, hb⟩
  · exact hc
  · exact absurd (violates_of_badAt hb) (hv i e)

theorem failsAt_iff_violates (maxSize maxSegs : Usize) (fs : List Bytes) (i : Nat)
    (e : ChunkError) :
    FailsAt maxSize maxSegs fs i e ↔ ViolatesAt maxSize.val maxSegs.val fs i e ∧
      ∀ j < i, ∀ e', ¬ ViolatesAt maxSize.val maxSegs.val fs j e' := by
  rw [failsAt_iff]
  constructor
  · intro hb
    refine ⟨violates_of_badAt hb, fun j hj e' hv => ?_⟩
    exact absurd (hb.le (refused_of_violates hv)) (Nat.not_le_of_lt hj)
  · rintro ⟨hv, hfirst⟩
    have href := refused_of_violates hv
    rcases Scanner.clean_or_badAt (scanner maxSize maxSegs) .start (marks fs) with
      hc | ⟨i', e', hb⟩
    · exact absurd hc href.not_clean
    · have hle := hb.le href
      have hi : i' = i := by
        by_contra hne
        exact hfirst i' (by omega) e' (violates_of_badAt hb)
      subst hi
      rw [href.unique hb.refused]
      exact hb

/-- **Exact rejection**: the first error of the decoder is the earliest event of the stream, at the
byte that completes the event; without an event every feed returns messages. -/
theorem feeds_reject (maxSize maxSegs : Usize) (fs : List Bytes) :
    (AllOk maxSize maxSegs fs ↔ ∀ i e, ¬ ViolatesAt maxSize.val maxSegs.val fs i e) ∧
    ∀ i e, FailsAt maxSize maxSegs fs i e ↔ ViolatesAt maxSize.val maxSegs.val fs i e ∧
      ∀ j < i, ∀ e', ¬ ViolatesAt maxSize.val maxSegs.val fs j e' :=
  ⟨allOk_iff_not_violates maxSize maxSegs fs, failsAt_iff_violates maxSize maxSegs fs⟩

end ChunkDecoder
end Bolt
