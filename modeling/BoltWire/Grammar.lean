import BoltWire.Fragments

/-!
# The framing grammar

    chunk   = [u16 BE size][payload]      message = chunk .. chunk [00 00]

* `Chunk`, `Message`   a chunk payload of 1 .. 65535 bytes; the chunks of a message;
* `frame`, `wire`      their bytes;
* `fragments`          into how many fragments the feeds cut the chunks of a message;
* `heldPhase`, `heldPayload`   what the first `n` bytes of a message leave behind;
* `run_frame`, `run_wire`, `run_held`   the deframer on whole messages and on an unfinished one;
* `clean_wire`         messages within the limits are not refused.
-/

set_option linter.unusedSectionVars false
set_option linter.unusedVariables false

namespace Bolt
open Rust BigEndian

structure Chunk where
  payload : Bytes
  pos : 0 < payload.length
  le : payload.length ≤ 65535

namespace Chunk

def hi (c : Chunk) : UInt8 := UInt8.ofNat (c.payload.length / 256)
def lo (c : Chunk) : UInt8 := UInt8.ofNat c.payload.length

/-- the bytes of a chunk on the wire -/
def encode (c : Chunk) : Bytes := c.hi :: c.lo :: c.payload

theorem headerSize (c : Chunk) : headerSize c.hi c.lo = c.payload.length := by
  have hle := c.le
  rw [headerSize_eq]
  unfold hi lo
  rw [UInt8.toNat_ofNat', UInt8.toNat_ofNat']
  omega

theorem encode_length (c : Chunk) : c.encode.length = 2 + c.payload.length := by
  unfold encode
  rw [List.length_cons, List.length_cons]
  omega

/-- the chunk with a given header -/
theorem of_header {hi lo : UInt8} {payload : Bytes} (h : Bolt.headerSize hi lo = payload.length)
    (hne : payload ≠ []) : ∃ c : Chunk, c.payload = payload ∧ c.encode = hi :: lo :: payload := by
  have hlt := headerSize_lt hi lo
  have hl : lo.toNat < 256 := lo.toNat_lt
  have hh : hi.toNat < 256 := hi.toNat_lt
  have he := h
  rw [headerSize_eq] at he
  refine ⟨⟨payload, List.length_pos_iff.mpr hne, by omega⟩, rfl, ?_⟩
  have e1 : UInt8.ofNat (payload.length / 256) = hi := by
    apply UInt8.toNat_inj.mp
    rw [UInt8.toNat_ofNat']
    omega
  have e2 : UInt8.ofNat payload.length = lo := by
    apply UInt8.toNat_inj.mp
    rw [UInt8.toNat_ofNat']
    omega
  show UInt8.ofNat (payload.length / 256) :: UInt8.ofNat payload.length :: payload = _
  rw [e1, e2]

end Chunk

abbrev Message := List Chunk

namespace Message

def payload (m : Message) : Bytes := m.flatMap Chunk.payload
def size (m : Message) : Nat := m.payload.length
def encode (m : Message) : Bytes := m.flatMap Chunk.encode

/-- the bytes of a message on the wire -/
def frame (m : Message) : Bytes := m.encode ++ [0, 0]

theorem payload_cons (c : Chunk) (m : Message) : payload (c :: m) = c.payload ++ payload m := rfl
theorem size_cons (c : Chunk) (m : Message) : size (c :: m) = c.payload.length + size m := by
  unfold size
  rw [payload_cons, List.length_append]
theorem encode_nil : encode [] = [] := rfl
theorem encode_cons (c : Chunk) (m : Message) : encode (c :: m) = c.encode ++ encode m := rfl
theorem encode_append (a b : Message) : encode (a ++ b) = encode a ++ encode b := by
  simp [encode, List.flatMap_append]
theorem frame_cons (c : Chunk) (m : Message) :
    frame (c :: m) = c.hi :: c.lo :: (c.payload ++ frame m) := by
  unfold frame
  rw [encode_cons, Chunk.encode]
  simp
theorem frame_length_cons (c : Chunk) (m : Message) :
    (frame (c :: m)).length = 2 + c.payload.length + (frame m).length := by
  rw [frame_cons, List.length_cons, List.length_cons, List.length_append]
  omega
end Message

open Message

/-- a stream of messages -/
def wire (msgs : List Message) : Bytes := msgs.flatMap frame

theorem wire_cons (m : Message) (msgs : List Message) : wire (m :: msgs) = frame m ++ wire msgs := rfl
theorem wire_append (a b : List Message) : wire (a ++ b) = wire a ++ wire b := by
  simp [wire, List.flatMap_append]
theorem wire_snoc (msgs : List Message) (m : Message) : wire (msgs ++ [m]) = wire msgs ++ frame m := by
  rw [wire_append, wire_cons]
  show _ ++ (frame m ++ []) = _
  rw [List.append_nil]

/-! ## what the feeds and a cut make of a message -/

/-- into how many fragments the feeds cut the payloads of a message; `idx` are the feed numbers of
the stream from the first byte of the message on -/
def fragments : List Nat → Message → Nat
  | _, [] => 0
  | idx, c :: m =>
    ((idx.drop 2).take c.payload.length).dedup.length + fragments (idx.drop (2 + c.payload.length)) m

/-- the payload among the first `n` bytes of a message -/
def heldPayload : Message → Nat → Bytes
  | [], _ => []
  | c :: m, n => c.payload.take (n - 2) ++ heldPayload m (n - (2 + c.payload.length))

/-- where the first `n` bytes of a message end -/
def heldPhase : Message → Nat → Phase
  | [], n => if n = 0 then .header else .header2 0
  | c :: m, n =>
    if n = 0 then .header
    else if n = 1 then .header2 c.hi
    else if n < 2 + c.payload.length then .payload (2 + c.payload.length - n)
    else heldPhase m (n - (2 + c.payload.length))

theorem fragments_cons (idx : List Nat) (c : Chunk) (m : Message) :
    fragments idx (c :: m) = ((idx.drop 2).take c.payload.length).dedup.length
      + fragments (idx.drop (2 + c.payload.length)) m := rfl

theorem heldPayload_cons (c : Chunk) (m : Message) (n : Nat) : heldPayload (c :: m) n
    = c.payload.take (n - 2) ++ heldPayload m (n - (2 + c.payload.length)) := rfl

theorem heldPayload_zero (m : Message) : heldPayload m 0 = [] := by
  induction m with
  | nil => rfl
  | cons c m ih =>
    rw [heldPayload_cons, Nat.zero_sub, Nat.zero_sub, ih]
    rfl

/-- a message that is cut in its first chunk -/
theorem heldPayload_cut {c : Chunk} {m : Message} {n : Nat} (h : n ≤ 2 + c.payload.length) :
    heldPayload (c :: m) n = c.payload.take (n - 2) := by
  rw [heldPayload_cons, Nat.sub_eq_zero_of_le h, heldPayload_zero, List.append_nil]

theorem heldPhase_cut {c : Chunk} {m : Message} {n : Nat} (h2 : 2 ≤ n)
    (h : n < 2 + c.payload.length) :
    heldPhase (c :: m) n = .payload (2 + c.payload.length - n) := by
  rw [heldPhase, if_neg (by omega), if_neg (by omega), if_pos h]

theorem heldPhase_later {c : Chunk} {m : Message} {n : Nat} (h : 2 + c.payload.length ≤ n) :
    heldPhase (c :: m) n = heldPhase m (n - (2 + c.payload.length)) := by
  rw [heldPhase, if_neg (by omega), if_neg (by omega), if_neg (Nat.not_lt.mpr h)]

/-- feed numbers that no byte of the message has do not count -/
theorem fragments_append (m : Message) : ∀ (idx jdx : List Nat), m.encode.length ≤ idx.length →
    fragments (idx ++ jdx) m = fragments idx m := by
  induction m with
  | nil => intro idx jdx _; rfl
  | cons c m ih =>
    intro idx jdx h
    rw [encode_cons, List.length_append, Chunk.encode_length] at h
    rw [fragments_cons, fragments_cons, List.drop_append_of_le_length (by omega),
      List.drop_append_of_le_length (by omega),
      List.take_append_of_le_length (by rw [List.length_drop]; omega),
      ih _ _ (by rw [List.length_drop]; omega)]

theorem fragments_take (m : Message) {n : Nat} (idx : List Nat) (h : m.encode.length ≤ n)
    (hn : n ≤ idx.length) : fragments (idx.take n) m = fragments idx m := by
  have e := fragments_append m (idx.take n) (idx.drop n) (by rw [List.length_take]; omega)
  rw [List.take_append_drop] at e
  exact e.symm

/-- no message of a stream exceeds the limits; sizes and fragments count for each message alone -/
def WithinLimits (maxSize maxSegs : Nat) : List Nat → List Message → Prop
  | _, [] => True
  | idx, m :: msgs => (m.size ≤ maxSize ∧ fragments idx m ≤ maxSegs) ∧
      WithinLimits maxSize maxSegs (idx.drop m.frame.length) msgs

instance decidableWithinLimits (maxSize maxSegs : Nat) : ∀ (idx : List Nat) (msgs : List Message),
    Decidable (WithinLimits maxSize maxSegs idx msgs)
  | _, [] => isTrue trivial
  | idx, m :: msgs =>
    have := decidableWithinLimits maxSize maxSegs (idx.drop m.frame.length) msgs
    inferInstanceAs (Decidable (_ ∧ _))

/-- the messages whose end marker lies within the first `n` bytes of a stream -/
def completed : Nat → List Message → List Message
  | _, [] => []
  | n, m :: msgs => if m.frame.length ≤ n then m :: completed (n - m.frame.length) msgs else []

/-- a prefix of a stream consists of the completed messages and a cut one -/
theorem take_wire (msgs : List Message) (last : Message) {n : Nat} (hn : n < last.frame.length) :
    ∀ k, ∃ (last' : Message) (n' : Nat), n' < last'.frame.length ∧
      (wire msgs ++ last.frame.take n).take k = wire (completed k msgs) ++ last'.frame.take n' := by
  induction msgs with
  | nil =>
    intro k
    refine ⟨last, min k n, by omega, ?_⟩
    show (last.frame.take n).take k = last.frame.take (min k n)
    rw [List.take_take]
  | cons m msgs ih =>
    intro k
    rw [wire_cons, List.append_assoc]
    by_cases h : m.frame.length ≤ k
    · obtain ⟨last', n', hn', e⟩ := ih (k - m.frame.length)
      refine ⟨last', n', hn', ?_⟩
      rw [completed, if_pos h, wire_cons, List.append_assoc, ← e, List.take_append,
        List.take_of_length_le h]
    · refine ⟨m, k, Nat.lt_of_not_le h, ?_⟩
      rw [completed, if_neg h, List.take_append_of_le_length (by omega)]
      rfl

/-! ## the deframer on the grammar -/

namespace Deframe
variable {maxSize maxSegs : Nat}

/-- the bytes of a chunk at the front of a marked stream -/
theorem split_chunk {c : Chunk} {t : Bytes} {xs : List (UInt8 × Bool)}
    (h : xs.map Prod.fst = c.encode ++ t) : ∃ x y body rest, xs = x :: y :: (body ++ rest) ∧
      x.1 = c.hi ∧ y.1 = c.lo ∧ body.map Prod.fst = c.payload ∧ rest.map Prod.fst = t := by
  obtain ⟨x, xs, rfl, hx, h⟩ := List.map_eq_cons_iff.mp h
  obtain ⟨y, xs, rfl, hy, h⟩ := List.map_eq_cons_iff.mp h
  obtain ⟨body, rest, rfl, hb, hr⟩ := List.map_eq_append_iff.mp h
  exact ⟨x, y, body, rest, rfl, hx, hy, hb, hr⟩

/-- after the header of a chunk -/
theorem run_header {hi lo : UInt8} {size : Nat} (h : headerSize hi lo = size) (h0 : 0 < size)
    {x y : UInt8 × Bool} (hx : x.1 = hi) (hy : y.1 = lo) (segs : List (List UInt8)) (opn : Bool)
    (rest : List (UInt8 × Bool)) :
    (deframer maxSize maxSegs).run ⟨.header, segs, opn⟩ (x :: y :: rest)
      = (deframer maxSize maxSegs).run ⟨.payload size, segs, false⟩ rest := by
  subst hx
  subst hy
  subst h
  have e0 : (deframer maxSize maxSegs).next ⟨.header, segs, opn⟩ x
      = (⟨.header2 x.1, segs, opn⟩, none) := rfl
  have e1 : (deframer maxSize maxSegs).next ⟨.header2 x.1, segs, opn⟩ y
      = (⟨.payload (headerSize x.1 y.1), segs, false⟩, none) := next_chunk h0.ne' segs opn
  rw [Scanner.run_cons, e0, Scanner.run_cons, e1]
  rfl

/-- **Whole chunks** add their pieces. -/
theorem run_encode (maxSize maxSegs : Nat) (m : Message) :
    ∀ {k : Nat} {xs : List (UInt8 × Bool)} {idx : List Nat},
    Stamped k xs idx → xs.map Prod.fst = m.encode → ∀ segs : List (List UInt8),
    ∃ segs', (deframer maxSize maxSegs).run ⟨.header, segs, false⟩ xs
        = (⟨.header, segs', false⟩, []) ∧
      segs'.flatten = segs.flatten ++ m.payload ∧
      segs'.length = segs.length + fragments idx m := by
  induction m with
  | nil =>
    intro k xs idx hst hx segs
    obtain rfl := List.map_eq_nil_iff.mp hx
    exact ⟨segs, rfl, (List.append_nil _).symm, rfl⟩
  | cons c m ih =>
    intro k xs idx hst hx segs
    rw [encode_cons] at hx
    obtain ⟨x, y, body, rest, rfl, hx1, hy1, hbody, hrest⟩ := split_chunk hx
    have hlen : body.length = c.payload.length := by rw [← hbody, List.length_map]
    have hne : body ≠ [] := by
      intro e
      have hpos := c.pos
      rw [← hlen, e] at hpos
      cases hpos
    obtain ⟨j, hj⟩ := hst.drop 2
    have hstBody := hj.take c.payload.length
    obtain ⟨j', hstRest⟩ := hst.drop (2 + c.payload.length)
    have e1 : ((x :: y :: (body ++ rest)).drop 2).take c.payload.length = body := by
      show (body ++ rest).take _ = _
      rw [← hlen, List.take_left]
    have e2 : (x :: y :: (body ++ rest)).drop (2 + c.payload.length) = rest := by
      rw [← List.drop_drop]
      show (body ++ rest).drop _ = _
      rw [← hlen, List.drop_left]
    rw [e1] at hstBody
    rw [e2] at hstRest
    obtain ⟨segs', hrun, hflat, hcount⟩ := ih hstRest hrest (segs ++ pieces body)
    refine ⟨segs', ?_, ?_, ?_⟩
    · rw [run_header c.headerSize c.pos hx1 hy1, Scanner.run_append,
        run_pieces maxSize maxSegs hlen.le hne, hlen, Nat.sub_self]
      show (((deframer maxSize maxSegs).run ⟨.header, segs ++ pieces body, false⟩ rest).1,
        [] ++ ((deframer maxSize maxSegs).run ⟨.header, segs ++ pieces body, false⟩ rest).2) = _
      rw [hrun]
      rfl
    · rw [hflat, List.flatten_append, pieces_flatten, hbody, payload_cons, List.append_assoc]
    · rw [hcount, List.length_append, hstBody.pieces_length, fragments_cons, Nat.add_assoc]

/-- the end marker -/
theorem run_end {x y : UInt8 × Bool} (hx : x.1 = 0) (hy : y.1 = 0) (segs : List (List UInt8))
    (opn : Bool) (rest : List (UInt8 × Bool)) :
    (deframer maxSize maxSegs).run ⟨.header, segs, opn⟩ (x :: y :: rest)
      = (((deframer maxSize maxSegs).run start rest).1,
        segs :: ((deframer maxSize maxSegs).run start rest).2) := by
  have e0 : (deframer maxSize maxSegs).next ⟨.header, segs, opn⟩ x
      = (⟨.header2 (Octet.val x.1), segs, opn⟩, none) := rfl
  have hsize : headerSize (Octet.val x.1) (Octet.val y.1) = 0 := by
    rw [hx, hy]
    rfl
  have e1 : (deframer maxSize maxSegs).next ⟨.header2 (Octet.val x.1), segs, opn⟩ y
      = (start, some segs) := next_end hsize segs opn
  rw [Scanner.run_cons, e0, Scanner.run_cons, e1]
  rfl

theorem run_frame (maxSize maxSegs : Nat) (m : Message) {k : Nat} {xs : List (UInt8 × Bool)}
    {idx : List Nat} (hst : Stamped k xs idx) (hx : xs.map Prod.fst = m.frame) :
    ∃ segs, (deframer maxSize maxSegs).run start xs = (start, [segs]) ∧
      segs.flatten = m.payload := by
  obtain ⟨body, rest, rfl, hbody, hrest⟩ := List.map_eq_append_iff.mp hx
  obtain ⟨x, rest, rfl, hx1, hrest⟩ := List.map_eq_cons_iff.mp hrest
  obtain ⟨y, rest, rfl, hy1, hrest⟩ := List.map_eq_cons_iff.mp hrest
  obtain rfl := List.map_eq_nil_iff.mp hrest
  have hst := hst.take body.length
  rw [List.take_left] at hst
  obtain ⟨segs, hrun, hflat, _⟩ := run_encode maxSize maxSegs m hst hbody []
  refine ⟨segs, ?_, hflat⟩
  have hbodyRun : (deframer maxSize maxSegs).run start body = (⟨.header, segs, false⟩, []) := hrun
  rw [Scanner.run_append, hbodyRun, run_end hx1 hy1]
  rfl

/-- **Whole messages** come out one by one. -/
theorem run_wire (maxSize maxSegs : Nat) (msgs : List Message) :
    ∀ {k : Nat} {xs : List (UInt8 × Bool)} {idx : List Nat},
    Stamped k xs idx → xs.map Prod.fst = wire msgs →
    ∃ outs, (deframer maxSize maxSegs).run start xs = (start, outs) ∧
      outs.map List.flatten = msgs.map payload := by
  induction msgs with
  | nil =>
    intro k xs idx _ hx
    obtain rfl := List.map_eq_nil_iff.mp hx
    exact ⟨[], rfl, rfl⟩
  | cons m msgs ih =>
    intro k xs idx hst hx
    rw [wire_cons] at hx
    obtain ⟨first, rest, rfl, hfirst, hrest⟩ := List.map_eq_append_iff.mp hx
    have h1 := hst.take first.length
    obtain ⟨j, h2⟩ := hst.drop first.length
    rw [List.take_left] at h1
    rw [List.drop_left] at h2
    obtain ⟨segs, hrun1, hflat⟩ := run_frame maxSize maxSegs m h1 hfirst
    obtain ⟨outs, hrun2, houts⟩ := ih h2 hrest
    refine ⟨segs :: outs, ?_, ?_⟩
    · rw [Scanner.run_append, hrun1, hrun2]
      rfl
    · rw [List.map_cons, hflat, houts, List.map_cons]

/-! ### a message that is cut off -/

theorem cut_nil {n : Nat} {xs : List (UInt8 × Bool)}
    (h : xs.map Prod.fst = (frame []).take n) :
    (n = 0 ∧ xs = []) ∨ (n = 1 ∧ ∃ x, xs = [x] ∧ x.1 = 0) ∨
      (2 ≤ n ∧ ∃ x y, xs = [x, y] ∧ x.1 = 0 ∧ y.1 = 0) := by
  rcases n with _ | _ | n
  · exact .inl ⟨rfl, List.map_eq_nil_iff.mp h⟩
  · obtain ⟨x, rest, rfl, hx, hrest⟩ := List.map_eq_cons_iff.mp h
    obtain rfl := List.map_eq_nil_iff.mp hrest
    exact .inr (.inl ⟨rfl, x, rfl, hx⟩)
  · have e : (frame []).take (n + 2) = [0, 0] := List.take_of_length_le (Nat.le_add_left 2 n)
    rw [e] at h
    obtain ⟨x, rest, rfl, hx, hrest⟩ := List.map_eq_cons_iff.mp h
    obtain ⟨y, rest, rfl, hy, hrest⟩ := List.map_eq_cons_iff.mp hrest
    obtain rfl := List.map_eq_nil_iff.mp hrest
    exact .inr (.inr ⟨Nat.le_add_left 2 n, x, y, rfl, hx, hy⟩)

/-- a cut message starts with a cut header, or with a header, (a part of) its payload, and then
a cut of what follows -/
theorem cut_cons {c : Chunk} {m : Message} {n : Nat} {xs : List (UInt8 × Bool)}
    (h : xs.map Prod.fst = (frame (c :: m)).take n) :
    (n = 0 ∧ xs = []) ∨ (n = 1 ∧ ∃ x, xs = [x] ∧ x.1 = c.hi) ∨
      (2 ≤ n ∧ ∃ x y body rest, xs = x :: y :: (body ++ rest) ∧ x.1 = c.hi ∧ y.1 = c.lo ∧
        body = (xs.drop 2).take c.payload.length ∧ rest = xs.drop (2 + c.payload.length) ∧
        body.map Prod.fst = c.payload.take (n - 2) ∧
        rest.map Prod.fst = (frame m).take (n - (2 + c.payload.length))) := by
  rw [frame_cons] at h
  rcases n with _ | _ | n
  · exact .inl ⟨rfl, List.map_eq_nil_iff.mp h⟩
  · obtain ⟨x, rest, rfl, hx, hrest⟩ := List.map_eq_cons_iff.mp h
    obtain rfl := List.map_eq_nil_iff.mp hrest
    exact .inr (.inl ⟨rfl, x, rfl, hx⟩)
  · obtain ⟨x, zs, rfl, hx, h⟩ := List.map_eq_cons_iff.mp h
    obtain ⟨y, zs, rfl, hy, h⟩ := List.map_eq_cons_iff.mp h
    right; right
    refine ⟨Nat.le_add_left 2 n, x, y, zs.take c.payload.length, zs.drop c.payload.length, ?_, hx, hy,
      rfl, ?_, ?_, ?_⟩
    · rw [List.take_append_drop]
    · rw [← List.drop_drop]
      rfl
    · rw [List.map_take, h, List.take_take, List.take_append_of_le_length (Nat.min_le_left _ _),
        Nat.min_comm, ← List.take_take, List.take_length]
      rfl
    · have e : n - c.payload.length = n + 1 + 1 - (2 + c.payload.length) := by omega
      rw [List.map_drop, h, List.drop_take, List.drop_left, e]

/-- a part of a payload -/
theorem run_body (maxSize maxSegs : Nat) {size : Nat} (h0 : 0 < size) {body : List (UInt8 × Bool)}
    (h : body.length ≤ size) (segs : List (List UInt8)) :
    ∃ opn, (deframer maxSize maxSegs).run ⟨.payload size, segs, false⟩ body
        = (⟨if body.length = size then .header else .payload (size - body.length),
          segs ++ pieces body, opn⟩, []) ∧
      (body.length = size → opn = false) ∧ (opn = true → body ≠ []) := by
  by_cases hne : body = []
  · subst hne
    refine ⟨false, ?_, fun _ => rfl, fun e => by cases e⟩
    rw [List.length_nil, if_neg (by omega), Nat.sub_zero]
    show _ = ((⟨.payload size, segs ++ [], false⟩ : Deframe UInt8), _)
    rw [List.append_nil]
    rfl
  · rw [run_pieces maxSize maxSegs h hne]
    by_cases hfull : body.length = size
    · refine ⟨false, ?_, fun _ => rfl, fun _ => hne⟩
      rw [if_pos hfull, hfull, Nat.sub_self]
      rfl
    · refine ⟨true, ?_, fun e => absurd e hfull, fun _ => hne⟩
      rw [if_neg hfull]
      unfold owing
      rw [if_neg (by omega)]

/-- **An unfinished message**: the deframer holds what was seen of it. -/
theorem run_held (maxSize maxSegs : Nat) (m : Message) :
    ∀ {n : Nat} {xs : List (UInt8 × Bool)}, n < m.frame.length →
    xs.map Prod.fst = m.frame.take n → ∀ segs : List (List UInt8),
    ∃ segs' opn, (deframer maxSize maxSegs).run ⟨.header, segs, false⟩ xs
        = (⟨heldPhase m n, segs', opn⟩, []) ∧
      segs'.flatten = segs.flatten ++ heldPayload m n := by
  induction m with
  | nil =>
    intro n xs hn hx segs
    rcases cut_nil hx with ⟨rfl, rfl⟩ | ⟨rfl, x, rfl, hx1⟩ | ⟨h2, _⟩
    · exact ⟨segs, false, rfl, (List.append_nil _).symm⟩
    · have e : heldPhase [] 1 = .header2 x.1 := by
        rw [hx1]
        rfl
      refine ⟨segs, false, ?_, (List.append_nil _).symm⟩
      rw [e]
      rfl
    · have hlen : (frame []).length = 2 := rfl
      omega
  | cons c m ih =>
    intro n xs hn hx segs
    rw [frame_length_cons] at hn
    rcases cut_cons hx with ⟨rfl, rfl⟩ | ⟨rfl, x, rfl, hx1⟩ |
      ⟨h2, x, y, body, rest, rfl, hx1, hy1, -, -, hbody, hrest⟩
    · refine ⟨segs, false, rfl, ?_⟩
      rw [heldPayload_zero, List.append_nil]
    · have e : heldPhase (c :: m) 1 = .header2 x.1 := by
        rw [hx1]
        rfl
      refine ⟨segs, false, ?_, ?_⟩
      · rw [e]
        rfl
      · rw [heldPayload_cut (Nat.le_add_right_of_le (Nat.le_succ 1))]
        exact (List.append_nil _).symm
    · have hlen : body.length = min (n - 2) c.payload.length := by
        rw [← List.length_map (f := Prod.fst), hbody, List.length_take]
      obtain ⟨opn, hrun, hopn, -⟩ := run_body maxSize maxSegs c.pos
        (hlen.le.trans (Nat.min_le_right _ _)) segs
      have hflat : (segs ++ pieces body).flatten = segs.flatten ++ c.payload.take (n - 2) := by
        rw [List.flatten_append, pieces_flatten, hbody]
      rw [run_header c.headerSize c.pos hx1 hy1, Scanner.run_append, hrun]
      by_cases hcut : n < 2 + c.payload.length
      · -- the payload is cut
        rw [Nat.sub_eq_zero_of_le hcut.le, List.take_zero] at hrest
        obtain rfl := List.map_eq_nil_iff.mp hrest
        have e : c.payload.length - body.length = 2 + c.payload.length - n := by omega
        refine ⟨segs ++ pieces body, opn, ?_, ?_⟩
        · rw [heldPhase_cut h2 hcut, if_neg (by omega), e]
          rfl
        · rw [heldPayload_cut hcut.le, hflat]
      · -- the chunk is whole
        obtain rfl := hopn (by omega)
        obtain ⟨segs', opn', hrun', hflat'⟩ := ih (by omega) hrest (segs ++ pieces body)
        refine ⟨segs', opn', ?_, ?_⟩
        · rw [heldPhase_later (Nat.not_lt.mp hcut), if_pos (by omega)]
          show (((deframer maxSize maxSegs).run ⟨.header, segs ++ pieces body, false⟩ rest).1,
            [] ++ ((deframer maxSize maxSegs).run ⟨.header, segs ++ pieces body, false⟩ rest).2) = _
          rw [hrun']
          rfl
        · rw [hflat', hflat, heldPayload_cons, List.append_assoc]

/-! ### what is not refused -/

theorem clean_header {c : Chunk} {x y : UInt8 × Bool} (hx : x.1 = c.hi) (hy : y.1 = c.lo)
    {segs : List (List UInt8)} (hsize : segs.flatten.length + c.payload.length ≤ maxSize)
    (opn : Bool) {rest : List (UInt8 × Bool)}
    (h : (deframer maxSize maxSegs).Clean ⟨.payload c.payload.length, segs, false⟩ rest) :
    (deframer maxSize maxSegs).Clean ⟨.header, segs, opn⟩ (x :: y :: rest) := by
  have hs : headerSize (Octet.val x.1) (Octet.val y.1) = c.payload.length := by
    rw [hx, hy]
    exact c.headerSize
  have hne : headerSize (Octet.val x.1) (Octet.val y.1) ≠ 0 := by
    rw [hs]
    exact c.pos.ne'
  refine ⟨rfl, ?_, ?_⟩
  · refine if_neg ?_
    rintro ⟨_, hlt⟩
    rw [hs] at hlt
    exact absurd hsize (Nat.not_le_of_lt hlt)
  · have e : (deframer maxSize maxSegs).next ⟨.header2 (Octet.val x.1), segs, opn⟩ y
        = (⟨.payload c.payload.length, segs, false⟩, none) := by
      rw [← hs]
      exact next_chunk hne segs opn
    show (deframer maxSize maxSegs).Clean
      ((deframer maxSize maxSegs).next ⟨.header2 (Octet.val x.1), segs, opn⟩ y).1 rest
    rw [e]
    exact h

/-- a message within the limits is not refused, whole or cut -/
theorem clean_frame (m : Message) : ∀ {n k : Nat} {xs : List (UInt8 × Bool)} {idx : List Nat},
    Stamped k xs idx → xs.map Prod.fst = m.frame.take n → ∀ segs : List (List UInt8),
    segs.flatten.length + m.size ≤ maxSize → segs.length + fragments idx m ≤ maxSegs →
    (deframer maxSize maxSegs).Clean ⟨.header, segs, false⟩ xs := by
  induction m with
  | nil =>
    intro n k xs idx _ hx segs _ _
    rcases cut_nil hx with ⟨rfl, rfl⟩ | ⟨rfl, x, rfl, hx1⟩ | ⟨h2, x, y, rfl, hx1, hy1⟩
    · trivial
    · exact ⟨rfl, trivial⟩
    · have hs : headerSize (Octet.val x.1) (Octet.val y.1) = 0 := by
        rw [hx1, hy1]
        rfl
      exact ⟨rfl, if_neg fun h => h.1 hs, trivial⟩
  | cons c m ih =>
    intro n k xs idx hst hx segs hsize hsegs
    rw [size_cons] at hsize
    rw [fragments_cons] at hsegs
    rcases cut_cons hx with ⟨rfl, rfl⟩ | ⟨rfl, x, rfl, hx1⟩ |
      ⟨h2, x, y, body, rest, hxs, hx1, hy1, hb, hr, hbody, hrest⟩
    · trivial
    · exact ⟨rfl, trivial⟩
    · have hlen : body.length = min (n - 2) c.payload.length := by
        rw [← List.length_map (f := Prod.fst), hbody, List.length_take]
      obtain ⟨j, hj⟩ := hst.drop 2
      have hstBody := hj.take c.payload.length
      obtain ⟨j', hstRest⟩ := hst.drop (2 + c.payload.length)
      rw [← hb] at hstBody
      rw [← hr] at hstRest
      have hpieces := hstBody.pieces_length
      rw [hxs]
      refine clean_header hx1 hy1 (by omega) false ?_
      rw [Scanner.clean_append]
      refine ⟨clean_payload (hlen.le.trans (Nat.min_le_right _ _)) (fun h => by cases h) ?_, ?_⟩
      · rw [extend_false, List.length_append, hpieces]
        omega
      · by_cases hcut : n ≤ 2 + c.payload.length
        · have e : n - (2 + c.payload.length) = 0 := by omega
          rw [e, List.take_zero] at hrest
          obtain rfl := List.map_eq_nil_iff.mp hrest
          trivial
        · obtain ⟨opn, hrun, hopn, -⟩ := run_body maxSize maxSegs c.pos
            (hlen.le.trans (Nat.min_le_right _ _)) segs
          obtain rfl := hopn (by omega)
          rw [hrun, if_pos (by omega)]
          refine ih hstRest hrest (segs ++ pieces body) ?_ ?_
          · rw [List.flatten_append, pieces_flatten, hbody, List.length_append, List.length_take]
            omega
          · rw [List.length_append, hpieces]
            omega

/-- **Messages within the limits are not refused**, and neither is a cut one after them. -/
theorem clean_wire (msgs : List Message) (last : Message) (n : Nat) :
    ∀ {k : Nat} {xs : List (UInt8 × Bool)} {idx : List Nat}, Stamped k xs idx →
    xs.map Prod.fst = wire msgs ++ last.frame.take n →
    WithinLimits maxSize maxSegs idx (msgs ++ [last]) →
    (deframer maxSize maxSegs).Clean start xs := by
  induction msgs with
  | nil =>
    intro k xs idx hst hx hlim
    exact clean_frame last hst hx [] (by simpa using hlim.1.1) (by simpa using hlim.1.2)
  | cons m msgs ih =>
    intro k xs idx hst hx hlim
    rw [wire_cons, List.append_assoc] at hx
    obtain ⟨first, rest, rfl, hfirst, hrest⟩ := List.map_eq_append_iff.mp hx
    have hlen : first.length = m.frame.length := by rw [← hfirst, List.length_map]
    have hidx := hst.length_eq
    rw [List.length_append] at hidx
    have h1 := hst.take first.length
    obtain ⟨j, h2⟩ := hst.drop first.length
    rw [List.take_left] at h1
    rw [List.drop_left, hlen] at h2
    obtain ⟨⟨hsize, hsegs⟩, hrestlim⟩ := hlim
    rw [Scanner.clean_append]
    constructor
    · have hcut : first.map Prod.fst = m.frame.take m.frame.length := by
        rw [hfirst, List.take_length]
      have henc : m.encode.length ≤ first.length := by
        rw [hlen, frame, List.length_append]
        exact Nat.le_add_right _ _
      have hfrag := fragments_take m idx henc (by omega)
      refine clean_frame m h1 hcut [] (by simpa using hsize) ?_
      rw [hfrag]
      simpa using hsegs
    · obtain ⟨segs, hrun, _⟩ := run_frame maxSize maxSegs m h1 hfirst
      rw [hrun]
      exact ih h2 hrest hrestlim

end Deframe
end Bolt
