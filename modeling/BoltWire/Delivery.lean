import BoltWire.Dechunk
import BoltWire.Rejection

/-!
# Which messages a failing connection still delivers

`feed` collects its messages in a local list and drops it when a later byte of the same feed is
refused, so a message is lost exactly when its end marker and the refused byte share a feed.

* `delivered`      the messages of the feeds that returned some;
* `Completes`      the messages that are complete in a stream;
* `Lossless`       every message completed before the first violation is delivered, by the feed that
                   holds its end marker;
* `EndsEarlier`    no end marker lies in the feed of the first violation, before it;
* `lossless_iff`   the two are the same.
-/

set_option linter.unusedSectionVars false

namespace Bolt
open Rust Message

namespace ChunkDecoder
variable {maxSize maxSegs : Usize}

/-- the messages of the calls that returned some -/
def delivered {β : Type} : List (Res ChunkError (List (MessageBuf β))) → List (MessageBuf β)
  | [] => []
  | .ok messages :: rest => messages ++ delivered rest
  | _ :: rest => delivered rest

theorem delivered_append {β : Type} (a b : List (Res ChunkError (List (MessageBuf β)))) :
    delivered (a ++ b) = delivered a ++ delivered b := by
  induction a with
  | nil => rfl
  | cons r a ih =>
    rw [List.cons_append]
    cases r with
    | ok messages => rw [delivered, delivered, ih, List.append_assoc]
    | err e => exact ih
    | panic => exact ih
    | spin => exact ih

theorem delivered_ok {β : Type} (outs : List (List (MessageBuf β))) :
    delivered (outs.map Res.ok) = outs.flatten := by
  induction outs with
  | nil => rfl
  | cons o outs ih => rw [List.map_cons, delivered, ih, List.flatten_cons]

/-- `msgs` are complete in `s`, and an unfinished message follows -/
def Completes (s : Bytes) (msgs : List Message) : Prop :=
  ∃ (last : Message) (n : Nat), n < last.frame.length ∧ s = wire msgs ++ last.frame.take n

/-- the byte at place `i` completes the earliest event -/
def FirstViolation (maxSize maxSegs : Nat) (fs : List Bytes) (i : Nat) : Prop :=
  ∃ e, ViolatesAt maxSize maxSegs fs i e ∧ ∀ j < i, ∀ e', ¬ ViolatesAt maxSize maxSegs fs j e'

def Lossless (maxSize maxSegs : Usize) (fs : List Bytes) : Prop :=
  ∀ i msgs, FirstViolation maxSize.val maxSegs.val fs i → Completes (fs.flatten.take i) msgs →
    ∀ k, (delivered ((feeds fs (fresh maxSize maxSegs)).1.take k)).map MessageBuf.payload
      = (completed (fs.take k).flatten.length msgs).map payload

def EndsEarlier (maxSize maxSegs : Nat) (fs : List Bytes) : Prop :=
  ∀ i msgs, FirstViolation maxSize maxSegs fs i → Completes (fs.flatten.take i) msgs →
    ∀ done data todo, fs = done ++ data :: todo → done.flatten.length ≤ i →
      i < done.flatten.length + data.length → (wire msgs).length ≤ done.flatten.length

theorem completes_cut (msgs : List Message) (m : Message) (c : Chunk) {k : Nat}
    (hk : k ≤ c.encode.length) : Completes (wire msgs ++ (m.encode ++ c.encode.take k)) msgs := by
  have e : frame (m ++ [c]) = m.encode ++ (c.encode ++ [0, 0]) := by
    rw [frame, encode_append, encode_cons, encode_nil, List.append_nil, List.append_assoc]
  refine ⟨m ++ [c], m.encode.length + k, ?_, ?_⟩
  · rw [e, List.length_append, List.length_append, List.length_cons]
    omega
  · rw [e, List.take_length_add_append, List.take_append_of_le_length hk]

/-- every stream has its completed messages -/
theorem exists_completes (s : Bytes) : ∃ msgs, Completes s msgs := by
  have hp := Deframe.parsed 0 0 (s.map fun b => (b, false))
  have hs : (s.map fun b => (b, false)).map Prod.fst = s := by
    rw [List.map_map]
    exact List.map_id s
  rw [hs] at hp
  generalize ((deframer 0 0).run Deframe.start (s.map fun b => (b, false))).1.phase = phase at hp
  cases hp with
  | header msgs m =>
    refine ⟨msgs, m, m.encode.length, ?_, ?_⟩
    · rw [frame, List.length_append]
      exact Nat.lt_add_of_pos_right Nat.zero_lt_two
    · rw [frame, List.take_left]
  | header2 msgs m hi =>
    -- a chunk whose header begins with `hi`
    have hlen : headerSize hi 1 = (List.replicate (hi.toNat * 256 + 1) (0 : UInt8)).length := by
      rw [headerSize_eq, List.length_replicate]
      rfl
    obtain ⟨c, hc, henc⟩ := Chunk.of_header hlen (by simp)
    have hcut := completes_cut msgs m c (k := 1) (by rw [Chunk.encode_length]; omega)
    rw [henc] at hcut
    exact ⟨msgs, hcut⟩
  | @payload msgs m hi lo part owed h h0 =>
    have hlen : headerSize hi lo = (part ++ List.replicate owed 0).length := by
      rw [List.length_append, List.length_replicate, h]
    obtain ⟨c, hc, henc⟩ := Chunk.of_header hlen (by
      intro e
      rw [e, List.length_nil] at hlen
      omega)
    have hcut := completes_cut msgs m c (k := 2 + part.length) (by
      rw [henc, List.length_cons, List.length_cons, List.length_append]
      omega)
    have e : c.encode.take (2 + part.length) = hi :: lo :: part := by
      rw [henc, Nat.add_comm, List.take_succ_cons, List.take_succ_cons, List.take_left]
    rw [e] at hcut
    exact ⟨msgs, hcut⟩

theorem completed_eq_self {msgs : List Message} {n : Nat} (h : (wire msgs).length ≤ n) :
    completed n msgs = msgs := by
  induction msgs generalizing n with
  | nil => rfl
  | cons m msgs ih =>
    rw [wire_cons, List.length_append] at h
    rw [completed, if_pos (by omega), ih (by omega)]

theorem wire_length_le {msgs : List Message} {n : Nat}
    (h : (completed n msgs).length = msgs.length) : (wire msgs).length ≤ n := by
  induction msgs generalizing n with
  | nil => exact Nat.zero_le n
  | cons m msgs ih =>
    rw [completed] at h
    split at h
    case isTrue hle =>
      rw [List.length_cons, List.length_cons] at h
      have := ih (Nat.succ.inj h)
      rw [wire_cons, List.length_append]
      omega
    case isFalse => cases h

/-! ## what a failing connection delivers -/

theorem delivered_errs (e : ChunkError) (todo : List Bytes) (n : Nat) :
    delivered ((.err e :: todo.map fun _ => (.err .defunct : Res ChunkError
      (List (MessageBuf UInt8)))).take n) = [] := by
  have htail : ∀ (todo : List Bytes) (n : Nat), delivered ((todo.map fun _ =>
      (.err .defunct : Res ChunkError (List (MessageBuf UInt8)))).take n) = [] := by
    intro todo
    induction todo with
    | nil =>
      intro n
      rw [List.map_nil, List.take_nil]
      rfl
    | cons data todo ih =>
      intro n
      cases n with
      | zero => rfl
      | succ n => exact ih n
  cases n with
  | zero => rfl
  | succ n => exact htail todo n

/-- the feeds before the failing one are the only ones that deliver -/
theorem FailsAt.split {fs : List Bytes} {i : Nat} {e : ChunkError}
    (h : FailsAt maxSize maxSegs fs i e) :
    ∃ done data todo, fs = done ++ data :: todo ∧ done.flatten.length ≤ i ∧
      i < done.flatten.length + data.length ∧ AllOk maxSize maxSegs done ∧
      ∀ k, delivered ((feeds fs (fresh maxSize maxSegs)).1.take k)
        = delivered ((feeds done (fresh maxSize maxSegs)).1.take k) := by
  obtain ⟨done, data, todo, j, outs, rfl, hj, rfl, -, hcut, hres⟩ := h
  have hlen := congrArg List.length hcut
  rw [feeds_length, List.length_append, List.length_append, List.length_map] at hlen
  have houts : done.length = outs.length := Nat.succ.inj hlen
  rw [feeds_append] at hres
  obtain ⟨hdone, hrest⟩ := List.append_inj hres
    (by rw [feeds_length, List.length_map]; exact houts)
  refine ⟨done, data, todo, rfl, Nat.le_add_right _ _, Nat.add_lt_add_left hj _, ⟨outs, hdone⟩, ?_⟩
  intro k
  rw [feeds_append, hrest, List.take_append, delivered_append, delivered_errs, List.append_nil]

/-- the payloads that feeds without an error deliver -/
theorem delivered_allOk {fs : List Bytes} (h : AllOk maxSize maxSegs fs) {msgs : List Message}
    {last : Message} {n : Nat} (hn : n < last.frame.length) {t : Bytes}
    (hfs : fs.flatten ++ t = wire msgs ++ last.frame.take n) (k : Nat) :
    (delivered ((feeds fs (fresh maxSize maxSegs)).1.take k)).map MessageBuf.payload
      = (completed (fs.take k).flatten.length msgs).map payload := by
  rw [allOk_iff] at h
  have hmap : ∀ bs : List (List (List (List UInt8))), delivered ((bs.map emitted).take k)
      = ((bs.map fun outs => outs.map MessageBuf.fromChunks).take k).flatten := by
    intro bs
    rw [← List.map_take, ← List.map_take, map_emitted, delivered_ok]
  rw [fresh_eq_decoderOf, feeds_clean fs Deframe.Inv.start h, hmap, ← List.map_take,
    Scanner.batches_take, ← List.map_take, batches_payloads]
  obtain ⟨last', n', hn', hcut⟩ := take_wire msgs last hn (fs.take k).flatten.length
  have hle : (fs.take k).flatten.length ≤ fs.flatten.length := by
    rw [flatten_take, List.length_take]
    exact Nat.min_le_right _ _
  have hx : (marks (fs.take k)).map Prod.fst
      = wire (completed (fs.take k).flatten.length msgs) ++ last'.frame.take n' := by
    rw [marks_fst, ← hcut, ← hfs, List.take_append_of_le_length hle]
    exact flatten_take fs k
  exact (run_stream maxSize.val maxSegs.val _ last' hn' (Stamped.marks _) hx).2.2

/-- the feed that holds a given byte -/
theorem feed_unique {a a' : List Bytes} {x x' : Bytes} {b b' : List Bytes} {i : Nat}
    (h : a ++ x :: b = a' ++ x' :: b') (h1 : a.flatten.length ≤ i)
    (h2 : i < a.flatten.length + x.length) (h1' : a'.flatten.length ≤ i)
    (h2' : i < a'.flatten.length + x'.length) : a = a' := by
  induction a generalizing a' i with
  | nil =>
    cases a' with
    | nil => rfl
    | cons y a' =>
      obtain ⟨rfl, -⟩ := List.cons.inj h
      rw [List.flatten_cons, List.length_append] at h1'
      rw [List.flatten_nil, List.length_nil] at h2
      omega
  | cons y a ih =>
    rw [List.flatten_cons, List.length_append] at h1 h2
    cases a' with
    | nil =>
      obtain ⟨rfl, -⟩ := List.cons.inj h
      rw [List.flatten_nil, List.length_nil] at h2'
      omega
    | cons y' a' =>
      obtain ⟨rfl, ht⟩ := List.cons.inj h
      rw [List.flatten_cons, List.length_append] at h1' h2'
      rw [ih (i := i - y.length) ht (by omega) (by omega) (by omega) (by omega)]

/-- **When no message is lost**: exactly when every first violation lies in a feed that holds no end
marker before it. -/
theorem lossless_iff (maxSize maxSegs : Usize) (fs : List Bytes) :
    Lossless maxSize maxSegs fs ↔ EndsEarlier maxSize.val maxSegs.val fs := by
  have hdone : ∀ i msgs, FirstViolation maxSize.val maxSegs.val fs i →
      Completes (fs.flatten.take i) msgs → ∃ done data todo, fs = done ++ data :: todo ∧
        done.flatten.length ≤ i ∧ i < done.flatten.length + data.length ∧ (wire msgs).length ≤ i ∧
        ∀ k, (delivered ((feeds fs (fresh maxSize maxSegs)).1.take k)).map MessageBuf.payload
          = (completed (done.take k).flatten.length msgs).map payload := by
    rintro i msgs ⟨e, hv⟩ ⟨last, n, hn, hcut⟩
    have hfail := (failsAt_iff_violates maxSize maxSegs fs i e).mpr hv
    obtain ⟨done, data, todo, rfl, h1, h2, hok, hdel⟩ := hfail.split
    refine ⟨done, data, todo, rfl, h1, h2, ?_, ?_⟩
    · have hlen := congrArg List.length hcut
      rw [List.length_take, List.length_append] at hlen
      omega
    · intro k
      rw [hdel k]
      rw [List.flatten_append, List.take_append, List.take_of_length_le h1] at hcut
      exact delivered_allOk hok hn hcut k
  constructor
  · intro hl i msgs hv hc done data todo hfs h1 h2
    obtain ⟨done', data', todo', hfs', h1', h2', hwire, hdel⟩ := hdone i msgs hv hc
    obtain rfl := feed_unique (hfs.symm.trans hfs') h1 h2 h1' h2'
    have hk := hl i msgs hv hc (done.length + 1)
    have htake : fs.take (done.length + 1) = done ++ [data] := by
      rw [hfs, List.take_length_add_append]
      rfl
    have hlong : (wire msgs).length ≤ (done ++ [data]).flatten.length := by
      rw [List.flatten_append, List.length_append, List.flatten_singleton]
      omega
    rw [hdel, List.take_of_length_le (Nat.le_succ _), htake, completed_eq_self hlong] at hk
    have hlen := congrArg List.length hk
    rw [List.length_map, List.length_map] at hlen
    exact wire_length_le hlen
  · intro he i msgs hv hc k
    obtain ⟨done, data, todo, rfl, h1, h2, hwire, hdel⟩ := hdone i msgs hv hc
    have hend := he i msgs hv hc done data todo rfl h1 h2
    rw [hdel k]
    by_cases hk : k ≤ done.length
    · rw [List.take_append_of_le_length hk]
    · have hlong : (wire msgs).length ≤ ((done ++ data :: todo).take k).flatten.length := by
        rw [List.take_append, List.flatten_append, List.length_append,
          List.take_of_length_le (by omega)]
        omega
      rw [List.take_of_length_le (by omega), completed_eq_self hend, completed_eq_self hlong]

/-- one complete message and a header that is too large: in one feed the message is lost, in two
feeds it is delivered, although the violating byte is the same -/
theorem not_lossless_one_feed :
    ¬ Lossless 4 1024 [[0, 1, 170, 0, 0, 0, 5]] ∧
    (delivered (feeds [[0, 1, 170, 0, 0, 0, 5]] (fresh 4 1024 : ChunkDecoder UInt8)).1 = [] ∧
     delivered (feeds [[0, 1, 170, 0, 0], [0, 5]] (fresh 4 1024 : ChunkDecoder UInt8)).1
      = [MessageBuf.fromChunks [[170]]]) := by
  refine ⟨fun h => ?_, by decide, by decide⟩
  have hfail : FailsAt 4 1024 ([[0, 1, 170, 0, 0, 0, 5]] : List Bytes) 6 (.messageTooLarge 5 4) :=
    ⟨[], [0, 1, 170, 0, 0, 0, 5], [], 6, [], rfl, by decide, rfl,
      ⟨[[MessageBuf.fromChunks [[170]]]], by decide⟩, by decide, by decide⟩
  have hv := (failsAt_iff_violates _ _ _ _ _).mp hfail
  have hc : Completes (([[0, 1, 170, 0, 0, 0, 5]] : List Bytes).flatten.take 6)
      [[⟨[170], by decide, by decide⟩]] := ⟨[], 1, by decide, by decide⟩
  have hk := h 6 _ ⟨_, hv⟩ hc 1
  exact absurd hk (by decide)

end ChunkDecoder
end Bolt
