import BoltWire.Framing

/-!
# A decoder keeps nothing of the messages it has emitted

* `behind n fs`      the feeds of a stream without its first `n` bytes;
* `markFirst`, `marks_behind`   a feed that begins later is marked later;
* `run_markFirst`, `badAt_markFirst`   between two messages a mark means nothing;
* `failsAt_behind`, `run_marks_behind`   the errors and the run behind the messages of a stream;
* `delivered_behind`   the further messages of feeds that return `Ok`;
* `feeds_restart`    what comes after a message fares as on a fresh decoder, whether it fails or not.
-/

set_option linter.unusedSectionVars false

namespace Bolt
open Rust Message

section
variable {β : Type}

/-- feeds that were used up are gone, and the one that was cut begins later -/
def behind : Nat → List (List β) → List (List β)
  | _, [] => []
  | n, data :: fs =>
    if data.length ≤ n then behind (n - data.length) fs else data.drop n :: fs

/-- the feed that is cut is the one that holds the byte `n` -/
theorem behind_append {done : List (List β)} {data : List β} (todo : List (List β)) {n : Nat}
    (h : n < done.flatten.length + data.length) :
    behind n (done ++ data :: todo) = behind n done ++ data.drop (n - done.flatten.length) :: todo := by
  induction done generalizing n with
  | nil =>
    rw [List.flatten_nil, List.length_nil, Nat.zero_add] at h
    show behind n (data :: todo) = data.drop n :: todo
    rw [behind, if_neg (Nat.not_le_of_lt h)]
  | cons first done ih =>
    rw [List.flatten_cons, List.length_append] at h ⊢
    rw [List.cons_append, behind, behind]
    by_cases hfirst : first.length ≤ n
    · rw [if_pos hfirst, if_pos hfirst, ih (by omega), Nat.sub_sub]
    · rw [if_neg hfirst, if_neg hfirst, Nat.sub_eq_zero_of_le (by omega)]
      rfl

theorem behind_length (fs : List (List β)) :
    ∀ n, (behind n fs).flatten.length = fs.flatten.length - n := by
  induction fs with
  | nil => exact fun n => (Nat.zero_sub n).symm
  | cons data fs ih =>
    intro n
    rw [behind, List.flatten_cons, List.length_append]
    split
    case isTrue h => rw [ih]; omega
    case isFalse h => rw [List.flatten_cons, List.length_append, List.length_drop]; omega

def markFirst : List (β × Bool) → List (β × Bool)
  | [] => []
  | (b, _) :: xs => (b, true) :: xs

theorem mark_behind (data : List β) {n : Nat} (h : n < data.length) (xs : List (β × Bool)) :
    mark (data.drop n) ++ xs = markFirst ((mark data).drop n ++ xs) := by
  cases data with
  | nil => exact absurd h (Nat.not_lt_zero n)
  | cons b t =>
    cases n with
    | zero => rfl
    | succ n =>
      obtain ⟨c, t', ht⟩ := List.exists_cons_of_ne_nil (l := t.drop n) (by
        intro e
        have := congrArg List.length e
        rw [List.length_drop, List.length_nil] at this
        rw [List.length_cons] at h
        omega)
      show mark (t.drop n) ++ xs = markFirst ((t.map fun b => (b, false)).drop n ++ xs)
      rw [← List.map_drop, ht]
      rfl

theorem marks_behind (fs : List (List β)) : ∀ n, marks (behind n fs) = markFirst ((marks fs).drop n) := by
  induction fs with
  | nil =>
    intro n
    show marks [] = markFirst (List.drop n [])
    rw [List.drop_nil]
    rfl
  | cons data fs ih =>
    intro n
    rw [behind, marks_cons, List.drop_append, mark_length]
    split
    case isTrue h =>
      have hnil : (mark data).drop n = [] := List.drop_of_length_le (by rw [mark_length]; exact h)
      rw [ih, hnil, List.nil_append]
    case isFalse h =>
      rw [Nat.sub_eq_zero_of_le (Nat.le_of_not_le h), List.drop_zero, marks_cons]
      exact mark_behind data (Nat.lt_of_not_le h) (marks fs)

end

namespace Deframe
variable {β : Type} [Octet β] {maxSize maxSegs : Nat}

section
variable (phase : Phase) (segs : List (List β)) (xs : List (β × Bool))

theorem run_markFirst : (deframer maxSize maxSegs).run ⟨phase, segs, false⟩ (markFirst xs)
    = (deframer maxSize maxSegs).run ⟨phase, segs, false⟩ xs := by
  cases xs with
  | nil => rfl
  | cons x xs =>
    have h : (deframer maxSize maxSegs).next ⟨phase, segs, false⟩ (x.1, true)
        = (deframer maxSize maxSegs).next ⟨phase, segs, false⟩ x :=
      (next_unmark phase segs x.1 true).trans (next_unmark phase segs x.1 x.2).symm
    show (deframer maxSize maxSegs).run _ ((x.1, true) :: xs) = _
    rw [Scanner.run_cons, Scanner.run_cons, h]

theorem badAt_markFirst (i : Nat) (e : ChunkError) :
    (deframer maxSize maxSegs).BadAt ⟨phase, segs, false⟩ (markFirst xs) i e ↔
      (deframer maxSize maxSegs).BadAt ⟨phase, segs, false⟩ xs i e := by
  cases xs with
  | nil => exact Iff.rfl
  | cons x xs =>
    have hnext : (deframer maxSize maxSegs).next ⟨phase, segs, false⟩ (x.1, true)
        = (deframer maxSize maxSegs).next ⟨phase, segs, false⟩ x :=
      (next_unmark phase segs x.1 true).trans (next_unmark phase segs x.1 x.2).symm
    have hbad : (deframer maxSize maxSegs).bad ⟨phase, segs, false⟩ (x.1, true)
        = (deframer maxSize maxSegs).bad ⟨phase, segs, false⟩ x :=
      (bad_unmark phase segs x.1 true).trans (bad_unmark phase segs x.1 x.2).symm
    show (deframer maxSize maxSegs).BadAt _ ((x.1, true) :: xs) i e ↔ _
    cases i with
    | zero => rw [Scanner.badAt_head, Scanner.badAt_head, hbad]
    | succ i => rw [Scanner.badAt_tail, Scanner.badAt_tail, hbad, hnext]

end
end Deframe

namespace ChunkDecoder
variable {maxSize maxSegs : Usize}

theorem feeds_allOk {fs : List Bytes} (h : AllOk maxSize maxSegs fs) :
    feeds fs (fresh maxSize maxSegs)
      = (((scanner maxSize maxSegs).batches .start (fs.map mark)).map emitted,
        decoderOf maxSize maxSegs ((scanner maxSize maxSegs).run .start (marks fs)).1) := by
  rw [fresh_eq_decoderOf]
  exact feeds_clean fs Deframe.Inv.start ((allOk_iff fs).mp h)

theorem feeds_failed {fs : List Bytes} {i : Nat} {e : ChunkError} (h : FailsAt maxSize maxSegs fs i e) :
    (feeds fs (fresh maxSize maxSegs)).2 = deadDecoder maxSize maxSegs := by
  rw [fresh_eq_decoderOf]
  rcases feeds_cases maxSize maxSegs .start fs with
    hc | ⟨done, data, todo, pre, x, post, e, rfl, hdata, hc, hx⟩
  · exact absurd hc ((failsAt_iff fs i e).mp h).not_clean
  · rw [feeds_bad Deframe.Inv.start done data todo hdata hc hx]

theorem delivered_run {fs : List Bytes} (h : AllOk maxSize maxSegs fs) :
    delivered (feeds fs (fresh maxSize maxSegs)).1
      = ((scanner maxSize maxSegs).run .start (marks fs)).2.map MessageBuf.fromChunks := by
  rw [feeds_allOk h, map_emitted, delivered_ok, ← List.map_flatten, Scanner.batches_flatten]
  rfl

section
variable {fs : List Bytes} {msgs : List Message} {rest : Bytes}
  (hfs : fs.flatten = wire msgs ++ rest)
  (hok : ∀ i e, FailsAt maxSize maxSegs fs i e → (wire msgs).length ≤ i)
include hfs hok

/-- the deframer behind the messages `msgs` -/
theorem run_behind :
    ∃ (xs : List (UInt8 × Bool)) (outs : List (List Bytes)),
      marks fs = xs ++ (marks fs).drop (wire msgs).length ∧
      xs.length = (wire msgs).length ∧ outs.length = msgs.length ∧
      (scanner maxSize maxSegs).Clean .start xs ∧
      (scanner maxSize maxSegs).run .start xs = (.start, outs) := by
  have hx : ((marks fs).take (wire msgs).length).map Prod.fst = wire msgs := by
    rw [List.map_take, marks_fst, hfs, List.take_left]
  have hlen : ((marks fs).take (wire msgs).length).length = (wire msgs).length := by
    rw [← List.length_map (f := Prod.fst), hx]
  obtain ⟨outs, hrun, houts⟩ := Deframe.run_wire maxSize.val maxSegs.val msgs
    ((Stamped.marks fs).take (wire msgs).length) hx
  have hcount := congrArg List.length houts
  rw [List.length_map, List.length_map] at hcount
  refine ⟨_, outs, (List.take_append_drop _ _).symm, hlen, hcount, ?_, hrun⟩
  rcases Scanner.clean_or_badAt (scanner maxSize maxSegs) .start ((marks fs).take (wire msgs).length)
    with hc | ⟨i, e, pre, x, post, htake, rfl, hc, hbad⟩
  · exact hc
  · have hfail : FailsAt maxSize maxSegs fs pre.length e := by
      rw [failsAt_iff]
      refine ⟨pre, x, post ++ (marks fs).drop (wire msgs).length, ?_, rfl, hc, hbad⟩
      rw [← List.cons_append, ← List.append_assoc, ← htake, List.take_append_drop]
    have hle := hok _ _ hfail
    rw [← hlen, htake, List.length_append, List.length_cons] at hle
    omega

theorem failsAt_behind (i : Nat) (e : ChunkError) :
    FailsAt maxSize maxSegs (behind (wire msgs).length fs) i e ↔
      FailsAt maxSize maxSegs fs ((wire msgs).length + i) e := by
  obtain ⟨xs, outs, hsplit, hlen, -, hc, hrun⟩ := run_behind hfs hok
  rw [failsAt_iff, failsAt_iff, marks_behind, Deframe.start, Deframe.badAt_markFirst, ← Deframe.start,
    ← hlen]
  have happ := Scanner.badAt_append _ hc ((marks fs).drop (wire msgs).length) i e
  rw [hrun, ← hsplit, ← hlen] at happ
  exact happ.symm

theorem run_marks_behind : ∃ outs : List (List Bytes), outs.length = msgs.length ∧
    (scanner maxSize maxSegs).run .start (marks fs)
      = (((scanner maxSize maxSegs).run .start (marks (behind (wire msgs).length fs))).1,
        outs ++ ((scanner maxSize maxSegs).run .start (marks (behind (wire msgs).length fs))).2) := by
  obtain ⟨xs, outs, hsplit, hlen, hcount, hc, hrun⟩ := run_behind hfs hok
  refine ⟨outs, hcount, ?_⟩
  rw [marks_behind, Deframe.start, Deframe.run_markFirst, ← Deframe.start, hsplit, Scanner.run_append,
    hrun, ← hsplit]

theorem allOk_behind : AllOk maxSize maxSegs (behind (wire msgs).length fs) ↔ AllOk maxSize maxSegs fs := by
  have hbad := failsAt_behind hfs hok
  rw [allOk_iff_not_failsAt, allOk_iff_not_failsAt]
  constructor
  · intro h i e hf
    obtain ⟨j, rfl⟩ := Nat.exists_eq_add_of_le (hok i e hf)
    exact h j e ((hbad j e).mpr hf)
  · intro h i e hf
    exact h _ e ((hbad i e).mp hf)

end

theorem delivered_behind {fs : List Bytes} {msgs : List Message} {rest : Bytes}
    (hfs : fs.flatten = wire msgs ++ rest) (h : AllOk maxSize maxSegs fs) :
    delivered (feeds (behind (wire msgs).length fs) (fresh maxSize maxSegs)).1
      = (delivered (feeds fs (fresh maxSize maxSegs)).1).drop msgs.length := by
  have hok : ∀ i e, FailsAt maxSize maxSegs fs i e → (wire msgs).length ≤ i := fun i e hf =>
    absurd hf (h.not_failsAt i e)
  obtain ⟨outs, hcount, hrun⟩ := run_marks_behind hfs hok
  rw [delivered_run ((allOk_behind hfs hok).mpr h), delivered_run h, hrun, List.map_append, ← hcount,
    List.drop_left' (List.length_map _)]

/-- feeds that end within the messages `msgs` deliver no others -/
theorem delivered_length_le {fs : List Bytes} {msgs : List Message} (h : fs.flatten <+: wire msgs) :
    (delivered (feeds fs (fresh maxSize maxSegs)).1).length ≤ msgs.length := by
  obtain ⟨more, hmore⟩ := h
  obtain ⟨first, hfirst⟩ := exists_completes fs.flatten
  have hpre := delivered_prefix maxSize maxSegs hfirst
  have hdel := hpre.length_le
  rw [List.length_map, List.length_map] at hdel
  exact hdel.trans (completes_mono hfirst (hmore ▸ completes_wire msgs)).length_le

theorem delivered_of_take {β : Type} {rs rs' : List (Res ChunkError (List (MessageBuf β)))}
    (h : ∀ k, delivered (rs.take k) = delivered (rs'.take k)) : delivered rs = delivered rs' := by
  have hall := h (max rs.length rs'.length)
  rwa [List.take_of_length_le (Nat.le_max_left _ _), List.take_of_length_le (Nat.le_max_right _ _)]
    at hall

/-- on both sides it is the feeds before the failing one that deliver -/
theorem delivered_behind_failsAt {fs : List Bytes} {msgs : List Message} {rest : Bytes}
    (hfs : fs.flatten = wire msgs ++ rest) {i : Nat} {e : ChunkError}
    (h : FailsAt maxSize maxSegs fs ((wire msgs).length + i) e)
    (h' : FailsAt maxSize maxSegs (behind (wire msgs).length fs) i e) :
    delivered (feeds (behind (wire msgs).length fs) (fresh maxSize maxSegs)).1
      = (delivered (feeds fs (fresh maxSize maxSegs)).1).drop msgs.length := by
  obtain ⟨done, data, todo, rfl, h1, h2, hdone, hdel⟩ := h.split
  obtain ⟨done', data', todo', hfs', h1', h2', -, hdel'⟩ := h'.split
  have hlen := behind_length done (wire msgs).length
  have hbehind := behind_append todo (Nat.lt_of_le_of_lt (Nat.le_add_right _ i) h2)
  obtain rfl := feed_unique (hbehind.symm.trans hfs') (by omega)
    (by rw [List.length_drop]; omega) h1' h2'
  rw [delivered_of_take hdel', delivered_of_take hdel]
  rw [List.flatten_append] at hfs
  have hwire : wire msgs <+: done.flatten ++ (data :: todo).flatten := ⟨rest, hfs.symm⟩
  by_cases hn : (wire msgs).length ≤ done.flatten.length
  · obtain ⟨rest', hrest⟩ := List.prefix_of_prefix_length_le hwire (List.prefix_append _ _) hn
    exact delivered_behind hrest.symm hdone
  · -- the failing feed holds the end of `msgs`, so nothing behind it was delivered
    have hpre : done.flatten <+: wire msgs :=
      List.prefix_of_prefix_length_le (List.prefix_append _ _) hwire (by omega)
    have hempty : (behind (wire msgs).length done).flatten <+: wire [] := by
      rw [List.eq_nil_of_length_eq_zero (hlen.trans (by omega))]
      exact List.nil_prefix
    rw [List.drop_of_length_le (delivered_length_le hpre)]
    exact List.eq_nil_of_length_eq_zero (Nat.le_zero.mp (delivered_length_le hempty))

/-- **A decoder keeps nothing of the messages it has emitted.**  Behind the messages `msgs`, of which no
byte is refused, a decoder ends like a fresh one that is fed only what comes after them: in the same
state, with the same error at the same byte, and with the same further messages, segment for segment,
also where it fails. -/
theorem feeds_restart {fs : List Bytes} {msgs : List Message} {rest : Bytes}
    (hfs : fs.flatten = wire msgs ++ rest)
    (hok : ∀ i e, FailsAt maxSize maxSegs fs i e → (wire msgs).length ≤ i) :
    (feeds (behind (wire msgs).length fs) (fresh maxSize maxSegs)).2
      = (feeds fs (fresh maxSize maxSegs)).2 ∧
    (∀ i e, FailsAt maxSize maxSegs (behind (wire msgs).length fs) i e ↔
      FailsAt maxSize maxSegs fs ((wire msgs).length + i) e) ∧
    delivered (feeds (behind (wire msgs).length fs) (fresh maxSize maxSegs)).1
      = (delivered (feeds fs (fresh maxSize maxSegs)).1).drop msgs.length := by
  have hbad := failsAt_behind hfs hok
  refine ⟨?_, hbad, ?_⟩
  · rcases allOk_or_failsAt maxSize maxSegs fs with h | ⟨i, e, h⟩
    · obtain ⟨outs, -, hrun⟩ := run_marks_behind hfs hok
      rw [feeds_allOk ((allOk_behind hfs hok).mpr h), feeds_allOk h, hrun]
    · obtain ⟨i, rfl⟩ := Nat.exists_eq_add_of_le (hok i e h)
      rw [feeds_failed ((hbad i e).mpr h), feeds_failed h]
  · rcases allOk_or_failsAt maxSize maxSegs fs with h | ⟨i, e, h⟩
    · exact delivered_behind hfs h
    · obtain ⟨i, rfl⟩ := Nat.exists_eq_add_of_le (hok i e h)
      exact delivered_behind_failsAt hfs h ((hbad i e).mpr h)

/-- behind the first of two messages, in feeds of which the last one fails -/
theorem feeds_restart_two :
    delivered (feeds ([[0, 1], [9, 0, 0], [0, 3]] : List Bytes) (fresh 2 2)).1
      = (delivered (feeds ([[0, 2, 7, 8, 0, 0, 0, 1], [9, 0, 0], [0, 3]] : List Bytes)
        (fresh 2 2)).1).drop 1 := by
  have hfail : FailsAt 2 2 ([[0, 2, 7, 8, 0, 0, 0, 1], [9, 0, 0], [0, 3]] : List Bytes) 12
      (.messageTooLarge 3 2) :=
    ⟨[[0, 2, 7, 8, 0, 0, 0, 1], [9, 0, 0]], [0, 3], [], 1, [[⟨[[7, 8]], 2⟩], [⟨[[9]], 1⟩]], rfl,
      by decide, rfl, ⟨[[⟨[[7, 8]], 2⟩], [⟨[[9]], 1⟩], []], by decide⟩, by decide, by decide⟩
  refine (@feeds_restart 2 2 [[0, 2, 7, 8, 0, 0, 0, 1], [9, 0, 0], [0, 3]]
    [[⟨[7, 8], by decide, by decide⟩]] [0, 1, 9, 0, 0, 0, 3] rfl fun i e hf => ?_).2.2
  obtain ⟨rfl, -⟩ := hf.unique hfail
  decide

end ChunkDecoder
end Bolt
