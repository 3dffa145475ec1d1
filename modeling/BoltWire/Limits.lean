import BoltWire.Lib.Thresholds
import BoltWire.Framing
import BoltWire.Pipeline

/-!
# The limits of a decoder

* `sizeDemand`, `segsDemand`   what a byte asks of either limit;
* `bad_none_iff`     a byte is refused exactly when it asks for more than it is given;
* `deframer_laxer`   higher limits refuse less;
* `allOk_wire_iff`   framed messages are accepted exactly when each of them is within the limits;
* `feeds_limits`     the two limits act on their own, and raising one never does harm.
-/

set_option linter.unusedSectionVars false

namespace Bolt
open Rust Message

namespace Deframe
variable {β : Type} [Octet β]

/-- a header asks for the size of the message with its chunk -/
def sizeDemand (st : Deframe β) (x : β × Bool) : Nat :=
  match st.phase with
  | .header2 hi =>
    if headerSize hi (Octet.val x.1) = 0 then 0 else st.total + headerSize hi (Octet.val x.1)
  | _ => 0

/-- a payload byte that starts a segment asks for the number of segments with it -/
def segsDemand (st : Deframe β) (x : β × Bool) : Nat :=
  match st.phase with
  | .payload _ => if (st.opn && !x.2) = false then st.segs.length + 1 else 0
  | _ => 0

theorem bad_none_iff {maxSize maxSegs : Nat} (st : Deframe β) (x : β × Bool) :
    bad maxSize maxSegs st x = none ↔ sizeDemand st x ≤ maxSize ∧ segsDemand st x ≤ maxSegs := by
  obtain ⟨phase, segs, opn⟩ := st
  cases phase with
  | header => exact ⟨fun _ => ⟨Nat.zero_le _, Nat.zero_le _⟩, fun _ => rfl⟩
  | header2 hi =>
    show (if _ then _ else _) = none ↔ (if _ then _ else _) ≤ maxSize ∧ 0 ≤ maxSegs
    by_cases h0 : headerSize hi (Octet.val x.1) = 0
    · rw [if_neg fun h => h.1 h0, if_pos h0]
      exact ⟨fun _ => ⟨Nat.zero_le _, Nat.zero_le _⟩, fun _ => rfl⟩
    · rw [if_neg h0]
      split
      case isTrue h => exact ⟨nofun, fun h' => absurd h'.1 (Nat.not_le.mpr h.2)⟩
      case isFalse h =>
        exact ⟨fun _ => ⟨Nat.le_of_not_lt fun hlt => h ⟨h0, hlt⟩, Nat.zero_le _⟩, fun _ => rfl⟩
  | payload owed =>
    show (if _ then _ else _) = none ↔ 0 ≤ maxSize ∧ (if _ then _ else _) ≤ maxSegs
    by_cases hj : (opn && !x.2) = false
    · rw [if_pos hj]
      split
      case isTrue h => exact ⟨nofun, fun h' => absurd h'.2 (Nat.not_le.mpr h.2)⟩
      case isFalse h =>
        exact ⟨fun _ => ⟨Nat.zero_le _, Nat.le_of_not_lt fun hlt => h ⟨hj, hlt⟩⟩, fun _ => rfl⟩
    · rw [if_neg hj, if_neg fun h => hj h.1]
      exact ⟨fun _ => ⟨Nat.zero_le _, Nat.zero_le _⟩, fun _ => rfl⟩

theorem deframer_laxer {maxSize maxSegs maxSize' maxSegs' : Nat} (hsize : maxSize ≤ maxSize')
    (hsegs : maxSegs ≤ maxSegs') : Scanner.Laxer (deframer maxSize maxSegs : Scanner (Deframe β) _ _ _)
      (deframer maxSize' maxSegs') where
  next := rfl
  bad st x h := by
    obtain ⟨h1, h2⟩ := (bad_none_iff st x).mp h
    exact (bad_none_iff st x).mpr ⟨h1.trans hsize, h2.trans hsegs⟩

/-- what is accepted is within the limits, message by message -/
theorem within_of_clean {maxSize maxSegs : Nat} (msgs : List Message) :
    ∀ {k : Nat} {xs : List (UInt8 × Bool)} {idx : List Nat}, Stamped k xs idx →
    xs.map Prod.fst = wire msgs → (deframer maxSize maxSegs).Clean start xs →
    WithinLimits maxSize maxSegs idx msgs := by
  induction msgs with
  | nil => exact fun _ _ _ => trivial
  | cons m msgs ih =>
    intro k xs idx hst hx hc
    rw [wire_cons] at hx
    obtain ⟨first, rest, rfl, hfirst, hrest⟩ := List.map_eq_append_iff.mp hx
    have hlen : first.length = m.frame.length := by rw [← hfirst, List.length_map]
    obtain ⟨hc1, hc2⟩ := (Scanner.clean_append _ _ _ _).mp hc
    have hst1 := hst.take first.length
    obtain ⟨j, hst2⟩ := hst.drop first.length
    rw [List.take_left] at hst1
    rw [List.drop_left, hlen] at hst2
    obtain ⟨segs, hrun, -⟩ := run_frame maxSize maxSegs m hst1 hfirst
    rw [hrun] at hc2
    refine ⟨?_, ih hst2 hrest hc2⟩
    -- the chunks of the first message, without its end marker
    obtain ⟨body, marker, rfl, hbody, -⟩ := List.map_eq_append_iff.mp hfirst
    have hbodyLen : body.length = m.encode.length := by rw [← hbody, List.length_map]
    have hstBody := hst1.take body.length
    rw [List.take_left, List.take_take, Nat.min_eq_left (by
      rw [List.length_append]
      exact Nat.le_add_right _ _)] at hstBody
    obtain ⟨segs', hrun', hflat, hcount⟩ := run_encode maxSize maxSegs m hstBody hbody []
    have hrunBody : ((deframer maxSize maxSegs).run start body).1 = ⟨.header, segs', false⟩ :=
      congrArg Prod.fst hrun'
    have hinv := Inv.start.run ((Scanner.clean_append _ _ _ _).mp hc1).1
    rw [hrunBody] at hinv
    constructor
    · have hsize : segs'.flatten.length ≤ maxSize := hinv.size_le
      rwa [hflat] at hsize
    · have hsegs : segs'.length ≤ maxSegs := hinv.segs_le
      have hidx : m.encode.length ≤ idx.length := by
        have := hst.length_eq
        rw [List.length_append, List.length_append] at this
        omega
      rwa [hcount, List.length_nil, Nat.zero_add,
        fragments_take m idx (Nat.le_of_eq hbodyLen.symm) (by omega)] at hsegs

end Deframe

namespace ChunkDecoder

theorem allOk_wire_iff {maxSize maxSegs : Usize} {fs : List Bytes} {msgs : List Message}
    (hfs : fs.flatten = wire msgs) :
    AllOk maxSize maxSegs fs ↔ WithinLimits maxSize.val maxSegs.val (feedOf fs) msgs := by
  constructor
  · intro h
    exact Deframe.within_of_clean msgs (Stamped.marks fs) ((marks_fst fs).trans hfs)
      ((allOk_iff fs).mp h)
  · intro hlim
    obtain ⟨outs, hok, -⟩ := feeds_whole hfs hlim
    exact ⟨outs, hok⟩

theorem scanner_laxer {maxSize maxSegs maxSize' maxSegs' : Usize} (hsize : maxSize ≤ maxSize')
    (hsegs : maxSegs ≤ maxSegs') : Scanner.Laxer (scanner maxSize maxSegs : Scanner (Deframe UInt8) _ _ _)
      (scanner maxSize' maxSegs') := Deframe.deframer_laxer hsize hsegs

/-- a run without an error is the same under higher limits -/
theorem feeds_raise {maxSize maxSegs maxSize' maxSegs' : Usize} (hsize : maxSize ≤ maxSize')
    (hsegs : maxSegs ≤ maxSegs') {fs : List Bytes} (h : AllOk maxSize maxSegs fs) :
    (feeds fs (fresh maxSize' maxSegs')).1 = (feeds fs (fresh maxSize maxSegs)).1 ∧
    (feeds fs (fresh maxSize' maxSegs')).2 = { (feeds fs (fresh maxSize maxSegs)).2 with
      maxMessageSize := maxSize', maxSegmentsPerMessage := maxSegs' } := by
  have hlax := scanner_laxer hsize hsegs
  rw [allOk_iff] at h
  rw [fresh_eq_decoderOf, fresh_eq_decoderOf, feeds_clean fs Deframe.Inv.start h,
    feeds_clean fs Deframe.Inv.start (hlax.clean h), Scanner.run_of_next hlax.next,
    Scanner.batches_of_next hlax.next]
  exact ⟨rfl, rfl⟩

/-- what is delivered under lower limits is delivered first under higher ones -/
theorem delivered_raise {maxSize maxSegs maxSize' maxSegs' : Usize} (hsize : maxSize ≤ maxSize')
    (hsegs : maxSegs ≤ maxSegs') (fs : List Bytes) :
    delivered (feeds fs (fresh maxSize maxSegs)).1
      <+: delivered (feeds fs (fresh maxSize' maxSegs')).1 := by
  obtain ⟨good, bad, rfl, hok, htake, hbad⟩ := exists_good maxSize maxSegs fs
  have hlow : delivered (feeds (good ++ bad) (fresh maxSize maxSegs)).1
      = delivered (feeds good (fresh maxSize maxSegs)).1 := by
    conv_lhs => rw [← List.take_append_drop good.length (feeds (good ++ bad) (fresh maxSize maxSegs)).1]
    rw [delivered_append, htake, delivered_fails hbad, List.append_nil]
  rw [hlow, feeds_append, delivered_append, (feeds_raise hsize hsegs hok).1]
  exact List.prefix_append _ _

/-- **The limits of a decoder** act on their own: for every stream in feeds there is a least message
size and a least number of segments, and a decoder accepts it exactly when neither limit is below
its own.  Raising the limits changes nothing that was accepted, puts an error off or removes it, and
adds to what is delivered.  On framed messages the least limits are the greatest message and the
most fragments of one. -/
theorem feeds_limits (fs : List Bytes) :
    (∃ size segs : Nat, ∀ maxSize maxSegs : Usize,
      AllOk maxSize maxSegs fs ↔ size ≤ maxSize.val ∧ segs ≤ maxSegs.val) ∧
    (∀ maxSize maxSegs maxSize' maxSegs' : Usize, maxSize ≤ maxSize' → maxSegs ≤ maxSegs' →
      (AllOk maxSize maxSegs fs →
        (feeds fs (fresh maxSize' maxSegs')).1 = (feeds fs (fresh maxSize maxSegs)).1 ∧
        (feeds fs (fresh maxSize' maxSegs')).2 = { (feeds fs (fresh maxSize maxSegs)).2 with
          maxMessageSize := maxSize', maxSegmentsPerMessage := maxSegs' }) ∧
      (∀ i' e', FailsAt maxSize' maxSegs' fs i' e' →
        ∃ i e, FailsAt maxSize maxSegs fs i e ∧ i ≤ i') ∧
      delivered (feeds fs (fresh maxSize maxSegs)).1
        <+: delivered (feeds fs (fresh maxSize' maxSegs')).1) ∧
    ∀ (maxSize maxSegs : Usize) (msgs : List Message), fs.flatten = wire msgs →
      (AllOk maxSize maxSegs fs ↔ WithinLimits maxSize.val maxSegs.val (feedOf fs) msgs) := by
  refine ⟨⟨(deframer 0 0).peak Deframe.sizeDemand .start (marks fs),
    (deframer 0 0).peak Deframe.segsDemand .start (marks fs), fun maxSize maxSegs => ?_⟩,
    fun maxSize maxSegs maxSize' maxSegs' hsize hsegs => ⟨fun h => feeds_raise hsize hsegs h,
      fun i' e' h => ?_, delivered_raise hsize hsegs fs⟩, fun _ _ _ hfs => allOk_wire_iff hfs⟩
  · -- the peaks do not depend on the limits
    have hpeak : ∀ f, (deframer 0 0).peak f .start (marks fs)
        = (scanner maxSize maxSegs).peak f .start (marks fs) := fun f =>
      Scanner.peak_of_next (T := deframer 0 0) (S := scanner maxSize maxSegs) rfl f _ _
    rw [allOk_iff, Scanner.clean_iff_peak _ Deframe.bad_none_iff, hpeak, hpeak]
  · obtain ⟨i, e, hbad, hle⟩ := (scanner_laxer hsize hsegs).badAt ((failsAt_iff fs i' e').mp h)
    exact ⟨i, e, (failsAt_iff fs i e).mpr hbad, hle⟩

/-- a message of two fragments under a limit of one, and of two -/
theorem feeds_limits_two :
    ¬ AllOk 2 1 ([[0, 2, 7], [8, 0, 0]] : List Bytes) ∧
      AllOk 2 2 ([[0, 2, 7], [8, 0, 0]] : List Bytes) := by
  have hlim := fun maxSegs => (feeds_limits [[0, 2, 7], [8, 0, 0]]).2.2 2 maxSegs
    [[⟨[7, 8], by decide, by decide⟩]] (by decide)
  rw [hlim 1, hlim 2]
  decide

end ChunkDecoder
end Bolt
