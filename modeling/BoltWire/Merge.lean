import BoltWire.Dechunk
import BoltWire.FirstError

/-!
# Merging feeds

The same bytes in larger feeds: the decoder goes through the same phases with the same payload, and
its segments are no more than before.

* `Coarser`        the same byte, which begins a feed only where it did before;
* `Merged`         the same place and payload, in at most as many segments;
* `deframer_follows`   the deframer on the merged feeds keeps step;
* `feeds_merge`    what the two decoders return.
-/

set_option linter.unusedSectionVars false

namespace Bolt
open Rust

section
variable {β : Type}

def Coarser (x y : β × Bool) : Prop := x.1 = y.1 ∧ (y.2 = true → x.2 = true)

theorem coarser_unmark (xs : List (β × Bool)) :
    List.Forall₂ Coarser xs ((xs.map Prod.fst).map fun b => (b, false)) := by
  induction xs with
  | nil => exact .nil
  | cons x xs ih => exact .cons ⟨rfl, fun h => by cases h⟩ ih

theorem coarser_append {xs xs' ys ys' : List (β × Bool)} (h : List.Forall₂ Coarser xs ys)
    (h' : List.Forall₂ Coarser xs' ys') : List.Forall₂ Coarser (xs ++ xs') (ys ++ ys') := by
  induction h with
  | nil => exact h'
  | cons hxy _ ih => exact .cons hxy ih

theorem coarser_mark (group : List (List β)) :
    List.Forall₂ Coarser (marks group) (mark group.flatten) := by
  induction group with
  | nil => exact .nil
  | cons data rest ih =>
    cases data with
    | nil => exact ih
    | cons b t =>
      have e : mark ((b :: t) :: rest).flatten = (b, true) ::
          (((t.map fun b => (b, false)) ++ marks rest).map Prod.fst).map fun b => (b, false) := by
        rw [List.map_append, marks_fst, List.map_map]
        show (b, true) :: (t ++ rest.flatten).map _ = _
        rw [show (Prod.fst ∘ fun b : β => (b, false)) = id from rfl, List.map_id]
      rw [e]
      exact .cons ⟨rfl, fun _ => rfl⟩ (coarser_unmark _)

/-- merging adjacent feeds takes marks away -/
theorem coarser_marks (groups : List (List (List β))) :
    List.Forall₂ Coarser (marks groups.flatten) (marks (groups.map List.flatten)) := by
  induction groups with
  | nil => exact .nil
  | cons group groups ih =>
    rw [List.flatten_cons, marks_append, List.map_cons, marks_cons]
    exact coarser_append (coarser_mark group) ih

structure Merged (s t : Deframe β) : Prop where
  phase : s.phase = t.phase
  flatten : s.segs.flatten = t.segs.flatten
  segs_le : t.segs.length ≤ s.segs.length
  opn : s.opn = true → t.opn = true
  ne_nil : t.opn = true → s.segs ≠ [] ∧ t.segs ≠ []

theorem Merged.start : Merged (Deframe.start : Deframe β) Deframe.start :=
  ⟨rfl, rfl, le_rfl, id, fun h => by cases h⟩

/-- a segment that starts in the merged feeds starts in the feeds before -/
theorem Merged.joins {s t : Deframe β} (h : Merged s t) {x y : β × Bool} (hxy : Coarser x y)
    (hj : (t.opn && !y.2) = false) : (s.opn && !x.2) = false := by
  by_contra hs
  rw [Bool.not_eq_false, Bool.and_eq_true_iff] at hs
  rw [h.opn hs.1, Bool.true_and] at hj
  have hy : y.2 = true := by
    cases hy : y.2 with
    | true => rfl
    | false => rw [hy] at hj; cases hj
  rw [hxy.2 hy] at hs
  cases hs.2

end

section
variable {β : Type} [Octet β] {maxSize maxSegs : Nat}

theorem deframer_follows (maxSize maxSegs : Nat) :
    Scanner.Follows (deframer maxSize maxSegs : Scanner (Deframe β) _ _ _) (deframer maxSize maxSegs)
      Merged Coarser fun o o' => o.flatten = o'.flatten := by
  rintro ⟨phase, segs, opn⟩ ⟨phase', segs', opn'⟩ ⟨b, first⟩ ⟨b', first'⟩ h hxy
  obtain rfl : phase = phase' := h.phase
  obtain rfl : b = b' := hxy.1
  have hflat : segs.flatten = segs'.flatten := h.flatten
  cases phase with
  | header => exact ⟨⟨rfl, hflat, h.segs_le, h.opn, h.ne_nil⟩, .none⟩
  | header2 hi =>
    show Merged (Deframe.next ⟨.header2 hi, segs, opn⟩ (b, first)).1
      (Deframe.next ⟨.header2 hi, segs', opn'⟩ (b, first')).1 ∧
      Option.Rel _ (Deframe.next ⟨.header2 hi, segs, opn⟩ (b, first)).2
        (Deframe.next ⟨.header2 hi, segs', opn'⟩ (b, first')).2
    by_cases h0 : headerSize hi (Octet.val b) = 0
    · rw [Deframe.next_end h0, Deframe.next_end h0]
      exact ⟨Merged.start, .some hflat⟩
    · rw [Deframe.next_chunk h0, Deframe.next_chunk h0]
      exact ⟨⟨rfl, hflat, h.segs_le, id, fun e => by cases e⟩, .none⟩
  | payload owed =>
    refine ⟨?_, .none⟩
    show Merged (Deframe.owing (owed - 1) (addByte (opn && !first) segs b))
      (Deframe.owing (owed - 1) (addByte (opn' && !first') segs' b))
    have hj : (opn && !first) = true → segs ≠ [] :=
      fun e => (h.ne_nil (h.opn (Bool.and_eq_true_iff.mp e).1)).1
    have hj' : (opn' && !first') = true → segs' ≠ [] :=
      fun e => (h.ne_nil (Bool.and_eq_true_iff.mp e).1).2
    have hlen := addByte_length hj b
    have hlen' := addByte_length hj' b
    have hle : segs'.length ≤ segs.length := h.segs_le
    have hsegs : (addByte (opn' && !first') segs' b).length
        ≤ (addByte (opn && !first) segs b).length := by
      rw [hlen, hlen']
      cases hjoin : (opn' && !first') with
      | true =>
        rw [if_pos rfl]
        split <;> omega
      | false =>
        have hjoin2 : (opn && !first) = false := h.joins hxy hjoin
        rw [hjoin2]
        exact Nat.succ_le_succ hle
    have hbytes : (addByte (opn && !first) segs b).flatten
        = (addByte (opn' && !first') segs' b).flatten := by
      rw [addByte_flatten, addByte_flatten, hflat]
    unfold Deframe.owing
    split
    · exact ⟨rfl, hbytes, hsegs, id, fun e => by cases e⟩
    · exact ⟨rfl, hbytes, hsegs, id, fun _ => ⟨addByte_ne_nil _ _ _, addByte_ne_nil _ _ _⟩⟩

/-- the size check sees only the payload -/
theorem bad_header2_congr {hi : UInt8} {segs segs' : List (List β)} {opn opn' : Bool} {x y : β × Bool}
    (hflat : segs.flatten = segs'.flatten) (hxy : x.1 = y.1) :
    Deframe.bad maxSize maxSegs ⟨.header2 hi, segs', opn'⟩ y
      = Deframe.bad maxSize maxSegs ⟨.header2 hi, segs, opn⟩ x := by
  have ht : Deframe.total (⟨.header2 hi, segs', opn'⟩ : Deframe β)
      = Deframe.total (⟨.header2 hi, segs, opn⟩ : Deframe β) := congrArg List.length hflat.symm
  simp only [Deframe.bad, ht, hxy]

theorem bad_payload (owed : Nat) (segs : List (List β)) (opn : Bool) (x : β × Bool) :
    Deframe.bad maxSize maxSegs ⟨.payload owed, segs, opn⟩ x
      = if (opn && !x.2) = false ∧ maxSegs < segs.length + 1 then
        some (.tooManySegments (segs.length + 1) maxSegs) else none := rfl

theorem merged_header {s t : Deframe β} {x y : β × Bool} {size max : Nat} (h : Merged s t)
    (hxy : Coarser x y) (hb : Deframe.bad maxSize maxSegs s x = some (.messageTooLarge size max)) :
    Deframe.bad maxSize maxSegs t y = some (.messageTooLarge size max) := by
  obtain ⟨phase, segs, opn⟩ := s
  obtain ⟨phase', segs', opn'⟩ := t
  obtain rfl : phase = phase' := h.phase
  cases phase with
  | header => cases hb
  | header2 hi =>
    rw [← hb]
    exact bad_header2_congr h.flatten hxy.1
  | payload owed =>
    rw [bad_payload] at hb
    split at hb <;> cases hb

theorem merged_none {s t : Deframe β} {x y : β × Bool} (h : Merged s t) (hxy : Coarser x y)
    (hb : Deframe.bad maxSize maxSegs s x = none) : Deframe.bad maxSize maxSegs t y = none := by
  obtain ⟨phase, segs, opn⟩ := s
  obtain ⟨phase', segs', opn'⟩ := t
  obtain rfl : phase = phase' := h.phase
  cases phase with
  | header => rfl
  | header2 hi =>
    rw [← hb]
    exact bad_header2_congr h.flatten hxy.1
  | payload owed =>
    have hle : segs'.length ≤ segs.length := h.segs_le
    rw [bad_payload]
    refine if_neg ?_
    rintro ⟨hj, hlt⟩
    rw [bad_payload, if_pos ⟨h.joins hxy hj, Nat.lt_of_lt_of_le hlt (Nat.succ_le_succ hle)⟩] at hb
    cases hb

/-- the reasons for which a byte is refused -/
theorem bad_reason {st : Deframe β} {x : β × Bool} {e : ChunkError}
    (h : Deframe.bad maxSize maxSegs st x = some e) :
    (∃ size max, e = .messageTooLarge size max) ∨ ∃ segments max, e = .tooManySegments segments max := by
  obtain ⟨phase, segs, opn⟩ := st
  cases phase with
  | header => cases h
  | header2 hi =>
    simp only [Deframe.bad] at h
    split at h
    · exact .inl ⟨_, _, (Option.some.inj h).symm⟩
    · cases h
  | payload owed =>
    rw [bad_payload] at h
    split at h
    · exact .inr ⟨_, _, (Option.some.inj h).symm⟩
    · cases h

end

namespace ChunkDecoder
variable {maxSize maxSegs : Usize}

/-- equal payloads, message by message -/
theorem map_flatten_eq {a b : List (List Bytes)}
    (h : List.Forall₂ (fun o o' => o.flatten = o'.flatten) a b) :
    a.map List.flatten = b.map List.flatten := by
  induction h with
  | nil => rfl
  | cons hab _ ih => rw [List.map_cons, hab, ih, List.map_cons]

theorem clean_merge {groups : List (List Bytes)}
    (h : (scanner maxSize maxSegs).Clean .start (marks groups.flatten)) :
    (scanner maxSize maxSegs).Clean .start (marks (groups.map List.flatten)) :=
  (deframer_follows maxSize.val maxSegs.val).clean (fun _ _ _ _ => merged_none) Merged.start
    (coarser_marks groups) h

theorem failsAt_merge {groups : List (List Bytes)} {i size max : Nat}
    (h : FailsAt maxSize maxSegs groups.flatten i (.messageTooLarge size max)) :
    FailsAt maxSize maxSegs (groups.map List.flatten) i (.messageTooLarge size max) := by
  rw [failsAt_iff] at h ⊢
  exact (deframer_follows maxSize.val maxSegs.val).badAt (fun _ _ _ _ => merged_none)
    (fun _ _ _ _ => merged_header) Merged.start (coarser_marks groups) h

/-- the unmerged feeds fail too, and if not at the segment cap, then like the merged ones -/
theorem failsAt_of_merge {groups : List (List Bytes)} {i size max : Nat}
    (hcap : ∀ segments max, .err (.tooManySegments segments max)
      ∉ (feeds groups.flatten (fresh maxSize maxSegs)).1)
    (hG : FailsAt maxSize maxSegs (groups.map List.flatten) i (.messageTooLarge size max)) :
    FailsAt maxSize maxSegs groups.flatten i (.messageTooLarge size max) := by
  rcases allOk_or_failsAt maxSize maxSegs groups.flatten with hok | ⟨j, e, hF⟩
  · have hmerged := (allOk_iff _).mpr (clean_merge ((allOk_iff _).mp hok))
    exact absurd hG (hmerged.not_failsAt _ _)
  · obtain ⟨pre, x, post, -, -, -, hbad⟩ := (failsAt_iff _ _ _).mp hF
    rcases bad_reason hbad with ⟨size', max', rfl⟩ | ⟨segments, max', rfl⟩
    · obtain ⟨rfl, hsame⟩ := (failsAt_merge hF).unique hG
      rw [← hsame]
      exact hF
    · obtain ⟨_, _, _, _, _, _, _, _, _, _, hres⟩ := hF
      refine absurd ?_ (hcap segments max')
      rw [hres]
      simp

/-- **Merging adjacent feeds.**  If every feed succeeds, then so does every merged feed, with the
same payloads, the same state and pending payload, and no more pending segments.  If the feeds never
run into the segment cap, then they and the merged feeds find the same message too large, at the
same byte of the stream. -/
theorem feeds_merge (maxSize maxSegs : Usize) (groups : List (List Bytes)) :
    (∀ outs : List (List (MessageBuf UInt8)),
      (feeds groups.flatten (fresh maxSize maxSegs)).1 = outs.map Res.ok →
      ∃ outs' : List (List (MessageBuf UInt8)),
        (feeds (groups.map List.flatten) (fresh maxSize maxSegs)).1 = outs'.map Res.ok ∧
        outs'.flatten.map MessageBuf.payload = outs.flatten.map MessageBuf.payload ∧
        (feeds (groups.map List.flatten) (fresh maxSize maxSegs)).2.state
          = (feeds groups.flatten (fresh maxSize maxSegs)).2.state ∧
        (feeds (groups.map List.flatten) (fresh maxSize maxSegs)).2.pending.flatten
          = (feeds groups.flatten (fresh maxSize maxSegs)).2.pending.flatten ∧
        (feeds (groups.map List.flatten) (fresh maxSize maxSegs)).2.pendingSize
          = (feeds groups.flatten (fresh maxSize maxSegs)).2.pendingSize ∧
        (feeds (groups.map List.flatten) (fresh maxSize maxSegs)).2.pending.length
          ≤ (feeds groups.flatten (fresh maxSize maxSegs)).2.pending.length) ∧
    ((∀ segments max, .err (.tooManySegments segments max)
        ∉ (feeds groups.flatten (fresh maxSize maxSegs)).1) →
      ∀ i size max, FailsAt maxSize maxSegs groups.flatten i (.messageTooLarge size max) ↔
        FailsAt maxSize maxSegs (groups.map List.flatten) i (.messageTooLarge size max)) := by
  refine ⟨fun outs houts => ?_, fun hcap i size max => ⟨failsAt_merge, failsAt_of_merge hcap⟩⟩
  have hclean : (scanner maxSize maxSegs).Clean .start (marks groups.flatten) :=
    (allOk_iff _).mp ⟨outs, houts⟩
  obtain ⟨hst, hout⟩ := (deframer_follows (β := UInt8) maxSize.val maxSegs.val).run Merged.start
    (coarser_marks groups)
  rw [fresh_eq_decoderOf, feeds_clean _ Deframe.Inv.start hclean] at houts ⊢
  rw [feeds_clean _ Deframe.Inv.start (clean_merge hclean)]
  refine ⟨((scanner maxSize maxSegs).batches .start ((groups.map List.flatten).map mark)).map
    fun outs => outs.map MessageBuf.fromChunks, ?_, ?_, congrArg Phase.state hst.phase.symm,
    hst.flatten.symm, congrArg List.length hst.flatten.symm, hst.segs_le⟩
  · exact map_emitted _
  · have e : outs = ((scanner maxSize maxSegs).batches .start (groups.flatten.map mark)).map
        fun outs => outs.map MessageBuf.fromChunks :=
      List.map_injective_iff.mpr (fun a b h => Res.ok.inj h)
        (houts.symm.trans (map_emitted _))
    rw [e, batches_payloads, batches_payloads]
    exact (map_flatten_eq hout).symm

/-- a message in three feeds and in two; a header that is too large, after it -/
theorem feeds_merge_two :
    (∃ outs' : List (List (MessageBuf UInt8)),
      (feeds [[0, 1, 170, 0], [0]] (fresh 4 2 : ChunkDecoder UInt8)).1 = outs'.map Res.ok ∧
      outs'.flatten.map MessageBuf.payload = [[170]]) ∧
    FailsAt 4 2 ([[0, 1, 170, 0, 0], [0, 5]] : List Bytes) 6 (.messageTooLarge 5 4) := by
  constructor
  · obtain ⟨outs', hok, hpay, -⟩ := (feeds_merge 4 2 [[[0, 1], [170, 0]], [[0]]]).1
      [[], [], [MessageBuf.fromChunks [[170]]]] (by decide)
    exact ⟨outs', hok, hpay⟩
  · have hF : FailsAt 4 2 ([[0, 1], [170, 0, 0], [0, 5]] : List Bytes) 6 (.messageTooLarge 5 4) :=
      ⟨[[0, 1], [170, 0, 0]], [0, 5], [], 1, [[], [MessageBuf.fromChunks [[170]]]], rfl, by decide,
        rfl, ⟨[[], [MessageBuf.fromChunks [[170]]], []], by decide⟩, by decide, by decide⟩
    have hres : (feeds [[0, 1], [170, 0, 0], [0, 5]] (fresh 4 2 : ChunkDecoder UInt8)).1
        = [.ok [], .ok [MessageBuf.fromChunks [[170]]], .err (.messageTooLarge 5 4)] := by decide
    have hcap : ∀ segments max, .err (.tooManySegments segments max)
        ∉ (feeds [[0, 1], [170, 0, 0], [0, 5]] (fresh 4 2 : ChunkDecoder UInt8)).1 := by
      intro segments max h
      rw [hres] at h
      simp at h
    exact ((feeds_merge 4 2 [[[0, 1], [170, 0, 0]], [[0, 5]]]).2 hcap 6 5 4).mp hF

end ChunkDecoder
end Bolt
