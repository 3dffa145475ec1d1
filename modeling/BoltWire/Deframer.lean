import BoltWire.Lib.Scanner
import BoltWire.Decoder

/-!
# The deframer: chunked transfer byte by byte

What the decoder is for, as a scanner over single bytes.  A byte of the stream comes with a mark
that says whether it is the first byte of a feed (`marks`); the deframer uses the mark only to cut
segments.

* `Deframe`          what is known after some bytes: the place in the framing (`Phase`), the
                     segments of the current message, and whether the last one may still grow;
* `deframer`         the scanner; it refuses a header that makes the message too large and a byte
                     that starts a segment too many;
* `pieces`           how a chunk is cut into segments by the feeds;
* `run_pieces`       reading (a part of) a payload appends exactly its pieces;
* `Deframe.Inv`      the resource invariant, kept by every accepted byte (`Inv.next`).
-/

set_option linter.unusedSectionVars false

namespace Bolt
open Rust BigEndian

inductive Phase where
  | header
  | header2 (firstByte : UInt8)
  | payload (owed : Nat)
  deriving DecidableEq, Repr

structure Deframe (β : Type) where
  phase : Phase
  segs : List (List β)
  opn : Bool

/-- the size that a chunk header announces -/
def headerSize (hi lo : UInt8) : Nat := ofBe [hi, lo]

theorem headerSize_eq (hi lo : UInt8) : headerSize hi lo = hi.toNat * 256 + lo.toNat := by
  show hi.toNat * 256 ^ 1 + (lo.toNat * 256 ^ 0 + 0) = _
  omega

theorem headerSize_lt (hi lo : UInt8) : headerSize hi lo < 65536 := by
  have h1 : hi.toNat < 256 := hi.toNat_lt
  have h2 : lo.toNat < 256 := lo.toNat_lt
  rw [headerSize_eq]
  omega

theorem headerSize_u16 (hi lo : UInt8) : (u16FromBe [hi, lo]).toNat = headerSize hi lo :=
  u16FromBe_toNat rfl

theorem headerSize_eq_zero (hi lo : UInt8) : u16FromBe [hi, lo] = 0 ↔ headerSize hi lo = 0 := by
  rw [← headerSize_u16, ← UInt16.toNat_inj, UInt16.toNat_zero]

section
variable {β : Type}

/-! ## segments -/

def appendLast : List (List β) → β → List (List β)
  | [], b => [[b]]
  | [s], b => [s ++ [b]]
  | s :: t :: segs, b => s :: appendLast (t :: segs) b

/-- a payload byte joins the last segment or starts a new one -/
def addByte (joins : Bool) (segs : List (List β)) (b : β) : List (List β) :=
  if joins then appendLast segs b else segs ++ [[b]]

/-- the segments after the payload bytes `c`; `opn` says whether the last segment may grow -/
def extend : Bool → List (List β) → List (β × Bool) → List (List β)
  | _, segs, [] => segs
  | opn, segs, (b, first) :: c => extend true (addByte (opn && !first) segs b) c

/-- the segments of a chunk: cut where a feed begins -/
def pieces (c : List (β × Bool)) : List (List β) := extend false [] c

theorem appendLast_append (pre : List (List β)) (s : List β) (segs : List (List β)) (b : β) :
    appendLast (pre ++ s :: segs) b = pre ++ appendLast (s :: segs) b := by
  induction pre with
  | nil => rfl
  | cons p pre ih =>
    rw [List.cons_append, List.cons_append, ← ih]
    cases pre <;> rfl

theorem appendLast_concat (pre : List (List β)) (s : List β) (b : β) :
    appendLast (pre ++ [s]) b = pre ++ [s ++ [b]] := appendLast_append pre s [] b

theorem eq_concat {segs : List (List β)} (h : segs ≠ []) : ∃ pre s, segs = pre ++ [s] :=
  ⟨segs.dropLast, segs.getLast h, (List.dropLast_concat_getLast h).symm⟩

theorem addByte_ne_nil (joins : Bool) (segs : List (List β)) (b : β) :
    addByte joins segs b ≠ [] := by
  cases joins with
  | false => simp [addByte]
  | true =>
    cases segs with
    | nil => simp [addByte, appendLast]
    | cons s segs => cases segs <;> simp [addByte, appendLast]

theorem addByte_prepend {joins : Bool} {segs : List (List β)} (h : joins = true → segs ≠ [])
    (pre : List (List β)) (b : β) : addByte joins (pre ++ segs) b = pre ++ addByte joins segs b := by
  cases joins with
  | false => simp [addByte]
  | true =>
    obtain ⟨init, s, rfl⟩ := eq_concat (h rfl)
    show appendLast (pre ++ (init ++ [s])) b = pre ++ appendLast (init ++ [s]) b
    rw [← List.append_assoc, appendLast_concat, appendLast_concat, List.append_assoc]

theorem addByte_flatten (joins : Bool) (segs : List (List β)) (b : β) :
    (addByte joins segs b).flatten = segs.flatten ++ [b] := by
  cases joins with
  | false => simp [addByte]
  | true =>
    by_cases h : segs = []
    · subst h; rfl
    · obtain ⟨init, s, rfl⟩ := eq_concat h
      show (appendLast (init ++ [s]) b).flatten = _
      rw [appendLast_concat]
      simp

theorem addByte_nonempty {segs : List (List β)} (h : ∀ s ∈ segs, s ≠ []) (joins : Bool) (b : β) :
    ∀ s ∈ addByte joins segs b, s ≠ [] := by
  cases joins with
  | false =>
    intro s hs
    rcases List.mem_append.mp hs with hs | hs
    · exact h s hs
    · rw [List.mem_singleton.mp hs]
      exact List.cons_ne_nil b []
  | true =>
    by_cases h0 : segs = []
    · subst h0
      intro s hs
      rw [List.mem_singleton.mp hs]
      exact List.cons_ne_nil b []
    · obtain ⟨init, t, rfl⟩ := eq_concat h0
      intro s hs
      rw [show addByte true (init ++ [t]) b = init ++ [t ++ [b]] from appendLast_concat init t b] at hs
      rcases List.mem_append.mp hs with hs | hs
      · exact h s (List.mem_append_left _ hs)
      · rw [List.mem_singleton.mp hs]
        exact List.append_ne_nil_of_right_ne_nil t (List.cons_ne_nil b [])

/-- joining leaves the number of segments alone, starting adds one -/
theorem addByte_length {joins : Bool} {segs : List (List β)} (h : joins = true → segs ≠ []) (b : β) :
    (addByte joins segs b).length = if joins then segs.length else segs.length + 1 := by
  cases joins with
  | false => simp [addByte]
  | true =>
    obtain ⟨init, s, rfl⟩ := eq_concat (h rfl)
    show (appendLast (init ++ [s]) b).length = _
    rw [appendLast_concat]
    simp

theorem addByte_length_le {joins : Bool} {segs : List (List β)} (h : joins = true → segs ≠ [])
    (b : β) : segs.length ≤ (addByte joins segs b).length := by
  rw [addByte_length h]
  split <;> omega

theorem extend_prepend {opn : Bool} {segs : List (List β)} (h : opn = true → segs ≠ [])
    (pre : List (List β)) (c : List (β × Bool)) :
    extend opn (pre ++ segs) c = pre ++ extend opn segs c := by
  induction c generalizing opn segs with
  | nil => rfl
  | cons x c ih =>
    obtain ⟨b, first⟩ := x
    have hj : (opn && !first) = true → segs ≠ [] := fun hj => h (Bool.and_eq_true_iff.mp hj).1
    show extend true (addByte (opn && !first) (pre ++ segs) b) c = _
    rw [addByte_prepend hj, ih (fun _ => addByte_ne_nil _ segs b)]
    rfl

/-- a chunk that starts where no segment may grow adds its pieces -/
theorem extend_false (segs : List (List β)) (c : List (β × Bool)) :
    extend false segs c = segs ++ pieces c := by
  have hopn : false = true → ([] : List (List β)) ≠ [] := fun h => absurd h Bool.false_ne_true
  have h := extend_prepend hopn segs c
  rwa [List.append_nil] at h

theorem extend_flatten (opn : Bool) (segs : List (List β)) (c : List (β × Bool)) :
    (extend opn segs c).flatten = segs.flatten ++ c.map Prod.fst := by
  induction c generalizing opn segs with
  | nil => simp [extend]
  | cons x c ih =>
    obtain ⟨b, first⟩ := x
    show (extend true (addByte (opn && !first) segs b) c).flatten = _
    rw [ih, addByte_flatten]
    simp

theorem pieces_flatten (c : List (β × Bool)) : (pieces c).flatten = c.map Prod.fst := by
  unfold pieces
  rw [extend_flatten]
  rfl

theorem extend_length_le {opn : Bool} {segs : List (List β)} (h : opn = true → segs ≠ [])
    (c : List (β × Bool)) : segs.length ≤ (extend opn segs c).length := by
  induction c generalizing opn segs with
  | nil => exact le_rfl
  | cons x c ih =>
    obtain ⟨b, first⟩ := x
    have hj : (opn && !first) = true → segs ≠ [] := fun hj => h (Bool.and_eq_true_iff.mp hj).1
    exact (addByte_length_le hj b).trans (ih (fun _ => addByte_ne_nil _ segs b))

/-- bytes of one feed stay together -/
theorem extend_plain (init : List (List β)) (s t : List β) :
    extend true (init ++ [s]) (t.map fun b => (b, false)) = init ++ [s ++ t] := by
  induction t generalizing s with
  | nil => simp [extend]
  | cons b t ih =>
    show extend true (appendLast (init ++ [s]) b) (t.map fun b => (b, false)) = _
    rw [appendLast_concat, ih, List.append_assoc]
    rfl

theorem pieces_plain {t : List β} (h : t ≠ []) : pieces (t.map fun b => (b, false)) = [t] := by
  cases t with
  | nil => exact absurd rfl h
  | cons b t => exact extend_plain [] [b] t

end

/-! ## the scanner -/

section
variable {β : Type}

namespace Deframe

/-- between two chunks, or inside one that still owes `owed` bytes -/
def owing (owed : Nat) (segs : List (List β)) : Deframe β :=
  if owed = 0 then ⟨.header, segs, false⟩ else ⟨.payload owed, segs, true⟩

/-- before the first byte of a stream -/
def start : Deframe β := ⟨.header, [], false⟩

def total (st : Deframe β) : Nat := st.segs.flatten.length

theorem owing_segs (owed : Nat) (segs : List (List β)) : (owing owed segs).segs = segs := by
  unfold owing
  split <;> rfl

end Deframe

variable [Octet β]

def Deframe.next (st : Deframe β) (x : β × Bool) : Deframe β × Option (List (List β)) :=
  match st.phase with
  | .header => ({ st with phase := .header2 (Octet.val x.1) }, none)
  | .header2 hi =>
    if headerSize hi (Octet.val x.1) = 0 then (.start, some st.segs)
    else (⟨.payload (headerSize hi (Octet.val x.1)), st.segs, false⟩, none)
  | .payload owed => (.owing (owed - 1) (addByte (st.opn && !x.2) st.segs x.1), none)

def Deframe.bad (maxSize maxSegs : Nat) (st : Deframe β) (x : β × Bool) : Option ChunkError :=
  match st.phase with
  | .header => none
  | .header2 hi =>
    let size := headerSize hi (Octet.val x.1)
    if size ≠ 0 ∧ maxSize < st.total + size then
      some (.messageTooLarge (saturatingAdd st.total size) maxSize)
    else none
  | .payload _ =>
    if (st.opn && !x.2) = false ∧ maxSegs < st.segs.length + 1 then
      some (.tooManySegments (st.segs.length + 1) maxSegs)
    else none

def deframer (maxSize maxSegs : Nat) :
    Scanner (Deframe β) (β × Bool) (List (List β)) ChunkError where
  next := Deframe.next
  bad := Deframe.bad maxSize maxSegs

namespace Deframe
variable {maxSize maxSegs : Nat}

theorem next_end {hi : UInt8} {x : β × Bool} (h : headerSize hi (Octet.val x.1) = 0)
    (segs : List (List β)) (opn : Bool) :
    next ⟨.header2 hi, segs, opn⟩ x = (start, some segs) := by
  show (if headerSize hi (Octet.val x.1) = 0 then _ else _) = _
  rw [if_pos h]

theorem next_chunk {hi : UInt8} {x : β × Bool} (h : headerSize hi (Octet.val x.1) ≠ 0)
    (segs : List (List β)) (opn : Bool) :
    next ⟨.header2 hi, segs, opn⟩ x
      = (⟨.payload (headerSize hi (Octet.val x.1)), segs, false⟩, none) := by
  show (if headerSize hi (Octet.val x.1) = 0 then _ else _) = _
  rw [if_neg h]

theorem next_header2_opn (hi : UInt8) (segs : List (List β)) (opn : Bool) (x : β × Bool) :
    (next ⟨.header2 hi, segs, opn⟩ x).1.opn = false := by
  by_cases h : headerSize hi (Octet.val x.1) = 0
  · rw [next_end h]; rfl
  · rw [next_chunk h]

theorem next_payload (owed : Nat) (segs : List (List β)) (opn : Bool) (x : β × Bool) :
    next ⟨.payload owed, segs, opn⟩ x
      = (owing (owed - 1) (addByte (opn && !x.2) segs x.1), none) := rfl

/-- where no segment may grow, the mark of the next byte does not matter -/
theorem next_unmark (phase : Phase) (segs : List (List β)) (b : β) (first : Bool) :
    next ⟨phase, segs, false⟩ (b, first) = next ⟨phase, segs, false⟩ (b, false) := by
  cases phase <;> rfl

theorem bad_unmark (phase : Phase) (segs : List (List β)) (b : β) (first : Bool) :
    bad maxSize maxSegs ⟨phase, segs, false⟩ (b, first)
      = bad maxSize maxSegs ⟨phase, segs, false⟩ (b, false) := by
  cases phase <;> rfl

/-- at the first byte of a feed no segment may grow -/
theorem next_first {phase : Phase} {segs : List (List β)} {opn : Bool}
    (h : opn = true → ∃ owed, phase = .payload owed) (b : β) :
    next ⟨phase, segs, opn⟩ (b, true) = next ⟨phase, segs, false⟩ (b, false) := by
  cases opn with
  | false => exact next_unmark phase segs b true
  | true =>
    obtain ⟨owed, rfl⟩ := h rfl
    rfl

theorem bad_first {phase : Phase} {segs : List (List β)} {opn : Bool}
    (h : opn = true → ∃ owed, phase = .payload owed) (b : β) :
    bad maxSize maxSegs ⟨phase, segs, opn⟩ (b, true)
      = bad maxSize maxSegs ⟨phase, segs, false⟩ (b, false) := by
  cases opn with
  | false => exact bad_unmark phase segs b true
  | true =>
    obtain ⟨owed, rfl⟩ := h rfl
    rfl

/-! ## reading payload -/

theorem next_owing {owed : Nat} (h : owed ≠ 0) (segs : List (List β)) (x : β × Bool) :
    next (owing owed segs) x = (owing (owed - 1) (addByte (!x.2) segs x.1), none) := by
  unfold owing
  rw [if_neg h]
  rfl

theorem run_owing {owed : Nat} {c : List (β × Bool)} (h : c.length ≤ owed)
    (segs : List (List β)) :
    (deframer maxSize maxSegs).run (owing owed segs) c
      = (owing (owed - c.length) (extend true segs c), []) := by
  induction c generalizing owed segs with
  | nil => rfl
  | cons x c ih =>
    rw [List.length_cons] at h
    have e : (deframer maxSize maxSegs).next (owing owed segs) x
        = (owing (owed - 1) (addByte (!x.2) segs x.1), none) := next_owing (by omega) segs x
    have e2 : owed - 1 - c.length = owed - (x :: c).length := by rw [List.length_cons]; omega
    rw [Scanner.run_cons, e, ih (by omega), e2]
    rfl

/-- **Reading a payload** (or a part of it) from where no segment may grow appends its pieces. -/
theorem run_pieces (maxSize maxSegs : Nat) {owed : Nat} {c : List (β × Bool)}
    (h : c.length ≤ owed) (hc : c ≠ [])
    (segs : List (List β)) :
    (deframer maxSize maxSegs).run ⟨.payload owed, segs, false⟩ c
      = (owing (owed - c.length) (segs ++ pieces c), []) := by
  cases c with
  | nil => exact absurd rfl hc
  | cons x c =>
    rw [List.length_cons] at h
    have e : (deframer maxSize maxSegs).next ⟨.payload owed, segs, false⟩ x
        = (owing (owed - 1) (addByte false segs x.1), none) := next_payload owed segs false x
    have e2 : owed - 1 - c.length = owed - (x :: c).length := by rw [List.length_cons]; omega
    rw [Scanner.run_cons, e, run_owing (by omega), e2, ← extend_false]
    rfl

theorem bad_payload_none (maxSize : Nat) {owed : Nat} {segs : List (List β)} {opn : Bool} {x : β × Bool}
    (ho : (opn && !x.2) = true → segs ≠ [])
    (h : (addByte (opn && !x.2) segs x.1).length ≤ maxSegs) :
    bad maxSize maxSegs ⟨.payload owed, segs, opn⟩ x = none := by
  show (if (opn && !x.2) = false ∧ maxSegs < segs.length + 1 then _ else _) = none
  rw [if_neg]
  rintro ⟨h1, h2⟩
  rw [addByte_length ho, h1] at h
  simp only [Bool.false_eq_true, if_false] at h
  omega

theorem clean_payload {owed : Nat} {segs : List (List β)} {opn : Bool} {c : List (β × Bool)}
    (h : c.length ≤ owed) (ho : opn = true → segs ≠ [])
    (hs : (extend opn segs c).length ≤ maxSegs) :
    (deframer maxSize maxSegs).Clean ⟨.payload owed, segs, opn⟩ c := by
  induction c generalizing owed segs opn with
  | nil => trivial
  | cons x c ih =>
    have hj : (opn && !x.2) = true → segs ≠ [] := fun hj => ho (Bool.and_eq_true_iff.mp hj).1
    have hne := addByte_ne_nil (opn && !x.2) segs x.1
    have hle : (addByte (opn && !x.2) segs x.1).length ≤ maxSegs :=
      (extend_length_le (fun _ => hne) c).trans hs
    refine ⟨bad_payload_none maxSize hj hle, ?_⟩
    show (deframer maxSize maxSegs).Clean (owing (owed - 1) (addByte (opn && !x.2) segs x.1)) c
    rw [List.length_cons] at h
    by_cases h1 : owed - 1 = 0
    · have hc : c = [] := List.length_eq_zero_iff.mp (by omega)
      rw [hc]
      trivial
    · unfold owing
      rw [if_neg h1]
      exact ih (by omega) (fun _ => hne) hs

/-! ## the resource invariant -/

structure Inv (maxSize maxSegs : Nat) (st : Deframe β) : Prop where
  nonempty : ∀ s ∈ st.segs, s ≠ []
  segs_le : st.segs.length ≤ maxSegs
  size_le : st.total ≤ maxSize
  owed : ∀ owed, st.phase = .payload owed →
    0 < owed ∧ owed < 65536 ∧ st.total + owed ≤ maxSize
  opn : st.opn = true → st.segs ≠ [] ∧ ∃ owed, st.phase = .payload owed

theorem Inv.start : Inv maxSize maxSegs (start : Deframe β) where
  nonempty s hs := absurd hs List.not_mem_nil
  segs_le := Nat.zero_le _
  size_le := Nat.zero_le _
  owed _ h := by cases h
  opn h := by cases h

/-- a segment list that stays within the limits, with `owed` bytes still admitted -/
theorem Inv.owing {owed : Nat} {segs : List (List β)} (hne : ∀ s ∈ segs, s ≠ [])
    (hs : segs ≠ []) (hl : segs.length ≤ maxSegs) (h16 : owed < 65536)
    (ht : segs.flatten.length + owed ≤ maxSize) : Inv maxSize maxSegs (Deframe.owing owed segs) := by
  unfold Deframe.owing
  split
  · exact ⟨hne, hl, (Nat.le_add_right _ _).trans ht, fun _ h => (by cases h), fun h => (by cases h)⟩
  · refine ⟨hne, hl, (Nat.le_add_right _ _).trans ht, ?_, fun _ => ⟨hs, owed, rfl⟩⟩
    intro owed' h
    cases h
    exact ⟨by omega, h16, ht⟩

theorem bad_header2_iff {hi : UInt8} {segs : List (List β)} {opn : Bool} {x : β × Bool}
    {e : ChunkError} : bad maxSize maxSegs ⟨.header2 hi, segs, opn⟩ x = some e ↔
      (headerSize hi (Octet.val x.1) ≠ 0 ∧
        maxSize < segs.flatten.length + headerSize hi (Octet.val x.1)) ∧
      .messageTooLarge (saturatingAdd segs.flatten.length (headerSize hi (Octet.val x.1))) maxSize = e :=
  Option.ite_none_right_eq_some.trans (and_congr_right fun _ => Option.some_inj)

theorem bad_payload_iff {owed : Nat} {segs : List (List β)} {opn : Bool} {x : β × Bool}
    {e : ChunkError} : bad maxSize maxSegs ⟨.payload owed, segs, opn⟩ x = some e ↔
      ((opn && !x.2) = false ∧ maxSegs < segs.length + 1) ∧
      .tooManySegments (segs.length + 1) maxSegs = e :=
  Option.ite_none_right_eq_some.trans (and_congr_right fun _ => Option.some_inj)

/-- **Every accepted byte keeps the invariant.** -/
theorem Inv.next {st : Deframe β} {x : β × Bool} (h : Inv maxSize maxSegs st)
    (hb : bad maxSize maxSegs st x = none) : Inv maxSize maxSegs (next st x).1 := by
  obtain ⟨phase, segs, opn⟩ := st
  cases phase with
  | header =>
    exact ⟨h.nonempty, h.segs_le, h.size_le, fun _ e => (by cases e),
      fun e => (by obtain ⟨_, owed, e2⟩ := h.opn e; cases e2)⟩
  | header2 hi =>
    by_cases h0 : headerSize hi (Octet.val x.1) = 0
    · rw [next_end h0]
      exact Inv.start
    · rw [next_chunk h0]
      have hle : segs.flatten.length + headerSize hi (Octet.val x.1) ≤ maxSize := by
        by_contra hc
        have e := hb.symm.trans (bad_header2_iff.mpr ⟨⟨h0, Nat.lt_of_not_le hc⟩, rfl⟩)
        cases e
      refine ⟨h.nonempty, h.segs_le, h.size_le, ?_, fun e => (by cases e)⟩
      intro owed e
      cases e
      exact ⟨Nat.pos_of_ne_zero h0, headerSize_lt _ _, hle⟩
  | payload owed =>
    obtain ⟨h1, h2, h3⟩ := h.owed owed rfl
    have hj : (opn && !x.2) = true → segs ≠ [] := fun hj => (h.opn (Bool.and_eq_true_iff.mp hj).1).1
    have hl : (addByte (opn && !x.2) segs x.1).length ≤ maxSegs := by
      rw [addByte_length hj]
      cases hjoin : (opn && !x.2) with
      | true => exact h.segs_le
      | false =>
        by_contra hc
        have e := hb.symm.trans (bad_payload_iff.mpr ⟨⟨hjoin, Nat.lt_of_not_le hc⟩, rfl⟩)
        cases e
    have ht : (addByte (opn && !x.2) segs x.1).flatten.length + (owed - 1) ≤ maxSize := by
      have h3' : segs.flatten.length + owed ≤ maxSize := h3
      rw [addByte_flatten, List.length_append, List.length_singleton]
      omega
    exact Inv.owing (addByte_nonempty h.nonempty _ _) (addByte_ne_nil _ _ _) hl (by omega) ht

theorem Inv.run {st : Deframe β} {xs : List (β × Bool)} (h : Inv maxSize maxSegs st)
    (hc : (deframer maxSize maxSegs).Clean st xs) :
    Inv maxSize maxSegs ((deframer maxSize maxSegs).run st xs).1 :=
  hc.inv (fun _ _ h hb => h.next hb) h

/-- a message that comes out is within the limits -/
structure Within (maxSize maxSegs : Nat) (segs : List (List β)) : Prop where
  nonempty : ∀ s ∈ segs, s ≠ []
  segs_le : segs.length ≤ maxSegs
  size_le : segs.flatten.length ≤ maxSize

theorem Inv.emit {st : Deframe β} {x : β × Bool} {o : List (List β)}
    (h : Inv maxSize maxSegs st) (ho : (Deframe.next st x).2 = some o) :
    Within maxSize maxSegs o := by
  obtain ⟨phase, segs, opn⟩ := st
  cases phase with
  | header => cases ho
  | header2 hi =>
    by_cases h0 : headerSize hi (Octet.val x.1) = 0
    · rw [next_end h0] at ho
      cases ho
      exact ⟨h.nonempty, h.segs_le, h.size_le⟩
    · rw [next_chunk h0] at ho
      cases ho
  | payload owed => cases ho

theorem Inv.outputs {st : Deframe β} {xs : List (β × Bool)} (h : Inv maxSize maxSegs st)
    (hc : (deframer maxSize maxSegs).Clean st xs) :
    ∀ o ∈ ((deframer maxSize maxSegs).run st xs).2, Within maxSize maxSegs o :=
  hc.out (fun _ _ h hb => h.next hb) (fun _ _ _ h _ ho => h.emit ho) h

end Deframe
end
end Bolt
