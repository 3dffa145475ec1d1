import BoltWire.Deframer

/-!
# The decoder refines the deframer

Every decoder that a caller can hold is `decoderOf` a deframer state within the limits, or the
`deadDecoder`.

* `handleHeader_run`   the second byte of a header;
* `feedLoop_run`       the loop of `feed` is a scan of the unread data;
* `feed_run`           one call of `feed` is a scan of the marked bytes of its data;
* `feeds_clean`, `feeds_bad`   a sequence of calls, without and with a refused byte;
* `feeds_cases`        one of the two always holds.
-/

set_option linter.unusedSectionVars false
set_option linter.unusedVariables false

namespace Bolt
open Rust Rust.Call

section
variable {β : Type}

/-- the bytes of a feed; the first one carries the mark -/
def mark : List β → List (β × Bool)
  | [] => []
  | b :: t => (b, true) :: t.map fun b => (b, false)

/-- the stream that a sequence of feeds supplies -/
def marks (fs : List (List β)) : List (β × Bool) := (fs.map mark).flatten

theorem mark_fst (data : List β) : (mark data).map Prod.fst = data := by
  cases data with
  | nil => rfl
  | cons b t =>
    show b :: (t.map fun b => (b, false)).map Prod.fst = b :: t
    rw [List.map_map]
    exact congrArg _ (List.map_id t)

theorem mark_length (data : List β) : (mark data).length = data.length := by
  rw [← List.length_map (f := Prod.fst), mark_fst]

theorem marks_cons (data : List β) (fs : List (List β)) :
    marks (data :: fs) = mark data ++ marks fs := rfl

theorem marks_append (a b : List (List β)) : marks (a ++ b) = marks a ++ marks b := by
  unfold marks
  rw [List.map_append, List.flatten_append]

theorem marks_fst (fs : List (List β)) : (marks fs).map Prod.fst = fs.flatten := by
  induction fs with
  | nil => rfl
  | cons data fs ih => rw [marks_cons, List.map_append, mark_fst, ih, List.flatten_cons]

def Phase.state : Phase → DecoderState
  | .header => .readingHeader
  | .header2 b => .readingHeaderByte2 b
  | .payload owed => .readingPayload (UInt16.ofNat owed)

def decoderOf (maxSize maxSegs : Usize) (st : Deframe β) : ChunkDecoder β where
  pending := st.segs
  pendingSize := st.total
  state := st.phase.state
  maxMessageSize := maxSize
  maxSegmentsPerMessage := maxSegs

def deadDecoder (maxSize maxSegs : Usize) : ChunkDecoder β where
  pending := []
  pendingSize := 0
  state := .defunct
  maxMessageSize := maxSize
  maxSegmentsPerMessage := maxSegs

theorem fresh_eq_decoderOf (maxSize maxSegs : Usize) :
    (ChunkDecoder.fresh maxSize maxSegs : ChunkDecoder β) = decoderOf maxSize maxSegs .start := rfl

theorem state_ne_defunct (phase : Phase) : phase.state ≠ .defunct := by
  cases phase <;> intro h <;> cases h

end

namespace ChunkDecoder
variable {β : Type} [Octet β] {maxSize maxSegs : Usize}

/-- the deframer with the limits of a decoder -/
abbrev scanner (maxSize maxSegs : Usize) : Scanner (Deframe β) (β × Bool) (List (List β)) ChunkError :=
  deframer maxSize.val maxSegs.val

/-- how the loop ends when the scan of the unread data ends in `r` -/
def loopEnd (maxSize maxSegs : Usize) (messages : List (MessageBuf β)) :
    List (List (List β)) × Except ChunkError (Deframe β) →
    Res ChunkError (List β × List (MessageBuf β)) × ChunkDecoder β
  | (outs, .ok st) =>
    (.ok ([], messages ++ outs.map MessageBuf.fromChunks), decoderOf maxSize maxSegs st)
  | (_, .error e) => (.err e, deadDecoder maxSize maxSegs)

/-- outputs that are already in `messages` -/
theorem loopEnd_emit (messages : List (MessageBuf β)) (o : Option (List (List β)))
    (r : List (List (List β)) × Except ChunkError (Deframe β)) :
    loopEnd maxSize maxSegs (messages ++ o.toList.map MessageBuf.fromChunks) r
      = loopEnd maxSize maxSegs messages (o.toList ++ r.1, r.2) := by
  obtain ⟨outs, st | st⟩ := r
  · rfl
  · show (Res.ok _, _) = (Res.ok _, _)
    rw [List.map_append, List.append_assoc]

/-- the overflow-safe check of a declared size -/
theorem checkedAdd_all {max a b : Nat} (h : max ≤ usizeMax) :
    (checkedAdd a b).all (fun s => decide (max < s)) = true ↔ max < a + b := by
  unfold checkedAdd
  split
  · exact decide_eq_true_iff
  · exact ⟨fun _ => by omega, fun _ => rfl⟩

/-- **A completed header**, in any phase of a decoder whose messages are `segs` so far. -/
theorem handleHeader_run (maxSegs : Usize) {segs : List (List β)} (phase : Phase) (opn : Bool)
    (ht : segs.flatten.length ≤ maxSize.val) (hi : UInt8) (b : β) (first : Bool)
    (messages : List (MessageBuf β)) :
    handleHeader (u16FromBe [hi, Octet.val b]) messages (decoderOf maxSize maxSegs ⟨phase, segs, opn⟩)
      = match Deframe.bad maxSize.val maxSegs.val ⟨.header2 hi, segs, false⟩ (b, first) with
        | some e => (.err e, deadDecoder maxSize maxSegs)
        | none => (.ok (messages ++ (Deframe.next ⟨.header2 hi, segs, false⟩ (b, first)).2.toList.map
            MessageBuf.fromChunks),
            decoderOf maxSize maxSegs (Deframe.next ⟨.header2 hi, segs, false⟩ (b, first)).1) := by
  have hcheck := checkedAdd_all (a := segs.flatten.length) (b := headerSize hi (Octet.val b))
    (Nat.le_of_lt_succ maxSize.isLt)
  unfold handleHeader
  rw [get_bind_run]
  by_cases h0 : headerSize hi (Octet.val b) = 0
  · -- the end marker
    have hbad : Deframe.bad maxSize.val maxSegs.val ⟨.header2 hi, segs, false⟩ (b, first) = none :=
      if_neg fun h => h.1 h0
    rw [hbad, Deframe.next_end h0, if_pos ((headerSize_eq_zero _ _).mpr h0), set_bind_run, pure_run]
    rfl
  · rw [if_neg (fun h => h0 ((headerSize_eq_zero _ _).mp h)), headerSize_u16, Deframe.next_chunk h0]
    by_cases hlarge : maxSize.val < segs.flatten.length + headerSize hi (Octet.val b)
    · have hbad : Deframe.bad maxSize.val maxSegs.val ⟨.header2 hi, segs, false⟩ (b, first)
          = some (.messageTooLarge (saturatingAdd segs.flatten.length (headerSize hi (Octet.val b)))
            maxSize.val) := if_pos ⟨h0, hlarge⟩
      rw [hbad]
      show (if (checkedAdd segs.flatten.length (headerSize hi (Octet.val b))).all
        (fun s => decide (maxSize.val < s)) = true then _ else _ : Call (ChunkDecoder β) _ _) _ = _
      rw [if_pos (hcheck.mpr hlarge), set_bind_run, err_run]
      rfl
    · have hbad : Deframe.bad maxSize.val maxSegs.val ⟨.header2 hi, segs, false⟩ (b, first) = none :=
        if_neg fun h => hlarge h.2
      rw [hbad]
      show (if (checkedAdd segs.flatten.length (headerSize hi (Octet.val b))).all
        (fun s => decide (maxSize.val < s)) = true then _ else _ : Call (ChunkDecoder β) _ _) _ = _
      rw [if_neg (fun h => hlarge (hcheck.mp h)), set_bind_run, pure_run]
      have e : u16FromBe [hi, Octet.val b] = UInt16.ofNat (headerSize hi (Octet.val b)) := by
        rw [← headerSize_u16, UInt16.ofNat_toNat]
      rw [e]
      show (Res.ok messages, _) = (Res.ok (messages ++ []), _)
      rw [List.append_nil]
      rfl

/-- the round that completes a header, and what the loop makes of it -/
theorem loop_header {segs : List (List β)} (phase : Phase)
    (ht : segs.flatten.length ≤ maxSize.val) (hi : UInt8) (b : β) (rest : List β)
    (messages : List (MessageBuf β)) (n : Nat) {data : List β}
    (hcond : unread (data, messages) = true)
    (hstep : feedStep (data, messages) (decoderOf maxSize maxSegs ⟨phase, segs, false⟩)
      = ((handleHeader (u16FromBe [hi, Octet.val b]) messages) >>= fun m =>
          (pure (rest, m) : Call (ChunkDecoder β) ChunkError _))
        (decoderOf maxSize maxSegs ⟨phase, segs, false⟩))
    (ih : ∀ m, Deframe.bad maxSize.val maxSegs.val ⟨.header2 hi, segs, false⟩ (b, false) = none →
      whileLoop unread feedStep n (rest, m)
        (decoderOf maxSize maxSegs (Deframe.next ⟨.header2 hi, segs, false⟩ (b, false)).1)
      = loopEnd maxSize maxSegs m ((scanner maxSize maxSegs).scan
          (Deframe.next ⟨.header2 hi, segs, false⟩ (b, false)).1 (rest.map fun b => (b, false)))) :
    whileLoop unread feedStep (n + 1) (data, messages)
        (decoderOf maxSize maxSegs ⟨phase, segs, false⟩)
      = loopEnd maxSize maxSegs messages ((scanner maxSize maxSegs).scan
          ⟨.header2 hi, segs, false⟩ ((b, false) :: rest.map fun b => (b, false))) := by
  have hh := handleHeader_run maxSegs phase false ht hi b false messages
  cases hb : Deframe.bad maxSize.val maxSegs.val ⟨.header2 hi, segs, false⟩ (b, false) with
  | some e =>
    rw [hb] at hh
    rw [bind_err hh] at hstep
    rw [whileLoop_err hcond hstep]
    have hs := Scanner.scan_bad (scanner maxSize maxSegs) ⟨.header2 hi, segs, false⟩ [] (b, false)
      (rest.map fun b => (b, false)) e trivial hb
    rw [List.nil_append] at hs
    rw [hs]
    rfl
  | none =>
    rw [hb] at hh
    rw [bind_ok hh, pure_run] at hstep
    rw [whileLoop_next hcond hstep, ih _ hb, loopEnd_emit, Scanner.scan_cons _ _ _ _ hb]
    rfl

theorem owing_state (left : Nat) (segs : List (List β)) :
    (Deframe.owing left segs).phase.state
      = if left = 0 then .readingHeader else .readingPayload (UInt16.ofNat left) := by
  unfold Deframe.owing
  split <;> rfl

/-- **A payload round**: one segment is taken, unless it is one too many. -/
theorem feedStep_payload {owed : Nat} {segs : List (List β)}
    (hI : Deframe.Inv maxSize.val maxSegs.val ⟨.payload owed, segs, false⟩) (data : List β)
    (messages : List (MessageBuf β)) :
    feedStep (data, messages) (decoderOf maxSize maxSegs ⟨.payload owed, segs, false⟩)
      = if maxSegs.val < segs.length + 1 then
          (.err (.tooManySegments (segs.length + 1) maxSegs.val), deadDecoder maxSize maxSegs)
        else (.ok (data.drop (min owed data.length), messages), decoderOf maxSize maxSegs
          (.owing (owed - min owed data.length) (segs ++ [data.take (min owed data.length)]))) := by
  obtain ⟨_, h16, hsize⟩ := hI.owed owed rfl
  have hmax : maxSize.val ≤ usizeMax := Nat.le_of_lt_succ maxSize.isLt
  have hlen : (segs ++ [data.take (min owed data.length)]).length = segs.length + 1 := by
    rw [List.length_append, List.length_singleton]
  have htotal : saturatingAdd segs.flatten.length (min owed data.length)
      = (segs ++ [data.take (min owed data.length)]).flatten.length := by
    have h2 : segs.flatten.length + owed ≤ maxSize.val := hsize
    rw [List.flatten_append, List.length_append, List.flatten_singleton, List.length_take]
    unfold saturatingAdd
    omega
  unfold feedStep
  rw [get_bind_run]
  show (splitTo data (min (UInt16.ofNat owed).toNat data.length) >>= fun split => _)
    (decoderOf maxSize maxSegs ⟨.payload owed, segs, false⟩) = _
  rw [UInt16.toNat_ofNat_of_lt' h16, bind_ok (splitTo_run (Nat.min_le_right _ _) _)]
  show (set (ChunkDecoder.mk (segs ++ [data.take (min owed data.length)])
    (saturatingAdd segs.flatten.length (min owed data.length)) _ maxSize maxSegs) >>= fun _ =>
    (if maxSegs.val < (segs ++ [data.take (min owed data.length)]).length then _ else _ :
      Call (ChunkDecoder β) _ _)) _ = _
  rw [set_bind_run, hlen]
  by_cases hcap : maxSegs.val < segs.length + 1
  · rw [if_pos hcap, if_pos hcap, set_bind_run, err_run]
    show (Res.err (ChunkError.tooManySegments (segs ++ [data.take (min owed data.length)]).length
      maxSegs.val), deadDecoder maxSize maxSegs) = _
    rw [hlen]
  · have hmin : (UInt16.ofNat (min owed data.length)).toNat = min owed data.length :=
      UInt16.toNat_ofNat_of_lt' (Nat.lt_of_le_of_lt (Nat.min_le_left _ _) h16)
    rw [if_neg hcap, if_neg hcap, hmin,
      bind_ok (checkedSub_run (Nat.min_le_left owed data.length) _), set_bind_run, pure_run,
      ← owing_state _ (segs ++ [data.take (min owed data.length)])]
    show (Res.ok (data.drop (min owed data.length), messages),
      ChunkDecoder.mk (segs ++ [data.take (min owed data.length)])
        (saturatingAdd segs.flatten.length (min owed data.length)) _ maxSize maxSegs) = _
    unfold decoderOf Deframe.total
    rw [htotal, Deframe.owing_segs]

/-- the scan of a payload round whose segment is accepted -/
theorem scan_payload {owed : Nat} {segs : List (List β)} (h0 : 0 < owed) {data : List β}
    (hd : data ≠ []) (hcap : ¬ maxSegs.val < segs.length + 1) :
    (scanner maxSize maxSegs).scan ⟨.payload owed, segs, false⟩ (data.map fun b => (b, false))
      = (scanner maxSize maxSegs).scan
          (.owing (owed - min owed data.length) (segs ++ [data.take (min owed data.length)]))
          ((data.drop (min owed data.length)).map fun b => (b, false)) := by
  have hpos : 0 < data.length := List.length_pos_iff.mpr hd
  have htake : data.take (min owed data.length) ≠ [] := by
    intro e
    have := congrArg List.length e
    rw [List.length_take, List.length_nil] at this
    omega
  have hlen : ((data.take (min owed data.length)).map fun b => (b, false)).length
      = min owed data.length := by
    rw [List.length_map, List.length_take]
    omega
  have hsplit : (data.map fun b => (b, false))
      = ((data.take (min owed data.length)).map fun b => (b, false))
        ++ ((data.drop (min owed data.length)).map fun b => (b, false)) := by
    rw [← List.map_append, List.take_append_drop]
  have hp := pieces_plain htake
  have hrun := Deframe.run_pieces maxSize.val maxSegs.val
    (hlen.trans_le (Nat.min_le_left owed data.length))
    (fun e => htake (List.map_eq_nil_iff.mp e)) segs
  have hclean : (scanner maxSize maxSegs).Clean ⟨.payload owed, segs, false⟩
      ((data.take (min owed data.length)).map fun b => (b, false)) := by
    refine Deframe.clean_payload (hlen.trans_le (Nat.min_le_left owed data.length))
      (fun h => by cases h) ?_
    rw [extend_false, hp, List.length_append, List.length_singleton]
    omega
  rw [hsplit, Scanner.scan_append _ _ _ _ hclean, hrun, hlen, hp]
  rfl

/-- a payload round keeps the invariant -/
theorem inv_payload {owed : Nat} {segs : List (List β)}
    (hI : Deframe.Inv maxSize.val maxSegs.val ⟨.payload owed, segs, false⟩) {data : List β}
    (hd : data ≠ []) (hcap : ¬ maxSegs.val < segs.length + 1) :
    Deframe.Inv maxSize.val maxSegs.val
      (.owing (owed - min owed data.length) (segs ++ [data.take (min owed data.length)])) := by
  obtain ⟨h0, h16, hsize⟩ := hI.owed owed rfl
  have hpos : 0 < data.length := List.length_pos_iff.mpr hd
  have hne : data.take (min owed data.length) ≠ [] := by
    intro e
    have := congrArg List.length e
    rw [List.length_take, List.length_nil] at this
    omega
  have h2 : segs.flatten.length + owed ≤ maxSize.val := hsize
  refine Deframe.Inv.owing ?_ (by simp) ?_ (by omega) ?_
  · intro s hs
    rcases List.mem_append.mp hs with hs | hs
    · exact hI.nonempty s hs
    · rw [List.mem_singleton.mp hs]
      exact hne
  · rw [List.length_append, List.length_singleton]
    omega
  · rw [List.flatten_append, List.length_append, List.flatten_singleton, List.length_take]
    omega

/-- a payload round, and what the loop makes of it -/
theorem loop_payload {owed : Nat} {segs : List (List β)}
    (hI : Deframe.Inv maxSize.val maxSegs.val ⟨.payload owed, segs, false⟩) (b : β) (rest : List β)
    (messages : List (MessageBuf β)) (n : Nat)
    (ih : ∀ st : Deframe β, ∀ data : List β, Deframe.Inv maxSize.val maxSegs.val st →
      (st.opn = true → data = []) → data.length < (b :: rest).length →
      whileLoop unread feedStep n (data, messages) (decoderOf maxSize maxSegs st)
        = loopEnd maxSize maxSegs messages
            ((scanner maxSize maxSegs).scan st (data.map fun b => (b, false)))) :
    whileLoop unread feedStep (n + 1) (b :: rest, messages)
        (decoderOf maxSize maxSegs ⟨.payload owed, segs, false⟩)
      = loopEnd maxSize maxSegs messages ((scanner maxSize maxSegs).scan
          ⟨.payload owed, segs, false⟩ ((b :: rest).map fun b => (b, false))) := by
  have hstep := feedStep_payload hI (b :: rest) messages
  obtain ⟨h0, h16, hsize⟩ := hI.owed owed rfl
  by_cases hcap : maxSegs.val < segs.length + 1
  · rw [if_pos hcap] at hstep
    have hbad : (scanner maxSize maxSegs).bad ⟨.payload owed, segs, false⟩ (b, false)
        = some (.tooManySegments (segs.length + 1) maxSegs.val) := if_pos ⟨rfl, hcap⟩
    have hs := Scanner.scan_bad (scanner maxSize maxSegs) ⟨.payload owed, segs, false⟩ []
      (b, false) (rest.map fun b => (b, false)) _ trivial hbad
    rw [whileLoop_err rfl hstep, List.map_cons]
    rw [List.nil_append] at hs
    rw [hs]
    rfl
  · rw [if_neg hcap] at hstep
    rw [whileLoop_next rfl hstep, scan_payload h0 (List.cons_ne_nil b rest) hcap]
    refine ih _ _ (inv_payload hI (List.cons_ne_nil b rest) hcap) ?_ ?_
    · -- a segment may still grow only when the data is used up
      intro h
      unfold Deframe.owing at h
      split at h
      · cases h
      · exact List.drop_of_length_le (by omega)
    · rw [List.length_drop, List.length_cons]
      omega

/-- a single byte of a header is kept for the next feed -/
theorem feedStep_header1 (b : β) (segs : List (List β)) (messages : List (MessageBuf β)) :
    feedStep ([b], messages) (decoderOf maxSize maxSegs ⟨.header, segs, false⟩)
      = (.ok ([], messages), decoderOf maxSize maxSegs ⟨.header2 (Octet.val b), segs, false⟩) := rfl

/-- two bytes at once are a whole header -/
theorem feedStep_header (b c : β) (rest : List β) (segs : List (List β))
    (messages : List (MessageBuf β)) :
    feedStep (b :: c :: rest, messages) (decoderOf maxSize maxSegs ⟨.header, segs, false⟩)
      = ((handleHeader (u16FromBe [Octet.val b, Octet.val c]) messages) >>= fun m =>
          (pure (rest, m) : Call (ChunkDecoder β) ChunkError _))
        (decoderOf maxSize maxSegs ⟨.header, segs, false⟩) := rfl

/-- the second byte completes the header that was begun -/
theorem feedStep_header2 (hi : UInt8) (b : β) (rest : List β) (segs : List (List β))
    (messages : List (MessageBuf β)) :
    feedStep (b :: rest, messages) (decoderOf maxSize maxSegs ⟨.header2 hi, segs, false⟩)
      = ((handleHeader (u16FromBe [hi, Octet.val b]) messages) >>= fun m =>
          (pure (rest, m) : Call (ChunkDecoder β) ChunkError _))
        (decoderOf maxSize maxSegs ⟨.header2 hi, segs, false⟩) := rfl

/-- **The loop of `feed`** is a scan of the unread data, from where no segment may grow. -/
theorem feedLoop_run (n : Nat) : ∀ (data : List β) (messages : List (MessageBuf β)) (st : Deframe β),
    Deframe.Inv maxSize.val maxSegs.val st → (st.opn = true → data = []) → data.length < n →
    whileLoop unread feedStep n (data, messages) (decoderOf maxSize maxSegs st)
      = loopEnd maxSize maxSegs messages
          ((scanner maxSize maxSegs).scan st (data.map fun b => (b, false))) := by
  induction n with
  | zero => intro data messages st _ _ h; omega
  | succ n ih =>
    intro data messages st hI ho hn
    cases data with
    | nil =>
      rw [whileLoop_stop rfl]
      show (Res.ok ([], messages), _) = (Res.ok ([], messages ++ []), _)
      rw [List.append_nil]
    | cons b rest =>
      rw [List.length_cons] at hn
      obtain ⟨phase, segs, opn⟩ := st
      have hopn : opn = false := by
        cases opn with
        | false => rfl
        | true => exact absurd (ho rfl) (List.cons_ne_nil b rest)
      subst hopn
      -- after a completed header no segment may grow
      have hgrow : ∀ (hi : UInt8) (c : β) (data : List β),
          (Deframe.next ⟨.header2 hi, segs, false⟩ (c, false)).1.opn = true → data = [] := by
        intro hi c data h
        rw [Deframe.next_header2_opn] at h
        cases h
      cases phase with
      | header =>
        have hI2 : Deframe.Inv maxSize.val maxSegs.val
          (⟨.header2 (Octet.val b), segs, false⟩ : Deframe β) := hI.next (x := (b, false)) rfl
        rw [List.map_cons, Scanner.scan_cons (scanner maxSize maxSegs) _ _ _ rfl]
        cases rest with
        | nil =>
          rw [whileLoop_next rfl (feedStep_header1 b segs messages),
            ih [] messages _ hI2 (fun _ => rfl) (by rw [List.length_nil] at hn ⊢; omega)]
          rfl
        | cons c rest =>
          rw [List.length_cons] at hn
          exact loop_header .header hI.size_le (Octet.val b) c rest messages n rfl
            (feedStep_header b c rest segs messages) fun m hb =>
            ih rest m _ (hI2.next hb) (hgrow _ c rest) (by omega)
      | header2 hi =>
        exact loop_header (.header2 hi) hI.size_le hi b rest messages n rfl
          (feedStep_header2 hi b rest segs messages) fun m hb =>
          ih rest m _ (hI.next hb) (hgrow hi b rest) (by omega)
      | payload owed =>
        refine loop_payload hI b rest messages n fun st data hst ho hlt => ?_
        exact ih data messages st hst ho (by rw [List.length_cons] at hlt; omega)

/-! ## one call of `feed` -/

/-- how a call ends when the scan of its data ends in `r` -/
def feedEnd (maxSize maxSegs : Usize) :
    List (List (List β)) × Except ChunkError (Deframe β) →
    Res ChunkError (List (MessageBuf β)) × ChunkDecoder β
  | (outs, .ok st) => (.ok (outs.map MessageBuf.fromChunks), decoderOf maxSize maxSegs st)
  | (_, .error e) => (.err e, deadDecoder maxSize maxSegs)

/-- the first byte of a feed closes the last segment -/
theorem scan_mark {phase : Phase} {segs : List (List β)} {opn : Bool}
    (ho : opn = true → ∃ owed, phase = .payload owed) (b : β) (t : List β) :
    (scanner maxSize maxSegs).scan ⟨phase, segs, opn⟩ (mark (b :: t))
      = (scanner maxSize maxSegs).scan ⟨phase, segs, false⟩ ((b :: t).map fun b => (b, false)) := by
  have hn : (scanner maxSize maxSegs).next ⟨phase, segs, opn⟩ (b, true)
      = (scanner maxSize maxSegs).next ⟨phase, segs, false⟩ (b, false) := Deframe.next_first ho b
  have hb : (scanner maxSize maxSegs).bad ⟨phase, segs, opn⟩ (b, true)
      = (scanner maxSize maxSegs).bad ⟨phase, segs, false⟩ (b, false) := Deframe.bad_first ho b
  simp only [mark, List.map_cons, Scanner.scan, hn, hb]

/-- **One call of `feed`** is a scan of the marked bytes of its data. -/
theorem feed_run {st : Deframe β} (hI : Deframe.Inv maxSize.val maxSegs.val st) (data : List β) :
    feed data (decoderOf maxSize maxSegs st)
      = feedEnd maxSize maxSegs ((scanner maxSize maxSegs).scan st (mark data)) := by
  obtain ⟨phase, segs, opn⟩ := st
  have hloop : whileLoop unread feedStep (data.length + 1) (data, [])
      (decoderOf maxSize maxSegs ⟨phase, segs, opn⟩)
      = loopEnd maxSize maxSegs [] ((scanner maxSize maxSegs).scan ⟨phase, segs, false⟩
          (data.map fun b => (b, false))) := by
    refine feedLoop_run _ data [] ⟨phase, segs, false⟩ ?_ (fun h => by cases h) (by omega)
    exact ⟨hI.nonempty, hI.segs_le, hI.size_le, hI.owed, fun h => by cases h⟩
  have halive : (decoderOf maxSize maxSegs ⟨phase, segs, opn⟩).state ≠ .defunct :=
    state_ne_defunct phase
  unfold feed
  rw [get_bind_run, if_neg halive]
  cases data with
  | nil => rfl
  | cons b t =>
    rw [scan_mark (fun h => (hI.opn h).2) b t]
    rcases hs : (scanner maxSize maxSegs).scan ⟨phase, segs, false⟩
      ((b :: t).map fun b => (b, false)) with ⟨outs, e | st'⟩
    · rw [hs] at hloop
      rw [bind_err hloop]
      rfl
    · rw [hs] at hloop
      rw [bind_ok hloop, pure_run]
      rfl

theorem feed_dead (data : List β) :
    feed data (deadDecoder maxSize maxSegs) = (.err .defunct, deadDecoder maxSize maxSegs) := rfl

/-! ## sequences of calls -/

theorem feeds_dead (fs : List (List β)) :
    feeds fs (deadDecoder maxSize maxSegs)
      = (fs.map fun _ => .err .defunct, deadDecoder maxSize maxSegs) := by
  induction fs with
  | nil => rfl
  | cons data fs ih => rw [feeds_cons, feed_dead, ih, List.map_cons]

/-- what a call returns that gives the messages `outs` -/
def emitted (outs : List (List (List β))) : Res ChunkError (List (MessageBuf β)) :=
  .ok (outs.map MessageBuf.fromChunks)

theorem map_emitted (bs : List (List (List (List β)))) :
    bs.map emitted = (bs.map fun outs => outs.map MessageBuf.fromChunks).map Res.ok := by
  rw [List.map_map]
  rfl

/-- **No byte is refused**: every call returns the messages of its batch. -/
theorem feeds_clean (fs : List (List β)) : ∀ {st : Deframe β},
    Deframe.Inv maxSize.val maxSegs.val st → (scanner maxSize maxSegs).Clean st (marks fs) →
    feeds fs (decoderOf maxSize maxSegs st)
      = (((scanner maxSize maxSegs).batches st (fs.map mark)).map emitted,
        decoderOf maxSize maxSegs ((scanner maxSize maxSegs).run st (marks fs)).1) := by
  induction fs with
  | nil => intro st _ _; rfl
  | cons data fs ih =>
    intro st hI hc
    rw [marks_cons, Scanner.clean_append] at hc
    have hfeed := feed_run hI data
    rw [Scanner.scan_clean _ _ _ hc.1] at hfeed
    rw [feeds_cons, hfeed]
    show ((_ : Res ChunkError (List (MessageBuf β))) :: (feeds fs (decoderOf maxSize maxSegs
      ((scanner maxSize maxSegs).run st (mark data)).1)).1, (feeds fs (decoderOf maxSize maxSegs
      ((scanner maxSize maxSegs).run st (mark data)).1)).2) = _
    rw [ih (hI.run hc.1) hc.2, marks_cons, Scanner.run_append, List.map_cons, Scanner.batches_cons,
      List.map_cons]
    rfl

/-- **A byte is refused**: the calls before it return their messages, the call that holds it fails,
and from then on the decoder is dead. -/
theorem feeds_bad {st : Deframe β} (hI : Deframe.Inv maxSize.val maxSegs.val st)
    (done : List (List β)) (data : List β) (todo : List (List β)) {pre post : List (β × Bool)}
    {x : β × Bool} {e : ChunkError} (hdata : mark data = pre ++ x :: post)
    (hc : (scanner maxSize maxSegs).Clean st (marks done ++ pre))
    (hx : (scanner maxSize maxSegs).bad ((scanner maxSize maxSegs).run st (marks done ++ pre)).1 x
      = some e) :
    feeds (done ++ data :: todo) (decoderOf maxSize maxSegs st)
      = (((scanner maxSize maxSegs).batches st (done.map mark)).map emitted
          ++ .err e :: todo.map fun _ => .err .defunct, deadDecoder maxSize maxSegs) := by
  rw [Scanner.clean_append] at hc
  rw [Scanner.run_append] at hx
  have hfeed := feed_run (hI.run hc.1) data
  rw [hdata, Scanner.scan_bad _ _ _ _ _ _ hc.2 hx] at hfeed
  rw [feeds_append, feeds_clean done hI hc.1, feeds_cons, hfeed]
  show (_ ++ .err e :: (feeds todo (deadDecoder maxSize maxSegs)).1,
    (feeds todo (deadDecoder maxSize maxSegs)).2) = _
  rw [feeds_dead]

theorem feeds_cases (maxSize maxSegs : Usize) (st : Deframe β) (fs : List (List β)) :
    (scanner maxSize maxSegs).Clean st (marks fs) ∨
    ∃ done data todo pre x post e, fs = done ++ data :: todo ∧ mark data = pre ++ x :: post ∧
      (scanner maxSize maxSegs).Clean st (marks done ++ pre) ∧
      (scanner maxSize maxSegs).bad ((scanner maxSize maxSegs).run st (marks done ++ pre)).1 x
        = some e := by
  rcases Scanner.clean_or_bad_batch (scanner maxSize maxSegs) st (fs.map mark) with
    h | ⟨done, b, todo, pre, x, post, e, hfs, hb, hc, hx⟩
  · exact .inl h
  · right
    obtain ⟨done', rest, rfl, hdone, hrest⟩ := List.map_eq_append_iff.mp hfs
    obtain ⟨data, todo', rfl, hdata, htodo⟩ := List.map_eq_cons_iff.mp hrest
    refine ⟨done', data, todo', pre, x, post, e, rfl, hdata.trans hb, ?_, ?_⟩
    · rw [← hdone] at hc
      exact hc
    · rw [← hdone] at hx
      exact hx

end ChunkDecoder
end Bolt
