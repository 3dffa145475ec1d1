import BoltWire.Limits

/-!
# A limit that changes between the feeds

`with_max_segments_per_message` may be called on a decoder that is in the middle of a message, also
with a limit that the pending segments already exceed.

* `feed_tuned`       one call of `feed` is the scan of its data also then;
* `DecoderCall`, `calls`   any order of the two methods;
* `inForce`          every feed with the limit it runs under;
* `sizesAsked`, `segsAsked`   what each feed asks of the limits, whatever they are;
* `calls_tuned`      a feed is held to its own limit only, and only where a segment begins.
-/

set_option linter.unusedSectionVars false

namespace Bolt
open Rust Rust.Call

namespace Deframe
variable {β : Type} {M N maxSize : Nat} {st : Deframe β}

theorem Inv.raise (h : Inv maxSize M st) (hle : M ≤ N) : Inv maxSize N st :=
  ⟨h.nonempty, h.segs_le.trans hle, h.size_le, h.owed, h.opn⟩

theorem Inv.lower (h : Inv maxSize M st) (hle : st.segs.length ≤ N) : Inv maxSize N st :=
  ⟨h.nonempty, hle, h.size_le, h.owed, h.opn⟩

variable [Octet β]

/-- where a stream leads does not depend on the limits -/
theorem run_unlimited (maxSize maxSegs : Nat) (st : Deframe β) (xs : List (β × Bool)) :
    (deframer maxSize maxSegs).run st xs = (deframer 0 0).run st xs :=
  Scanner.run_of_next (T := deframer maxSize maxSegs) (S := deframer 0 0) rfl st xs

end Deframe

namespace ChunkDecoder
variable {β : Type} [Octet β] {maxSize maxSegs : Usize} {M : Nat}

/-! ## a decoder with more pending segments than its limit -/

section
variable {segs : List (List β)}

/-- the next segment is one too many, however short it is -/
theorem feedStep_over {owed : Nat} (h16 : owed < 65536) (hover : maxSegs.val < segs.length + 1)
    (data : List β) (messages : List (MessageBuf β)) :
    feedStep (data, messages) (decoderOf maxSize maxSegs ⟨.payload owed, segs, false⟩)
      = (.err (.tooManySegments (segs.length + 1) maxSegs.val), deadDecoder maxSize maxSegs) := by
  have hlen : (segs ++ [data.take (min owed data.length)]).length = segs.length + 1 := by
    rw [List.length_append, List.length_singleton]
  unfold feedStep
  rw [get_bind_run]
  show (splitTo data (min (UInt16.ofNat owed).toNat data.length) >>= fun split => _)
    (decoderOf maxSize maxSegs ⟨.payload owed, segs, false⟩) = _
  rw [UInt16.toNat_ofNat_of_lt' h16, bind_ok (splitTo_run (Nat.min_le_right _ _) _)]
  show (set (ChunkDecoder.mk (segs ++ [data.take (min owed data.length)])
    (saturatingAdd segs.flatten.length (min owed data.length)) _ maxSize maxSegs) >>= fun _ =>
    (if maxSegs.val < (segs ++ [data.take (min owed data.length)]).length then _ else _ :
      Call (ChunkDecoder β) _ _)) _ = _
  rw [set_bind_run, hlen, if_pos hover, set_bind_run, err_run]
  show (Res.err (ChunkError.tooManySegments (segs ++ [data.take (min owed data.length)]).length
    maxSegs.val), deadDecoder maxSize maxSegs) = _
  rw [hlen]

theorem loop_over_payload {owed : Nat} (h16 : owed < 65536) (hover : maxSegs.val < segs.length + 1)
    {n : Nat} {data : List β} (hn : data.length < n) (messages : List (MessageBuf β)) :
    whileLoop unread feedStep n (data, messages)
        (decoderOf maxSize maxSegs ⟨.payload owed, segs, false⟩)
      = loopEnd maxSize maxSegs messages ((scanner maxSize maxSegs).scan
          ⟨.payload owed, segs, false⟩ (data.map fun b => (b, false))) := by
  obtain ⟨n, rfl⟩ := Nat.exists_eq_succ_of_ne_zero (Nat.ne_zero_of_lt hn)
  cases data with
  | nil =>
    rw [whileLoop_stop rfl]
    show (Res.ok ([], messages), _) = (Res.ok ([], messages ++ []), _)
    rw [List.append_nil]
  | cons b rest =>
    have hbad : (scanner maxSize maxSegs).bad ⟨.payload owed, segs, false⟩ (b, false)
        = some (.tooManySegments (segs.length + 1) maxSegs.val) := if_pos ⟨rfl, hover⟩
    have hs := Scanner.scan_bad (scanner maxSize maxSegs) ⟨.payload owed, segs, false⟩ []
      (b, false) (rest.map fun b => (b, false)) _ trivial hbad
    rw [List.nil_append] at hs
    rw [whileLoop_err rfl (feedStep_over h16 hover (b :: rest) messages), List.map_cons, hs]
    rfl

/-- behind a header the pending segments are gone, or the next one is too many -/
theorem loop_over_header (hover : maxSegs.val < segs.length + 1) (hi : UInt8) (b : β) {n : Nat}
    {rest : List β} (hn : rest.length < n) (messages : List (MessageBuf β)) :
    whileLoop unread feedStep n (rest, messages)
        (decoderOf maxSize maxSegs (Deframe.next ⟨.header2 hi, segs, false⟩ (b, false)).1)
      = loopEnd maxSize maxSegs messages ((scanner maxSize maxSegs).scan
          (Deframe.next ⟨.header2 hi, segs, false⟩ (b, false)).1 (rest.map fun b => (b, false))) := by
  by_cases h0 : headerSize hi (Octet.val b) = 0
  · rw [Deframe.next_end h0]
    exact feedLoop_run n rest messages .start Deframe.Inv.start (fun h => by cases h) hn
  · rw [Deframe.next_chunk h0]
    exact loop_over_payload (headerSize_lt _ _) hover hn messages

theorem feedLoop_over (phase : Phase) (ht : segs.flatten.length ≤ maxSize.val)
    (h16 : ∀ owed, phase = .payload owed → owed < 65536) (hover : maxSegs.val < segs.length + 1)
    {n : Nat} {data : List β} (hn : data.length < n) (messages : List (MessageBuf β)) :
    whileLoop unread feedStep n (data, messages) (decoderOf maxSize maxSegs ⟨phase, segs, false⟩)
      = loopEnd maxSize maxSegs messages ((scanner maxSize maxSegs).scan
          ⟨phase, segs, false⟩ (data.map fun b => (b, false))) := by
  obtain ⟨n, rfl⟩ := Nat.exists_eq_succ_of_ne_zero (Nat.ne_zero_of_lt hn)
  cases data with
  | nil =>
    rw [whileLoop_stop rfl]
    show (Res.ok ([], messages), _) = (Res.ok ([], messages ++ []), _)
    rw [List.append_nil]
  | cons b rest =>
    rw [List.length_cons] at hn
    cases phase with
    | header =>
      rw [List.map_cons, Scanner.scan_cons (scanner maxSize maxSegs) _ _ _ rfl]
      cases rest with
      | nil =>
        obtain ⟨n, rfl⟩ := Nat.exists_eq_succ_of_ne_zero (Nat.ne_zero_of_lt (Nat.lt_of_succ_lt_succ hn))
        rw [whileLoop_next rfl (feedStep_header1 b segs messages), whileLoop_stop rfl]
        show (Res.ok ([], messages), _) = (Res.ok ([], messages ++ []), _)
        rw [List.append_nil]
        rfl
      | cons c rest =>
        rw [List.length_cons] at hn
        exact loop_header .header ht (Octet.val b) c rest messages n rfl
          (feedStep_header b c rest segs messages) fun m _ =>
          loop_over_header hover (Octet.val b) c (by omega) m
    | header2 hi =>
      exact loop_header (.header2 hi) ht hi b rest messages n rfl
        (feedStep_header2 hi b rest segs messages) fun m _ =>
        loop_over_header hover hi b (by omega) m
    | payload owed =>
      have hlen : (b :: rest).length < n + 1 := by
        rw [List.length_cons]
        exact hn
      exact loop_over_payload (h16 owed rfl) hover hlen messages

end

/-- **One call of `feed`** is a scan of its data under the limit it finds, whatever limit the
pending segments were admitted under. -/
theorem feed_tuned {st : Deframe β} (hI : Deframe.Inv maxSize.val M st) (data : List β) :
    feed data (decoderOf maxSize maxSegs st)
      = feedEnd maxSize maxSegs ((scanner maxSize maxSegs).scan st (mark data)) := by
  by_cases hle : st.segs.length ≤ maxSegs.val
  · exact feed_run (hI.lower hle) data
  · obtain ⟨phase, segs, opn⟩ := st
    have hover : maxSegs.val < segs.length + 1 := Nat.lt_succ_of_lt (Nat.lt_of_not_le hle)
    have hloop : whileLoop unread feedStep (data.length + 1) (data, [])
        (decoderOf maxSize maxSegs ⟨phase, segs, opn⟩)
        = loopEnd maxSize maxSegs [] ((scanner maxSize maxSegs).scan ⟨phase, segs, false⟩
            (data.map fun b => (b, false))) :=
      feedLoop_over phase hI.size_le (fun owed h => (hI.owed owed h).2.1) hover
        (Nat.lt_succ_self data.length) []
    have halive : (decoderOf maxSize maxSegs ⟨phase, segs, opn⟩).state ≠ .defunct :=
      state_ne_defunct phase
    unfold feed
    rw [get_bind_run, if_neg halive]
    cases data with
    | nil => rfl
    | cons b t =>
      rw [scan_mark (fun h => (hI.opn h).2) b t]
      rcases hs : (scanner maxSize maxSegs).scan ⟨phase, segs, false⟩
        ((b :: t).map fun b => (b, false)) with ⟨outs, e | st'⟩
      · rw [hs] at hloop
        rw [bind_err hloop]
        rfl
      · rw [hs] at hloop
        rw [bind_ok hloop, pure_run]
        rfl

end ChunkDecoder

/-! ## any order of the two methods -/

inductive DecoderCall (β : Type) where
  | withMaxSegmentsPerMessage (max : Usize)
  | feed (data : List β)

section
variable {β : Type}

/-- every feed with the limit it runs under -/
def inForce : Usize → List (DecoderCall β) → List (Usize × List β)
  | _, [] => []
  | _, .withMaxSegmentsPerMessage max :: cs => inForce max cs
  | limit, .feed data :: cs => (limit, data) :: inForce limit cs

def lastLimit : Usize → List (DecoderCall β) → Usize
  | limit, [] => limit
  | _, .withMaxSegmentsPerMessage max :: cs => lastLimit max cs
  | limit, .feed _ :: cs => lastLimit limit cs

/-- the data of the feeds, marked, each under its limit -/
def marked (ps : List (Usize × List β)) : List (Usize × List (β × Bool)) :=
  ps.map fun p => (p.1, mark p.2)

theorem marked_fst (ps : List (Usize × List β)) :
    (marked ps).map Prod.fst = ps.map Prod.fst := List.map_map.trans rfl

theorem marked_snd (ps : List (Usize × List β)) :
    (marked ps).map Prod.snd = (ps.map Prod.snd).map mark := by
  unfold marked
  rw [List.map_map, List.map_map]
  rfl

variable [Octet β]

/-- the size of a message that each feed asks for -/
def sizesAsked (fs : List (List β)) : List Nat :=
  (deframer 0 0).peaks Deframe.sizeDemand .start (fs.map mark)

/-- the number of segments of a message that each feed asks for -/
def segsAsked (fs : List (List β)) : List Nat :=
  (deframer 0 0).peaks Deframe.segsDemand .start (fs.map mark)

/-- no feed asks for more than is in force when it is fed -/
def Granted (maxSize : Nat) (ps : List (Usize × List β)) : Prop :=
  (∀ n ∈ sizesAsked (ps.map Prod.snd), n ≤ maxSize) ∧
  List.Forall₂ (fun n (limit : Usize) => n ≤ limit.val) (segsAsked (ps.map Prod.snd))
    (ps.map Prod.fst)

instance (maxSize : Nat) (ps : List (Usize × List β)) : Decidable (Granted maxSize ps) :=
  inferInstanceAs (Decidable (_ ∧ _))

/-- a limit that is lowered to 1 before the end marker, and before the last byte, of a message -/
example : segsAsked ([[0, 2, 7], [8], [0, 0]] : List Bytes) = [1, 2, 0] ∧
    Granted 2 [(2, ([0, 2, 7] : Bytes)), (2, [8]), (1, [0, 0])] ∧
    ¬ Granted 2 [(2, ([0, 2, 7] : Bytes)), (1, [8]), (2, [0, 0])] := by decide

end

namespace ChunkDecoder
variable {β : Type} [Octet β] {maxSize limit : Usize} {M : Nat}

def calls : List (DecoderCall β) → ChunkDecoder β →
    List (Res ChunkError (List (MessageBuf β))) × ChunkDecoder β
  | [], self => ([], self)
  | .withMaxSegmentsPerMessage max :: cs, self => calls cs (self.withMaxSegmentsPerMessage max)
  | .feed data :: cs, self =>
    let t := calls cs (feed data self).2
    ((feed data self).1 :: t.1, t.2)

theorem calls_feed (data : List β) (cs : List (DecoderCall β)) (self : ChunkDecoder β) :
    calls (.feed data :: cs) self = ((feed data self).1 :: (calls cs (feed data self).2).1,
      (calls cs (feed data self).2).2) := rfl

theorem granted_iff (ps : List (Usize × List β)) :
    Granted maxSize.val ps ↔ Scanner.Held (scanner maxSize) .start (marked ps) := by
  have h := Scanner.held_iff_peaks (S := scanner maxSize) (T := deframer 0 0) (fun _ => rfl)
    (fun limit => Deframe.bad_none_iff) .start (marked ps)
  rw [marked_fst, marked_snd] at h
  exact h.symm

theorem held_cons (st : Deframe β) (data : List β) (ps : List (Usize × List β)) :
    Scanner.Held (scanner maxSize) st (marked ((limit, data) :: ps)) ↔
      (scanner maxSize limit).Clean st (mark data) ∧
      Scanner.Held (scanner maxSize) ((deframer 0 0).run st (mark data)).1 (marked ps) := by
  rw [← Deframe.run_unlimited maxSize.val limit.val]
  rfl

theorem calls_dead (cs : List (DecoderCall β)) : calls cs (deadDecoder maxSize limit)
    = ((inForce limit cs).map fun _ => .err .defunct, deadDecoder maxSize (lastLimit limit cs)) := by
  induction cs generalizing limit with
  | nil => rfl
  | cons c cs ih =>
    cases c with
    | withMaxSegmentsPerMessage max => exact ih
    | feed data => rw [calls_feed, feed_dead, ih, inForce, List.map_cons, lastLimit]

theorem inv_run {st : Deframe β} (hI : Deframe.Inv maxSize.val M st) {data : List β}
    (hc : (scanner maxSize limit).Clean st (mark data)) :
    Deframe.Inv maxSize.val (max M limit.val) ((deframer 0 0).run st (mark data)).1 := by
  have hlax : Scanner.Laxer (scanner maxSize limit : Scanner (Deframe β) _ _ _)
      (deframer maxSize.val (max M limit.val)) :=
    Deframe.deframer_laxer le_rfl (Nat.le_max_right M limit.val)
  have h := (hI.raise (Nat.le_max_left M limit.val)).run (hlax.clean hc)
  rwa [Deframe.run_unlimited] at h

/-- a feed that asks for no more than its limit -/
theorem feed_held {st : Deframe β} (hI : Deframe.Inv maxSize.val M st) {data : List β}
    (hc : (scanner maxSize limit).Clean st (mark data)) :
    feed data (decoderOf maxSize limit st)
      = (emitted ((deframer 0 0).run st (mark data)).2,
        decoderOf maxSize limit ((deframer 0 0).run st (mark data)).1) := by
  rw [feed_tuned hI, Scanner.scan_clean _ _ _ hc, Deframe.run_unlimited]
  rfl

/-- **No feed asks for too much**: every call returns the messages of its batch. -/
theorem calls_held (cs : List (DecoderCall β)) {st : Deframe β}
    (hI : Deframe.Inv maxSize.val M st)
    (h : Scanner.Held (scanner maxSize) st (marked (inForce limit cs))) :
    calls cs (decoderOf maxSize limit st)
      = (((deframer 0 0).batches st (((inForce limit cs).map Prod.snd).map mark)).map emitted,
        decoderOf maxSize (lastLimit limit cs)
          ((deframer 0 0).run st (marks ((inForce limit cs).map Prod.snd))).1) := by
  induction cs generalizing limit st M with
  | nil => rfl
  | cons c cs ih =>
    cases c with
    | withMaxSegmentsPerMessage max => exact ih hI h
    | feed data =>
      obtain ⟨hc, h⟩ := (held_cons st data (inForce limit cs)).mp h
      rw [calls_feed, feed_held hI hc]
      show ((_ : Res ChunkError (List (MessageBuf β))) :: (calls cs (decoderOf maxSize limit
        ((deframer 0 0).run st (mark data)).1)).1, (calls cs (decoderOf maxSize limit
        ((deframer 0 0).run st (mark data)).1)).2) = _
      rw [ih (inv_run hI hc) h, inForce, List.map_cons, List.map_cons, marks_cons,
        Scanner.run_append, Scanner.batches_cons, List.map_cons]
      rfl

/-- the reason for which a feed under the limit `limit` is refused -/
inductive Overrun (maxSize limit : Usize) : ChunkError → Prop where
  | size {size : Nat} (h : maxSize.val ≤ size) :
      Overrun maxSize limit (.messageTooLarge size maxSize.val)
  | segs {segs : Nat} (h : limit.val < segs) : Overrun maxSize limit (.tooManySegments segs limit.val)

theorem Overrun.of_bad {st : Deframe β} {x : β × Bool} {e : ChunkError}
    (h : Deframe.bad maxSize.val limit.val st x = some e) : Overrun maxSize limit e := by
  obtain ⟨phase, segs, opn⟩ := st
  cases phase with
  | header => cases h
  | header2 hi =>
    obtain ⟨⟨-, hlt⟩, rfl⟩ := Deframe.bad_header2_iff.mp h
    have hmax : maxSize.val ≤ usizeMax := Nat.le_of_lt_succ maxSize.isLt
    -- the reported size is cut off at the greatest one
    exact .size (Nat.le_min.mpr ⟨Nat.le_of_lt hlt, hmax⟩)
  | payload owed =>
    obtain ⟨⟨-, hlt⟩, rfl⟩ := Deframe.bad_payload_iff.mp h
    exact .segs hlt

theorem feed_overrun {st : Deframe β} (hI : Deframe.Inv maxSize.val M st) {data : List β}
    (hc : ¬ (scanner maxSize limit).Clean st (mark data)) :
    ∃ e, Overrun maxSize limit e ∧
      feed data (decoderOf maxSize limit st) = (.err e, deadDecoder maxSize limit) := by
  rcases Scanner.clean_or_bad (scanner maxSize limit) st (mark data) with
    h | ⟨pre, x, post, e, hdata, hpre, hx⟩
  · exact absurd h hc
  · refine ⟨e, .of_bad hx, ?_⟩
    rw [feed_tuned hI, hdata, Scanner.scan_bad _ _ _ _ _ _ hpre hx]
    rfl

/-- **The first feed that asks for too much** fails, whatever the limits are changed to later. -/
theorem calls_refused (cs : List (DecoderCall β)) {st : Deframe β} {done : List (Usize × List β)}
    {p : Usize × List β} {todo : List (Usize × List β)} (hI : Deframe.Inv maxSize.val M st)
    (hcs : inForce limit cs = done ++ p :: todo)
    (h : Scanner.Held (scanner maxSize) st (marked done))
    (hp : ¬ Scanner.Held (scanner maxSize) st (marked (done ++ [p]))) :
    ∃ e, Overrun maxSize p.1 e ∧ calls cs (decoderOf maxSize limit st)
      = (((deframer 0 0).batches st ((done.map Prod.snd).map mark)).map emitted
          ++ .err e :: todo.map fun _ => .err .defunct,
        deadDecoder maxSize (lastLimit limit cs)) := by
  induction cs generalizing limit st M done with
  | nil =>
    rw [inForce] at hcs
    exact absurd hcs.symm (by simp)
  | cons c cs ih =>
    cases c with
    | withMaxSegmentsPerMessage max => exact ih hI hcs h hp
    | feed data =>
      rw [inForce] at hcs
      cases done with
      | nil =>
        obtain ⟨rfl, rfl⟩ := List.cons.inj hcs
        rw [List.nil_append, held_cons] at hp
        obtain ⟨e, he, hfeed⟩ := feed_overrun hI fun hc => hp ⟨hc, trivial⟩
        refine ⟨e, he, ?_⟩
        rw [calls_feed, hfeed, calls_dead]
        rfl
      | cons q done =>
        obtain ⟨rfl, hrest⟩ := List.cons.inj hcs
        obtain ⟨hc, h⟩ := (held_cons st data done).mp h
        rw [List.cons_append, held_cons] at hp
        obtain ⟨e, he, hcalls⟩ := ih (inv_run hI hc) hrest h fun hp' => hp ⟨hc, hp'⟩
        refine ⟨e, he, ?_⟩
        rw [calls_feed, feed_held hI hc]
        show ((_ : Res ChunkError (List (MessageBuf β))) :: (calls cs (decoderOf maxSize limit
          ((deframer 0 0).run st (mark data)).1)).1, (calls cs (decoderOf maxSize limit
          ((deframer 0 0).run st (mark data)).1)).2) = _
        rw [hcalls]
        rfl

/-- what is granted is what a fixed limit grants that is nowhere below the changing one -/
theorem granted_feeds {max : Usize} {ps : List (Usize × List β)} (h : Granted maxSize.val ps)
    (hmax : ∀ p ∈ ps, p.1 ≤ max) :
    feeds (ps.map Prod.snd) (fresh maxSize max)
      = (((deframer 0 0).batches .start ((ps.map Prod.snd).map mark)).map emitted,
        decoderOf maxSize max ((deframer 0 0).run .start (marks (ps.map Prod.snd))).1) := by
  have hc : (scanner maxSize max).Clean .start (marks (ps.map Prod.snd)) := by
    have := ((granted_iff ps).mp h).clean (T := scanner maxSize max) (by
      intro q hq
      obtain ⟨p, hp, rfl⟩ := List.mem_map.mp hq
      exact Deframe.deframer_laxer le_rfl (hmax p hp))
    rwa [marked_snd] at this
  rw [fresh_eq_decoderOf, feeds_clean _ Deframe.Inv.start hc, Deframe.run_unlimited,
    Scanner.batches_of_next (T := scanner maxSize max) (S := deframer 0 0) rfl]

theorem calls_granted {cs : List (DecoderCall β)} {max : Usize}
    (h : Granted maxSize.val (inForce limit cs)) (hmax : ∀ p ∈ inForce limit cs, p.1 ≤ max) :
    calls cs (fresh maxSize limit)
      = ((feeds ((inForce limit cs).map Prod.snd) (fresh maxSize max)).1,
        { (feeds ((inForce limit cs).map Prod.snd) (fresh maxSize max)).2 with
          maxSegmentsPerMessage := lastLimit limit cs }) := by
  rw [granted_feeds h hmax, fresh_eq_decoderOf,
    calls_held (M := 0) cs Deframe.Inv.start ((granted_iff _).mp h)]
  rfl

theorem calls_overrun {cs : List (DecoderCall β)} {max : Usize} {done : List (Usize × List β)}
    {p : Usize × List β} {todo : List (Usize × List β)} (hcs : inForce limit cs = done ++ p :: todo)
    (h : Granted maxSize.val done) (hp : ¬ Granted maxSize.val (done ++ [p]))
    (hmax : ∀ p ∈ done, p.1 ≤ max) :
    ∃ e, Overrun maxSize p.1 e ∧ calls cs (fresh maxSize limit)
      = ((feeds (done.map Prod.snd) (fresh maxSize max)).1
          ++ .err e :: todo.map fun _ => .err .defunct,
        deadDecoder maxSize (lastLimit limit cs)) := by
  rw [granted_feeds h hmax, fresh_eq_decoderOf]
  exact calls_refused (M := 0) cs Deframe.Inv.start hcs ((granted_iff _).mp h)
    fun hheld => hp ((granted_iff _).mpr hheld)

theorem granted_left {a b : List (Usize × List β)} (h : Granted maxSize.val (a ++ b)) :
    Granted maxSize.val a := by
  rw [granted_iff] at h ⊢
  unfold marked at h
  rw [List.map_append] at h
  exact h.left

/-- the feeds are granted, or there is a first one that is not -/
theorem granted_or_first (maxSize : Usize) (ps : List (Usize × List β)) :
    Granted maxSize.val ps ∨ ∃ done p todo, ps = done ++ p :: todo ∧ Granted maxSize.val done ∧
      ¬ Granted maxSize.val (done ++ [p]) := by
  induction ps using List.reverseRecOn with
  | nil => exact .inl ((granted_iff []).mpr trivial)
  | append_singleton ps p ih =>
    rcases ih with h | ⟨done, q, todo, rfl, h, hq⟩
    · by_cases hp : Granted maxSize.val (ps ++ [p])
      · exact .inl hp
      · exact .inr ⟨ps, p, [], rfl, h, hp⟩
    · refine .inr ⟨done, q, todo ++ [p], ?_, h, hq⟩
      rw [List.append_assoc, List.cons_append]

/-- results up to the first error -/
theorem take_ok_iff {α ε : Type} (good : List α) (e : ε) (rest : List (Res ε α)) (k : Nat) :
    (∀ r ∈ (good.map Res.ok ++ Res.err e :: rest).take k, ∃ a, r = .ok a) ↔ k ≤ good.length := by
  induction good generalizing k with
  | nil =>
    cases k with
    | zero => exact ⟨fun _ => le_rfl, fun _ r hr => absurd hr List.not_mem_nil⟩
    | succ k =>
      refine ⟨fun h => ?_, fun h => absurd h (Nat.not_succ_le_zero k)⟩
      obtain ⟨a, ha⟩ := h (Res.err e) List.mem_cons_self
      cases ha
  | cons a good ih =>
    cases k with
    | zero => exact ⟨fun _ => Nat.zero_le _, fun _ r hr => absurd hr List.not_mem_nil⟩
    | succ k =>
      rw [List.map_cons, List.cons_append, List.take_succ_cons, List.forall_mem_cons, ih,
        List.length_cons, Nat.succ_le_succ_iff]
      exact and_iff_right ⟨a, rfl⟩

/-- the feeds that succeed are those that are granted with all feeds before them -/
theorem calls_ok_iff (maxSize limit : Usize) (cs : List (DecoderCall β)) (k : Nat) :
    (∀ r ∈ (calls cs (fresh maxSize limit)).1.take k, ∃ messages, r = .ok messages) ↔
      Granted maxSize.val ((inForce limit cs).take k) := by
  rcases granted_or_first maxSize (inForce limit cs) with h | ⟨done, p, todo, hcs, h, hp⟩
  · refine iff_of_true (fun r hr => ?_) (granted_left (b := (inForce limit cs).drop k) ?_)
    · rw [fresh_eq_decoderOf,
        calls_held (M := 0) cs Deframe.Inv.start ((granted_iff _).mp h)] at hr
      obtain ⟨outs, -, rfl⟩ := List.mem_map.mp (List.mem_of_mem_take hr)
      exact ⟨_, rfl⟩
    · rwa [List.take_append_drop]
  · obtain ⟨e, -, hcalls⟩ := calls_refused (M := 0) cs Deframe.Inv.start hcs
      ((granted_iff _).mp h) fun hheld => hp ((granted_iff _).mpr hheld)
    have hlen := Scanner.batches_length (deframer 0 0 : Scanner (Deframe β) _ _ _) .start
      ((done.map Prod.snd).map mark)
    rw [fresh_eq_decoderOf, hcalls, map_emitted, take_ok_iff, List.length_map, hlen, List.length_map,
      List.length_map, hcs]
    constructor
    · intro hk
      rw [List.take_append_of_le_length hk]
      exact granted_left (b := done.drop k) (by rwa [List.take_append_drop])
    · intro hk
      by_contra hlt
      obtain ⟨j, rfl⟩ : ∃ j, k = done.length + (j + 1) := ⟨k - done.length - 1, by omega⟩
      rw [List.take_length_add_append, List.take_succ_cons] at hk
      refine hp (granted_left (b := todo.take j) ?_)
      rwa [List.append_assoc, List.cons_append, List.nil_append]

/-- **A limit that changes between the feeds.**  Whatever the order of the calls, a feed succeeds
exactly when it and all feeds before it ask for no more than the limit each of them runs under, and
what a feed asks for depends on the stream alone.  While nothing is refused, the messages and the
state are those of a decoder with a fixed limit that is nowhere lower; the first feed that asks for
too much is refused for its own limit, and nothing revives the decoder. -/
theorem calls_tuned (maxSize limit : Usize) (cs : List (DecoderCall UInt8)) :
    (∀ k, (∀ r ∈ (calls cs (fresh maxSize limit)).1.take k, ∃ messages, r = .ok messages) ↔
      Granted maxSize.val ((inForce limit cs).take k)) ∧
    ∀ max : Usize, (∀ p ∈ inForce limit cs, p.1 ≤ max) →
      (Granted maxSize.val (inForce limit cs) → calls cs (fresh maxSize limit)
        = ((feeds ((inForce limit cs).map Prod.snd) (fresh maxSize max)).1,
          { (feeds ((inForce limit cs).map Prod.snd) (fresh maxSize max)).2 with
            maxSegmentsPerMessage := lastLimit limit cs })) ∧
      ∀ done p todo, inForce limit cs = done ++ p :: todo → Granted maxSize.val done →
        ¬ Granted maxSize.val (done ++ [p]) →
        ∃ e, Overrun maxSize p.1 e ∧ calls cs (fresh maxSize limit)
          = ((feeds (done.map Prod.snd) (fresh maxSize max)).1
              ++ .err e :: todo.map fun _ => .err .defunct,
            deadDecoder maxSize (lastLimit limit cs)) := by
  refine ⟨calls_ok_iff maxSize limit cs, fun max hmax => ⟨fun h => calls_granted h hmax, ?_⟩⟩
  intro done p todo hcs h hp
  refine calls_overrun hcs h hp fun q hq => hmax q ?_
  rw [hcs]
  exact List.mem_append_left _ hq

/-- a message of two fragments comes out under a limit of 1 that was set before its end marker -/
theorem calls_tuned_lowered :
    (calls [.feed [0, 2, 7], .feed [8], .withMaxSegmentsPerMessage 1, .feed [0, 0]]
      (fresh 2 2 : ChunkDecoder UInt8)).1 = [.ok [], .ok [], .ok [⟨[[7], [8]], 2⟩]] := by
  have h := (calls_tuned 2 2 [.feed [0, 2, 7], .feed [8], .withMaxSegmentsPerMessage 1,
    .feed [0, 0]]).2 2 (by decide)
  rw [h.1 (by decide)]
  decide

end ChunkDecoder
end Bolt
