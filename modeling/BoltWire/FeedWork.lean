import BoltWire.Lib.Amortized
import BoltWire.Delivery
import BoltWire.Resources

/-!
# What feeding costs

The loop of `feed` goes round once for a header and once for a segment, never for a byte of payload.

* `feedRounds`, `feedsRounds`   the rounds of one call and of a sequence of calls;
* `feed_rounds`      a call is its loop with that many rounds;
* `shown`            what a decoder has to show for its work: segments, messages, and how far it is
                     in a chunk;
* `feedStep_shown`   every round adds to it;
* `feeds_rounds`     so the work is in what comes out.
-/

set_option linter.unusedSectionVars false

namespace Bolt
open Rust Rust.Call

def DecoderState.progress : DecoderState → Nat
  | .readingHeader => 0
  | .readingHeaderByte2 _ => 1
  | .readingPayload _ => 2
  | .defunct => 0

namespace ChunkDecoder
variable {β : Type}

def segments (messages : List (MessageBuf β)) : Nat := (messages.map fun m => m.chunks.length).sum

/-- segments weigh three and messages two, so that a chunk header pays for itself -/
def shown (messages : List (MessageBuf β)) (self : ChunkDecoder β) : Nat :=
  3 * (segments messages + self.pending.length) + 2 * messages.length + self.state.progress

variable [Octet β] {maxSize maxSegs : Usize}

/-- how often the loop of a call goes round -/
def feedRounds (data : List β) (self : ChunkDecoder β) : Nat :=
  if self.state = .defunct then 0 else rounds unread feedStep (data.length + 1) (data, []) self

def feedsRounds : List (List β) → ChunkDecoder β → Nat
  | [], _ => 0
  | data :: rest, self => feedRounds data self + feedsRounds rest (feed data self).2

/-- a decoder within its limits, as the loop finds it -/
def Alive (maxSize maxSegs : Usize) (self : ChunkDecoder β) : Prop :=
  ∃ st : Deframe β, Deframe.Inv maxSize.val maxSegs.val st ∧ self = decoderOf maxSize maxSegs st

/-- the mark of the last segment is of no concern to the decoder -/
theorem Alive.unmarked {self : ChunkDecoder β} (h : Alive maxSize maxSegs self) :
    ∃ phase segs, Deframe.Inv maxSize.val maxSegs.val (⟨phase, segs, false⟩ : Deframe β) ∧
      self = decoderOf maxSize maxSegs ⟨phase, segs, false⟩ := by
  obtain ⟨⟨phase, segs, opn⟩, hI, rfl⟩ := h
  exact ⟨phase, segs, ⟨hI.nonempty, hI.segs_le, hI.size_le, hI.owed, nofun⟩, rfl⟩

/-- what one round of the loop may do: it reads on and has more to show -/
def Advances (maxSize maxSegs : Usize) (p : List β × List (MessageBuf β)) (self : ChunkDecoder β)
    (p' : List β × List (MessageBuf β)) (self' : ChunkDecoder β) : Prop :=
  Alive maxSize maxSegs self' ∧ p'.1.length < p.1.length ∧ shown p.2 self + 1 ≤ shown p'.2 self'

theorem segments_append (a b : List (MessageBuf β)) : segments (a ++ b) = segments a + segments b := by
  simp [segments]

/-- messages are shown by one decoder and then by another -/
theorem shown_append (a b : List (MessageBuf β)) (self self' : ChunkDecoder β) :
    shown (a ++ b) self' + shown [] self = shown a self + shown b self' := by
  have hnil : segments ([] : List (MessageBuf β)) = 0 := rfl
  unfold shown
  rw [segments_append, List.length_append, hnil, List.length_nil]
  omega

/-- a completed header, from any phase between two chunks -/
theorem header_shown (phase : Phase) {segs : List (List β)} (hphase : phase.state.progress ≤ 1)
    {hi : UInt8} {b : β}
    (hI : Deframe.Inv maxSize.val maxSegs.val ⟨.header2 hi, segs, false⟩)
    {data rest : List β} (hlt : rest.length < data.length) {messages : List (MessageBuf β)}
    {p' : List β × List (MessageBuf β)} {self' : ChunkDecoder β}
    (h : ((handleHeader (u16FromBe [hi, Octet.val b]) messages) >>= fun m =>
        (pure (rest, m) : Call (ChunkDecoder β) ChunkError _))
      (decoderOf maxSize maxSegs ⟨phase, segs, false⟩) = (.ok p', self')) :
    Advances maxSize maxSegs (data, messages) (decoderOf maxSize maxSegs ⟨phase, segs, false⟩)
      p' self' := by
  have hh := handleHeader_run maxSegs phase false hI.size_le hi b false messages
  cases hb : Deframe.bad maxSize.val maxSegs.val ⟨.header2 hi, segs, false⟩ (b, false) with
  | some e =>
    rw [hb] at hh
    rw [bind_err hh] at h
    cases h
  | none =>
    rw [hb] at hh
    rw [bind_ok hh, pure_run] at h
    cases h
    refine ⟨⟨_, hI.next hb, rfl⟩, hlt, ?_⟩
    by_cases h0 : headerSize hi (Octet.val b) = 0
    · -- an end marker: the pending segments go into the message
      have hwithin : Deframe.Within maxSize.val maxSegs.val segs :=
        ⟨hI.nonempty, hI.segs_le, hI.size_le⟩
      have hsegs : segments [MessageBuf.fromChunks segs] = segs.length := by
        rw [(fromChunks_bounded hwithin).1]
        rfl
      rw [Deframe.next_end h0]
      show 3 * (segments messages + segs.length) + 2 * messages.length + phase.state.progress + 1
        ≤ 3 * (segments (messages ++ [MessageBuf.fromChunks segs]) + 0)
          + 2 * (messages ++ [MessageBuf.fromChunks segs]).length + 0
      rw [segments_append, hsegs, List.length_append, List.length_singleton]
      omega
    · -- a chunk begins
      rw [Deframe.next_chunk h0]
      show 3 * (segments messages + segs.length) + 2 * messages.length + phase.state.progress + 1
        ≤ 3 * (segments (messages ++ []) + segs.length) + 2 * (messages ++ []).length + 2
      rw [List.append_nil]
      omega

/-- **One round** of the loop. -/
theorem feedStep_shown {self self' : ChunkDecoder β} (hself : Alive maxSize maxSegs self)
    {p p' : List β × List (MessageBuf β)} (hp : unread p = true)
    (h : feedStep p self = (.ok p', self')) : Advances maxSize maxSegs p self p' self' := by
  obtain ⟨phase, segs, hI, rfl⟩ := hself.unmarked
  obtain ⟨_ | ⟨b, rest⟩, messages⟩ := p
  · cases hp
  cases phase with
  | header =>
    have hI2 : Deframe.Inv maxSize.val maxSegs.val
        (⟨.header2 (Octet.val b), segs, false⟩ : Deframe β) := hI.next (x := (b, false)) rfl
    cases rest with
    | nil =>
      rw [feedStep_header1] at h
      cases h
      exact ⟨⟨_, hI2, rfl⟩, Nat.zero_lt_one, Nat.le_refl _⟩
    | cons c rest =>
      rw [feedStep_header] at h
      exact header_shown .header (Nat.zero_le 1) hI2 (Nat.lt_succ_of_lt (Nat.lt_succ_self _)) h
  | header2 hi =>
    rw [feedStep_header2] at h
    exact header_shown (.header2 hi) (Nat.le_refl 1) hI (Nat.lt_succ_self _) h
  | payload owed =>
    obtain ⟨h0, -, -⟩ := hI.owed owed rfl
    rw [feedStep_payload hI] at h
    by_cases hcap : maxSegs.val < segs.length + 1
    · rw [if_pos hcap] at h
      cases h
    · rw [if_neg hcap] at h
      cases h
      refine ⟨⟨_, inv_payload hI (List.cons_ne_nil b rest) hcap, rfl⟩, ?_, ?_⟩
      · show (List.drop _ (b :: rest)).length < (b :: rest).length
        rw [List.length_drop, List.length_cons]
        omega
      · show 3 * (segments messages + segs.length) + 2 * messages.length + 2 + 1
          ≤ 3 * (segments messages + (Deframe.owing _ _).segs.length) + 2 * messages.length + _
        rw [Deframe.owing_segs, List.length_append, List.length_singleton]
        omega

/-! ## calls -/

theorem Alive.state_ne {self : ChunkDecoder β} (h : Alive maxSize maxSegs self) :
    self.state ≠ .defunct := by
  obtain ⟨st, -, rfl⟩ := h
  exact state_ne_defunct st.phase

/-- a call that returns messages is paid for by what it adds -/
theorem feed_shown {self self' : ChunkDecoder β} (hself : Alive maxSize maxSegs self)
    {data : List β} {messages : List (MessageBuf β)}
    (h : feed data self = (.ok messages, self')) : Alive maxSize maxSegs self' ∧
    feedRounds data self + shown [] self ≤ shown messages self' := by
  unfold feed at h
  rw [get_bind_run, if_neg hself.state_ne] at h
  obtain ⟨p, mid, hloop, h⟩ := ok_of_bind h
  cases h
  rw [feedRounds, if_neg hself.state_ne]
  have hgain := rounds_gain (fun _ => Alive maxSize maxSegs)
    (fun (t : List β × List (MessageBuf β)) s => shown t.2 s)
    (fun t s t' s' hs hc hb => (feedStep_shown hs hc hb).imp_right And.right) _ hself hloop
  exact hgain

/-- a call goes round at most once for each byte, however it ends -/
theorem feedRounds_le {self : ChunkDecoder β} (hself : Alive maxSize maxSegs self) (data : List β) :
    feedRounds data self ≤ data.length := by
  rw [feedRounds, if_neg hself.state_ne]
  refine rounds_le (fun _ => Alive maxSize maxSegs)
    (fun (t : List β × List (MessageBuf β)) _ => t.1.length)
    (fun t s hs hc => ⟨?_, fun t' s' hb => ?_⟩) _ hself
  · obtain ⟨_ | ⟨b, rest⟩, messages⟩ := t
    · cases hc
    · exact Nat.succ_pos _
  · obtain ⟨halive, hlt, -⟩ := feedStep_shown hs hc hb
    exact ⟨halive, hlt⟩

/-- the rounds of a call are all that its loop needs -/
theorem feed_rounds {self : ChunkDecoder β} (hself : Alive maxSize maxSegs self) (data : List β) :
    feed data self
      = (whileLoop unread feedStep (feedRounds data self + 1) (data, []) >>= fun p => pure p.2) self := by
  have hle := feedRounds_le hself data
  have hloop : whileLoop unread feedStep (feedRounds data self + 1) (data, []) self
      = whileLoop unread feedStep (data.length + 1) (data, []) self := by
    rw [feedRounds, if_neg hself.state_ne] at hle ⊢
    exact rounds_enough _ (Nat.lt_succ_of_le hle) (Nat.lt_succ_self _)
  show (if self.state = .defunct then err .defunct else _ : Call (ChunkDecoder β) ChunkError _) self = _
  rw [if_neg hself.state_ne, bind_run, bind_run, hloop]

theorem feed_reach {self : ChunkDecoder β} (hself : Alive maxSize maxSegs self) (data : List β) :
    Alive maxSize maxSegs (feed data self).2 ∨ (feed data self).2 = deadDecoder maxSize maxSegs := by
  obtain ⟨st, hI, rfl⟩ := hself
  exact feeds_reach hI [data]

theorem feedsRounds_dead (fs : List (List β)) :
    feedsRounds fs (deadDecoder maxSize maxSegs) = 0 := by
  induction fs with
  | nil => rfl
  | cons data fs ih =>
    rw [feedsRounds, feed_dead, ih]
    rfl

theorem feedsRounds_le (fs : List (List β)) : ∀ {self : ChunkDecoder β},
    Alive maxSize maxSegs self → feedsRounds fs self ≤ fs.flatten.length := by
  induction fs with
  | nil => exact fun _ => Nat.le_refl 0
  | cons data fs ih =>
    intro self hself
    have hone := feedRounds_le hself data
    rw [feedsRounds, List.flatten_cons, List.length_append]
    rcases feed_reach hself data with h | h
    · have hrest := ih h
      omega
    · rw [h, feedsRounds_dead]
      omega

theorem feeds_shown (fs : List (List β)) : ∀ {self : ChunkDecoder β}
    {outs : List (List (MessageBuf β))}, Alive maxSize maxSegs self →
    (feeds fs self).1 = outs.map Res.ok →
    feedsRounds fs self + shown [] self ≤ shown (delivered (feeds fs self).1) (feeds fs self).2 := by
  induction fs with
  | nil =>
    intro self outs _ _
    rw [feedsRounds, Nat.zero_add]
    exact Nat.le_refl _
  | cons data fs ih =>
    intro self outs hself h
    obtain ⟨r, mid, hfeed⟩ : ∃ r mid, feed data self = (r, mid) := ⟨_, _, rfl⟩
    rw [feeds_cons, hfeed] at h ⊢
    rw [feedsRounds, hfeed]
    cases outs with
    | nil => cases h
    | cons messages outs =>
      obtain ⟨rfl, hrest⟩ := List.cons.inj h
      obtain ⟨hmid, hone⟩ := feed_shown hself hfeed
      have hall := ih hmid hrest
      have happend := shown_append messages (delivered (feeds fs mid).1) mid (feeds fs mid).2
      show feedRounds data self + feedsRounds fs mid + shown [] self
        ≤ shown (messages ++ delivered (feeds fs mid).1) (feeds fs mid).2
      omega

theorem progress_le (state : DecoderState) : state.progress ≤ 2 := by
  cases state <;> simp [DecoderState.progress]

/-- **The work of a decoder is in what comes out of it.**  On any feeds the loop goes round at most
once for each byte; and while no call fails, however long the chunks are, at most three times for each
segment and twice for each message, over all calls together and with the segments that are still
pending. -/
theorem feeds_rounds (maxSize maxSegs : Usize) (fs : List (List β)) :
    feedsRounds fs (fresh maxSize maxSegs) ≤ fs.flatten.length ∧
    (AllOk maxSize maxSegs fs → feedsRounds fs (fresh maxSize maxSegs)
      ≤ 3 * (segments (delivered (feeds fs (fresh maxSize maxSegs)).1)
          + (feeds fs (fresh maxSize maxSegs)).2.pending.length)
        + 2 * (delivered (feeds fs (fresh maxSize maxSegs)).1).length + 2) := by
  have halive : Alive maxSize maxSegs (fresh maxSize maxSegs : ChunkDecoder β) :=
    ⟨.start, Deframe.Inv.start, fresh_eq_decoderOf maxSize maxSegs⟩
  refine ⟨feedsRounds_le fs halive, fun ⟨outs, hok⟩ => ?_⟩
  have hshown := feeds_shown fs halive hok
  have hprogress := progress_le (feeds fs (fresh maxSize maxSegs)).2.state
  unfold shown at hshown
  omega

/-- a message in two segments and an empty one, in three feeds -/
theorem feeds_rounds_two :
    feedsRounds ([[0, 5, 7, 7, 7], [7, 7], [0, 0, 0, 0]] : List Bytes) (fresh 9 9)
      ≤ 3 * 2 + 2 * 2 + 2 := by
  have hok : AllOk 9 9 ([[0, 5, 7, 7, 7], [7, 7], [0, 0, 0, 0]] : List Bytes) :=
    ⟨[[], [], [⟨[[7, 7, 7], [7, 7]], 5⟩, ⟨[], 0⟩]], by decide⟩
  refine ((feeds_rounds 9 9 _).2 hok).trans ?_
  decide +kernel

end ChunkDecoder
end Bolt
