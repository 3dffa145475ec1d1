import BoltWire.Lib.Frame
import BoltWire.Lib.Packing
import BoltWire.Client

/-!
# What reading a message copies

`copy_to_bytes` splits its bytes out of the current segment, and allocates only for a value that lies
across a segment boundary.

* `Later`        what is behind the current segment only gets shorter;
* `seams`        the boundaries between the segments of a message;
* `copyToBytesIn`   the body of `copy_to_bytes` with its allocation as a parameter;
* `Metered`      a message that writes down every allocation, where `copy_to_bytes` makes it;
* `copyToBytes_erase`    without what it writes down it is the message;
* `copyToBytes_copies`   what one `copy_to_bytes` writes down;
* `Metered.Inv`  the copies lie one behind the other in what has been read, each across a seam;
* `feeds_copies`   what any client makes any message of a connection copy.
-/

set_option linter.unusedSectionVars false

namespace Bolt
open Rust Rust.Call Packing

section
variable {σ ε β : Type}

theorem index_still (data : List β) (i : Nat) : Still (index data i : Call σ ε β) := by
  intro s
  unfold index
  cases data[i]? with
  | some b => rfl
  | none => rfl

theorem checkedSub_still (a b : Nat) : Still (checkedSub a b : Call σ ε Nat) :=
  (Still.assert _).seq fun _ => Still.pure _

theorem dropFront_still (data : List β) (cnt : Nat) : Still (dropFront data cnt : Call σ ε (List β)) :=
  (Still.assert _).seq fun _ => Still.pure _

theorem splitTo_still (data : List β) (n : Nat) :
    Still (splitTo data n : Call σ ε (List β × List β)) :=
  (Still.assert _).seq fun _ => Still.pure _

end

namespace MessageBuf
variable {β ε : Type}

/-! ## the segments behind the current one -/

def Later (a b : MessageBuf β) : Prop := b.chunks.tail <:+ a.chunks.tail

theorem Later.refl (a : MessageBuf β) : Later a a := List.suffix_refl _

theorem Later.trans (a b c : MessageBuf β) (h : Later a b) (h' : Later b c) : Later a c :=
  List.IsSuffix.trans h' h

theorem later_storeFront (self : MessageBuf β) (first : List β) : Later self (self.storeFront first) := by
  unfold Later storeFront
  cases first with
  | nil => exact List.tail_suffix _
  | cons b first => exact List.suffix_refl _

theorem advanceStep_later (cnt : Nat) : Keeps Later (advanceStep cnt : Call (MessageBuf β) ε Nat) :=
  Keeps.get fun self => (index_still _ _).bind (Later.refl self) fun _ =>
    (dropFront_still _ _).bind (Later.refl self) fun first =>
      (checkedSub_still _ _).bind (Later.refl self) fun _ => later_storeFront self first

theorem advance_later (cnt : Nat) : Keeps Later (advance cnt : Call (MessageBuf β) ε Unit) :=
  Keeps.get fun self => (Still.assert _).bind (Later.refl self) fun _ =>
    (checkedSub_still _ _).bind (Later.refl self) fun left =>
      Keeps.bind Later.trans (Keeps.whileLoop Later.refl Later.trans advanceStep_later _ _)
        (fun _ s => Later.refl s) { self with remaining := left }

theorem copyStep_later (len : Nat) (p : List β × Nat) :
    Keeps Later (copyStep len p : Call (MessageBuf β) ε (List β × Nat)) :=
  Keeps.get fun self => (index_still _ _).bind (Later.refl self) fun _ =>
    (checkedSub_still _ _).bind (Later.refl self) fun _ =>
      (dropFront_still _ _).bind (Later.refl self) fun first => later_storeFront self first

theorem copyToBytes_later (len : Nat) :
    Keeps Later (copyToBytes len : Call (MessageBuf β) ε (List β)) := by
  unfold copyToBytes
  by_cases h0 : len = 0
  · rw [if_pos h0]
    exact fun s => Later.refl s
  rw [if_neg h0]
  refine Keeps.get fun self => (Still.assert _).bind (Later.refl self) fun _ =>
    (index_still _ _).bind (Later.refl self) fun first => ?_
  by_cases hfit : len ≤ first.length
  · rw [if_pos hfit]
    exact (splitTo_still _ _).bind (Later.refl self) fun p =>
      (checkedSub_still _ _).bind (Later.refl self) fun _ => later_storeFront self p.2
  · rw [if_neg hfit]
    refine Keeps.bind Later.trans (Keeps.whileLoop Later.refl Later.trans (copyStep_later len) _ _)
      (fun p => ?_) self
    exact Keeps.get fun self => (checkedSub_still _ _).bind (Later.refl self) fun _ => Later.refl self

/-! ## seams -/

def seams (segs : List (List β)) : List Nat :=
  (List.range (segs.length - 1)).map fun k => (segs.take (k + 1)).flatten.length

theorem seams_length (segs : List (List β)) : (seams segs).length = segs.length - 1 := by
  rw [seams, List.length_map, List.length_range]

theorem mem_seams {pre post : List (List β)} (hpre : pre ≠ []) (hpost : post ≠ []) :
    pre.flatten.length ∈ seams (pre ++ post) := by
  have h1 := List.length_pos_iff.mpr hpre
  have h2 := List.length_pos_iff.mpr hpost
  refine List.mem_map.mpr ⟨pre.length - 1, List.mem_range.mpr ?_, ?_⟩
  · rw [List.length_append]
    omega
  · rw [Nat.sub_add_cancel h1, List.take_left]

/-! ## the allocation -/

/-- `copyToBytes` for a caller that is told of the allocation: `onBuf` is a call on the buffer, and
`allocate` stands where the value lies across segments and gets a buffer of its own -/
def copyToBytesIn {σ : Type} (onBuf : {α : Type} → Call (MessageBuf β) ε α → Call σ ε α)
    (allocate : Nat → Call σ ε Unit) (len : Nat) : Call σ ε (List β) :=
  if len = 0 then pure []
  else do
    let self ← onBuf get
    onBuf (assert (len ≤ self.remaining))
    let first ← onBuf (index self.chunks 0)
    if len ≤ first.length then
      let (out, first) ← onBuf (splitTo first len)
      let left ← onBuf (checkedSub self.remaining len)
      onBuf (set { self.storeFront first with remaining := left })
      pure out
    else
      -- `BytesMut::with_capacity(len)`
      allocate len
      let (acc, _) ← onBuf (whileLoop (fun p => decide (p.2 < len)) (copyStep len)
        (self.chunks.length + len + 2) ([], 0))
      let self ← onBuf get
      let left ← onBuf (checkedSub self.remaining len)
      onBuf (set { self with remaining := left })
      pure acc

/-- **It is `copyToBytes`**, for a caller that does nothing about it. -/
theorem copyToBytesIn_self (len : Nat) :
    copyToBytesIn (fun x => x) (fun _ => pure ()) len
      = (copyToBytes len : Call (MessageBuf β) ε (List β)) := rfl

section
variable {σ : Type} {onBuf : {α : Type} → Call (MessageBuf β) ε α → Call σ ε α}
  {allocate : Nat → Call σ ε Unit} {R : σ → MessageBuf β → Prop}

/-- who only watches the allocation sees the same results and the same buffer -/
theorem copyToBytesIn_sim (hbuf : ∀ {α : Type} (x : Call (MessageBuf β) ε α), Sim R (onBuf x) x)
    (hallocate : ∀ len, Sim R (allocate len) (pure ())) (len : Nat) :
    Sim R (copyToBytesIn onBuf allocate len) (copyToBytes len) := by
  rw [← copyToBytesIn_self]
  refine Sim.ite (fun _ => Sim.pure []) fun _ => (hbuf get).bind fun self =>
    (hbuf _).bind fun _ => (hbuf _).bind fun first => Sim.ite (fun _ => ?_) fun _ => ?_
  · exact (hbuf _).bind fun p => (hbuf _).bind fun _ => (hbuf _).bind fun _ => Sim.pure p.1
  · exact (hallocate len).bind fun _ => (hbuf _).bind fun p => (hbuf get).bind fun _ =>
      (hbuf _).bind fun _ => (hbuf _).bind fun _ => Sim.pure p.1

end
end MessageBuf

/-! ## the meter -/

/-- what is left of a message that was `whole` at the start, and what was allocated for it -/
structure Metered (whole : MessageBuf UInt8) where
  buf : MessageBuf UInt8
  /-- where in the message the allocated values begin, and their lengths -/
  copies : List (Nat × Nat)

namespace Metered
open MessageBuf
variable {whole : MessageBuf UInt8} {ε α : Type}

def start (whole : MessageBuf UInt8) : Metered whole := ⟨whole, []⟩

/-- how far the message has been read -/
def pos (s : Metered whole) : Nat := whole.remaining - s.buf.remaining

/-- a call on the message -/
def onBuf (x : Call (MessageBuf UInt8) ε α) : Call (Metered whole) ε α := fun s =>
  ((x s.buf).1, { s with buf := (x s.buf).2 })

/-- an allocation is written down -/
def allocate (len : Nat) : Call (Metered whole) ε Unit := do
  let s ← get
  set { s with copies := s.copies ++ [(s.pos, len)] }

instance : Buf (Metered whole) where
  remaining s := s.buf.remaining
  chunk s := s.buf.chunk
  advance cnt := onBuf (MessageBuf.advance cnt)
  copyToBytes len := copyToBytesIn onBuf allocate len

/-- **Erasing the log** gives `copyToBytes`. -/
theorem copyToBytes_erase (len : Nat) : Sim (fun (s : Metered whole) buf => s.buf = buf)
    (Buf.copyToBytes len : Call (Metered whole) ε Bytes) (MessageBuf.copyToBytes len) :=
  copyToBytesIn_sim (fun _ _ _ h => h ▸ ⟨rfl, rfl⟩) (fun _ _ _ h => ⟨rfl, h⟩) len

theorem onBuf_keeps (x : Call (MessageBuf UInt8) ε α) :
    Keeps (fun s t : Metered whole => t.copies = s.copies) (onBuf x) := fun _ => rfl

theorem onBuf_bind {γ : Type} (x : Call (MessageBuf UInt8) ε α) {f : α → Call (Metered whole) ε γ}
    (hf : ∀ a, Keeps (fun s t : Metered whole => t.copies = s.copies) (f a)) :
    Keeps (fun s t : Metered whole => t.copies = s.copies) (onBuf x >>= f) :=
  Keeps.bind (fun _ _ _ h h' => h'.trans h) (onBuf_keeps x) hf

theorem onBuf_still {x : Call (MessageBuf UInt8) ε α} (hx : Still x) :
    Still (onBuf x : Call (Metered whole) ε α) := fun s =>
  congrArg (fun buf => ({ s with buf } : Metered whole)) (hx s.buf)

/-- nothing, or the value that is longer than the current segment -/
theorem copyToBytes_copies (len : Nat) (s : Metered whole) :
    ((Buf.copyToBytes len : Call (Metered whole) ε Bytes) s).2.copies = s.copies ∨
    s.buf.chunk.length < len ∧
      ((Buf.copyToBytes len : Call (Metered whole) ε Bytes) s).2.copies = s.copies ++ [(s.pos, len)] := by
  show ((copyToBytesIn onBuf allocate len : Call (Metered whole) ε Bytes) s).2.copies = s.copies ∨
    s.buf.chunk.length < len ∧
      ((copyToBytesIn onBuf allocate len : Call (Metered whole) ε Bytes) s).2.copies
        = s.copies ++ [(s.pos, len)]
  unfold copyToBytesIn
  by_cases h0 : len = 0
  · rw [if_pos h0]
    exact .inl rfl
  rw [if_neg h0]
  refine (onBuf_still (Still.assert _)).bind
    (P := fun t => t.copies = s.copies ∨ s.buf.chunk.length < len ∧ t.copies = s.copies ++ [(s.pos, len)])
    (.inl rfl) fun _ => ?_
  cases hc : s.buf.chunks with
  | nil => exact .inl rfl
  | cons first rest =>
    have hchunk : s.buf.chunk = first := by
      unfold chunk
      rw [hc]
      rfl
    rw [hchunk]
    show ((if len ≤ first.length then _ else _ : Call (Metered whole) ε Bytes) s).2.copies = _ ∨ _ ∧
      ((if len ≤ first.length then _ else _ : Call (Metered whole) ε Bytes) s).2.copies = _
    by_cases hfit : len ≤ first.length
    · rw [if_pos hfit]
      exact .inl ((onBuf_bind _ fun p => onBuf_bind _ fun _ => onBuf_bind _ fun _ _ => rfl) s)
    · rw [if_neg hfit]
      exact .inr ⟨Nat.lt_of_not_le hfit, (onBuf_bind _ fun p => onBuf_bind _ fun _ =>
        onBuf_bind _ fun _ => onBuf_bind _ fun _ _ => rfl) { s with copies := s.copies ++ [(s.pos, len)] }⟩

structure Inv (s : Metered whole) : Prop where
  wf : s.buf.WF
  whole_eq : whole.remaining = whole.chunks.flatten.length
  bytes : s.buf.chunks.flatten <:+ whole.chunks.flatten
  behind : s.buf.chunks.tail <:+ whole.chunks
  packed : Packed s.copies
  past : ∀ r ∈ s.copies, r.1 + r.2 ≤ s.pos
  split : ∀ r ∈ s.copies, SplitBy (seams whole.chunks) r

theorem start_inv (h : whole.WF) : (start whole).Inv where
  wf := h
  whole_eq := h.remaining_eq
  bytes := List.suffix_refl _
  behind := List.tail_suffix _
  packed := List.Pairwise.nil
  past r hr := by cases hr
  split r hr := by cases hr

namespace Inv
variable {s : Metered whole} {buf : MessageBuf UInt8} {n : Nat}

theorem remaining_le (h : s.Inv) : s.buf.remaining ≤ whole.remaining := by
  rw [h.wf.remaining_eq, h.whole_eq]
  exact h.bytes.length_le

/-- the message after `n` more bytes, which may have been copied -/
theorem step (h : s.Inv) (hn : n ≤ s.buf.chunks.flatten.length) (hwf : buf.WF)
    (hflat : buf.chunks.flatten = s.buf.chunks.flatten.drop n) (hlater : Later s.buf buf)
    {copies : List (Nat × Nat)} (hcopies : copies = s.copies ∨ copies = s.copies ++ [(s.pos, n)] ∧
      SplitBy (seams whole.chunks) (s.pos, n)) :
    ({ s with buf, copies } : Metered whole).Inv := by
  have hle := h.remaining_le
  have hrem : buf.remaining = s.buf.remaining - n := by
    rw [hwf.remaining_eq, hflat, List.length_drop, h.wf.remaining_eq]
  have hpos : ({ s with buf, copies } : Metered whole).pos = s.pos + n := by
    have hn' : n ≤ s.buf.remaining := h.wf.remaining_eq ▸ hn
    show whole.remaining - buf.remaining = whole.remaining - s.buf.remaining + n
    omega
  have hpast : ∀ r ∈ s.copies, r.1 + r.2 ≤ s.pos + n := fun r hr =>
    Nat.le_add_right_of_le (h.past r hr)
  refine ⟨hwf, h.whole_eq, hflat ▸ (List.drop_suffix n _).trans h.bytes,
    List.IsSuffix.trans hlater h.behind, ?_, ?_, ?_⟩
  · rcases hcopies with rfl | ⟨rfl, -⟩
    · exact h.packed
    · exact h.packed.snoc h.past
  · rw [hpos]
    rcases hcopies with rfl | ⟨rfl, -⟩
    · exact hpast
    · intro r hr
      rcases List.mem_append.mp hr with hr | hr
      · exact hpast r hr
      · rw [List.mem_singleton.mp hr]
  · rcases hcopies with rfl | ⟨rfl, hsplit⟩
    · exact h.split
    · intro r hr
      rcases List.mem_append.mp hr with hr | hr
      · exact h.split r hr
      · rw [List.mem_singleton.mp hr]
        exact hsplit

/-- the end of the current segment is a seam that the copy goes across -/
theorem splitBy (h : s.Inv) (hn : n ≤ s.buf.chunks.flatten.length) (hlt : s.buf.chunk.length < n) :
    SplitBy (seams whole.chunks) (s.pos, n) := by
  have hne : s.buf.chunks.flatten ≠ [] := List.ne_nil_of_length_pos (by omega)
  have hchunk := List.length_pos_iff.mpr (chunk_ne_nil h.wf hne)
  have hrem := h.wf.remaining_eq
  have hle := h.remaining_le
  have hflat : s.buf.chunks.flatten.length = s.buf.chunk.length + s.buf.chunks.tail.flatten.length := by
    unfold chunk
    cases s.buf.chunks with
    | nil => rfl
    | cons first rest => exact List.length_append
  obtain ⟨pre, hpre⟩ := h.behind
  have hwhole := h.whole_eq
  rw [← hpre, List.flatten_append, List.length_append] at hwhole
  have hseam : pre.flatten.length = s.pos + s.buf.chunk.length := by
    unfold pos
    omega
  refine ⟨pre.flatten.length, ?_, ?_, ?_⟩
  · rw [← hpre]
    refine mem_seams ?_ ?_
    · rintro rfl
      rw [List.flatten_nil, List.length_nil] at hseam
      omega
    · intro e
      rw [e, List.flatten_nil, List.length_nil] at hflat
      omega
  · show s.pos < pre.flatten.length
    omega
  · show pre.flatten.length < s.pos + n
    omega

end Inv

instance : LawfulBuf (Metered whole) where
  Inv := Metered.Inv
  bytes s := s.buf.chunks.flatten
  remaining_eq s h := h.wf.remaining_eq
  chunk_prefix s _ := s.buf.chunk_prefix
  chunk_ne_nil s h hne := MessageBuf.chunk_ne_nil h.wf hne
  advance_run s n h hn := by
    obtain ⟨buf, hrun, hwf, hflat⟩ := MessageBuf.advance_run h.wf hn
    have hlater := (MessageBuf.advance_later n).run hrun
    refine ⟨{ s with buf }, ?_, h.step hn hwf hflat hlater (.inl rfl), hflat⟩
    show onBuf (MessageBuf.advance n) s = _
    unfold onBuf
    rw [hrun]
  copyToBytes_run {ε} s n h hn := by
    obtain ⟨buf, hrun, hwf, hflat⟩ := MessageBuf.copyToBytes_run (ε := ε) h.wf hn
    have hlater := (MessageBuf.copyToBytes_later n).run hrun
    obtain ⟨hres, hbuf⟩ := copyToBytes_erase (ε := ε) n s s.buf rfl
    rw [hrun] at hres hbuf
    obtain rfl : _ = buf := hbuf
    refine ⟨_, Prod.ext hres rfl, h.step hn hwf hflat hlater ?_, hflat⟩
    rcases copyToBytes_copies (ε := ε) n s with hsame | ⟨hlt, hcopied⟩
    · exact .inl hsame
    · exact .inr ⟨hcopied, h.splitBy hn hlt⟩

theorem start_same (h : whole.WF) : Same (start whole) whole.payload := ⟨start_inv h, rfl⟩

end Metered

namespace ChunkDecoder
variable {maxSize maxSegs : Usize}

theorem delivered_bounded {fs : List Bytes} {m : MessageBuf UInt8}
    (h : m ∈ delivered (feeds fs (fresh maxSize maxSegs)).1) : m.Bounded maxSize maxSegs := by
  obtain ⟨messages, hok, hm⟩ := mem_delivered h
  rw [fresh_eq_decoderOf] at hok
  obtain ⟨segs, hsegs, rfl⟩ := feeds_emitted Deframe.Inv.start fs messages hok m hm
  exact (fromChunks_bounded hsegs).2

/-- **Zero-copy reading.**  What any client makes a delivered message allocate are buffers for values
that lie across a seam between two segments, no byte twice: fewer of them than segments, and no more
bytes than the message has, both within the limits of the connection.  To be metered changes
nothing. -/
theorem feeds_copies [BytesCrate] (maxSize maxSegs : Usize) (fs : List Bytes) :
    ∀ m ∈ delivered (feeds fs (fresh maxSize maxSegs)).1, ∀ c : Client,
      (c.talk (Metered.start m)).1 = (c.talk m).1 ∧
      Packed (c.talk (Metered.start m)).2.copies ∧
      (∀ r ∈ (c.talk (Metered.start m)).2.copies, SplitBy (MessageBuf.seams m.chunks) r) ∧
      (c.talk (Metered.start m)).2.copies.length ≤ m.chunks.length - 1 ∧
      m.chunks.length ≤ maxSegs.val ∧
      ((c.talk (Metered.start m)).2.copies.map Prod.snd).sum ≤ m.remaining ∧
      m.remaining ≤ maxSize.val := by
  intro m hm c
  have hbounded := delivered_bounded hm
  obtain ⟨hres, hinv, -⟩ := c.talk_same (Metered.start_same (delivered_inv hm))
  have hplain := (c.talk_same (show Same m m.payload from ⟨delivered_inv hm, rfl⟩)).1
  have hcount := hinv.packed.length_le hinv.split
  rw [MessageBuf.seams_length] at hcount
  refine ⟨hres.trans hplain.symm, hinv.packed, hinv.split, hcount, hbounded.segs_le, ?_,
    hbounded.size_le⟩
  exact (hinv.packed.sum_le hinv.past).trans (Nat.sub_le _ _)

/-- a string and a number across the seams of four segments -/
theorem feeds_copies_four :
    letI := BytesCrate.copying
    ((Client.script [.string, .int]).talk
      (Metered.start ⟨[[0x82, 0x61], [0x62, 0xC9], [1], [2]], 6⟩)).2.copies.length ≤ 3 := by
  have hm : delivered (feeds [[0, 2, 0x82, 0x61, 0, 3, 0x62, 0xC9], [1, 0, 1, 2, 0, 0]] (fresh 16 4)).1
      = [(⟨[[0x82, 0x61], [0x62, 0xC9], [1], [2]], 6⟩ : MessageBuf UInt8)] := rfl
  exact (@feeds_copies BytesCrate.copying 16 4
    [[0, 2, 0x82, 0x61, 0, 3, 0x62, 0xC9], [1, 0, 1, 2, 0, 0]] _ (hm ▸ List.mem_cons_self) _).2.2.2.1

end ChunkDecoder
end Bolt
