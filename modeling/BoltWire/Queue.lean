import BoltWire.Lib.Refinement
import BoltWire.MessageBuf

/-!
# `MessageBuf` is a byte queue

* `BufOp`, `BufOp.run`   the calls on a buffer; `BufOp.spec` what they are to do to a flat list;
* `queue`            the refinement: contents are the concatenated segments;
* `drain`            the loop of a caller that takes chunk after chunk;
* `copyFast`, `copySlow`   the two ways of `copyToBytes`, which agree where both can go;
* `fromChunks_queue`   whatever is called on a new buffer, it answers as the flat list.
-/

set_option linter.unusedSectionVars false

namespace Bolt
open Rust Rust.Call

inductive BufOp where
  | remaining
  | chunk
  | advance (cnt : Nat)
  | copyToBytes (len : Nat)
  deriving DecidableEq, Repr

inductive BufVal (β : Type) where
  | size (n : Nat)
  | chunk (c : List β)
  | unit
  | bytes (b : List β)
  deriving DecidableEq, Repr

variable {β : Type}

/-- what the calls are to do to a queue of bytes; the chunk is any part of its front -/
def BufOp.spec : BufOp → List β → Res Empty (BufVal β) → List β → Prop
  | .remaining, data, r, data' => r = .ok (.size data.length) ∧ data' = data
  | .chunk, data, r, data' =>
    (∃ c, r = .ok (.chunk c) ∧ c <+: data ∧ (0 < data.length → c ≠ [])) ∧ data' = data
  | .advance cnt, data, r, data' =>
    if cnt ≤ data.length then r = .ok .unit ∧ data' = data.drop cnt else r = .panic ∧ data' = data
  | .copyToBytes len, data, r, data' =>
    if len ≤ data.length then r = .ok (.bytes (data.take len)) ∧ data' = data.drop len
    else r = .panic ∧ data' = data

def BufOp.run : BufOp → Call (MessageBuf β) Empty (BufVal β)
  | .remaining => do
    let self ← get
    pure (.size self.remaining)
  | .chunk => do
    let self ← get
    pure (.chunk self.chunk)
  | .advance cnt => do
    MessageBuf.advance cnt
    pure .unit
  | .copyToBytes len => do
    let b ← MessageBuf.copyToBytes len
    pure (.bytes b)

namespace MessageBuf
variable {ε : Type}

/-! ## the refinement -/

theorem advance_panics {self : MessageBuf β} {cnt : Nat} (h : self.remaining < cnt) :
    (advance cnt : Call (MessageBuf β) ε Unit) self = (.panic, self) := by
  show ((assert (cnt ≤ self.remaining) : Call (MessageBuf β) ε Unit) >>= _) self = _
  rw [assert, if_neg (Nat.not_le.mpr h)]
  rfl

theorem copyToBytes_panics {self : MessageBuf β} {len : Nat} (h : self.remaining < len) :
    (copyToBytes len : Call (MessageBuf β) ε (List β)) self = (.panic, self) := by
  unfold copyToBytes
  rw [if_neg (Nat.ne_zero_of_lt h)]
  show ((assert (len ≤ self.remaining) : Call (MessageBuf β) ε Unit) >>= _) self = _
  rw [assert, if_neg (Nat.not_le.mpr h)]
  rfl

theorem op_queue (op : BufOp) (self : MessageBuf β) (h : WF self) :
    WF (op.run self).2 ∧
      op.spec self.chunks.flatten (op.run self).1 (op.run self).2.chunks.flatten := by
  cases op with
  | remaining =>
    refine ⟨h, ?_, rfl⟩
    show Res.ok (BufVal.size self.remaining) = _
    rw [h.remaining_eq]
  | chunk =>
    refine ⟨h, ⟨self.chunk, rfl, self.chunk_prefix, fun hpos => ?_⟩, rfl⟩
    exact chunk_ne_nil h (List.length_pos_iff.mp hpos)
  | advance cnt =>
    by_cases hle : cnt ≤ self.chunks.flatten.length
    · obtain ⟨self', hrun, hwf, hflat⟩ := advance_run (ε := Empty) h hle
      have hop : (BufOp.advance cnt).run self = (.ok .unit, self') := bind_ok hrun _
      rw [hop, BufOp.spec, if_pos hle]
      exact ⟨hwf, rfl, hflat⟩
    · have hlt : self.remaining < cnt := by rw [h.remaining_eq]; omega
      have hop : (BufOp.advance cnt).run self = (.panic, self) := by
        show (advance cnt >>= _) self = _
        rw [bind_run, advance_panics hlt]
      rw [hop, BufOp.spec, if_neg hle]
      exact ⟨h, rfl, rfl⟩
  | copyToBytes len =>
    by_cases hle : len ≤ self.chunks.flatten.length
    · obtain ⟨self', hrun, hwf, hflat⟩ := copyToBytes_run (ε := Empty) h hle
      have hop : (BufOp.copyToBytes len).run self
          = (.ok (.bytes (self.chunks.flatten.take len)), self') := bind_ok hrun _
      rw [hop, BufOp.spec, if_pos hle]
      exact ⟨hwf, rfl, hflat⟩
    · have hlt : self.remaining < len := by rw [h.remaining_eq]; omega
      have hop : (BufOp.copyToBytes len).run self = (.panic, self) := by
        show (copyToBytes len >>= _) self = _
        rw [bind_run, copyToBytes_panics hlt]
      rw [hop, BufOp.spec, if_neg hle]
      exact ⟨h, rfl, rfl⟩

def queue : Refines (BufOp.run (β := β)) BufOp.spec where
  inv := WF
  abs self := self.chunks.flatten
  step := op_queue

/-! ## draining -/

def hasRemaining : Call (MessageBuf β) ε Bool := do
  let self ← get
  pure (decide (0 < self.remaining))

/-- `advance(chunk().len())`, and the condition of the loop once more -/
def drainStep (_ : Bool) : Call (MessageBuf β) ε Bool := do
  let self ← get
  advance self.chunk.length
  hasRemaining

/-- `while has_remaining() { advance(chunk().len()) }`, for at most so many rounds -/
def drain (n : Nat) : Call (MessageBuf β) ε Unit := do
  let more ← hasRemaining
  let _ ← whileLoop id drainStep n more
  pure ()

theorem eq_empty {self : MessageBuf β} (h : WF self) (h0 : self.remaining = 0) : self = ⟨[], 0⟩ := by
  have hflat : self.chunks.flatten = [] := List.length_eq_zero_iff.mp (h.remaining_eq ▸ h0)
  have hnil : self.chunks = [] := by
    cases hc : self.chunks with
    | nil => rfl
    | cons c cs =>
      rw [hc, List.flatten_cons] at hflat
      exact absurd (List.append_eq_nil_iff.mp hflat).1 (h.nonempty c (by rw [hc]; exact List.mem_cons_self))
  cases self
  simp_all

theorem drainStep_run {self : MessageBuf β} (h : WF self) (hpos : 0 < self.remaining) :
    ∃ self', drainStep true self = ((.ok (decide (0 < self'.remaining)), self') : Res ε Bool × _) ∧
      WF self' ∧ self'.remaining < self.remaining := by
  have hlen : 0 < self.chunks.flatten.length := h.remaining_eq ▸ hpos
  have hchunk : 0 < self.chunk.length :=
    List.length_pos_iff.mpr (chunk_ne_nil h (List.length_pos_iff.mp hlen))
  obtain ⟨self', hrun, hwf, hflat⟩ := advance_run (ε := ε) h self.chunk_prefix.length_le
  refine ⟨self', ?_, hwf, ?_⟩
  · show (advance self.chunk.length >>= fun _ => hasRemaining) self = _
    rw [bind_ok hrun]
    rfl
  · rw [hwf.remaining_eq, hflat, h.remaining_eq, List.length_drop]
    omega

theorem drain_run {self : MessageBuf β} (h : WF self) {n : Nat} (hn : self.remaining < n) :
    drain n self = ((.ok (), ⟨[], 0⟩) : Res ε Unit × _) := by
  have hloop := whileLoop_rule (ε := ε) id (drainStep (β := β))
    (fun more m => WF m ∧ more = decide (0 < m.remaining))
    (fun r m => r = .ok false ∧ m = ⟨[], 0⟩) (fun _ m => m.remaining)
    (by
      rintro more m ⟨hwf, hmore⟩ hstop
      obtain rfl : more = false := hstop
      refine ⟨rfl, eq_empty hwf ?_⟩
      have := of_decide_eq_false hmore.symm
      omega)
    (by
      rintro more m ⟨hwf, hmore⟩ hgo
      obtain rfl : more = true := hgo
      obtain ⟨m', hrun, hwf', hlt⟩ := drainStep_run (ε := ε) hwf (of_decide_eq_true hmore.symm)
      exact .inl ⟨_, m', hrun, ⟨hwf', rfl⟩, hlt⟩)
    n (decide (0 < self.remaining)) self ⟨h, rfl⟩ hn
  show (whileLoop id drainStep n (decide (0 < self.remaining)) >>= fun _ => pure ()) self = _
  rw [bind_ok (Prod.ext hloop.1 hloop.2)]
  rfl

/-! ## the two ways of `copyToBytes` -/

/-- split the bytes out of the first segment -/
def copyFast (len : Nat) : Call (MessageBuf β) ε (List β) := do
  let self ← get
  let first ← index self.chunks 0
  let (out, first) ← splitTo first len
  let left ← checkedSub self.remaining len
  set { self.storeFront first with remaining := left }
  pure out

/-- copy them segment by segment -/
def copySlow (len : Nat) : Call (MessageBuf β) ε (List β) := do
  let self ← get
  let (acc, _) ← whileLoop (fun p => decide (p.2 < len)) (copyStep len)
    (self.chunks.length + len + 2) ([], 0)
  let self ← get
  let left ← checkedSub self.remaining len
  set { self with remaining := left }
  pure acc

variable {self : MessageBuf β} {first : List β} {rest : List (List β)}

theorem index_first (hc : self.chunks = first :: rest) :
    (index self.chunks 0 : Call (MessageBuf β) ε (List β)) = pure first := by
  rw [hc, index_zero]

theorem copyToBytes_ways (hc : self.chunks = first :: rest) {len : Nat} (hpos : 0 < len)
    (hle : len ≤ self.remaining) : (copyToBytes len : Call (MessageBuf β) ε (List β)) self
      = if len ≤ first.length then copyFast len self else copySlow len self := by
  unfold copyToBytes
  rw [if_neg (Nat.ne_of_gt hpos), get_bind_run, assert_bind_pos hle, index_first hc, pure_bind_run]
  by_cases hfit : len ≤ first.length
  · rw [if_pos hfit, if_pos hfit, copyFast, get_bind_run, index_first hc]
    rfl
  · rw [if_neg hfit, if_neg hfit]
    rfl

theorem copyFast_run (hc : self.chunks = first :: rest) {len : Nat} (hfit : len ≤ first.length)
    (hle : len ≤ self.remaining) : (copyFast len : Call (MessageBuf β) ε (List β)) self
      = (.ok (first.take len),
          { self.storeFront (first.drop len) with remaining := self.remaining - len }) := by
  rw [copyFast, get_bind_run, index_first hc, pure_bind_run, bind_ok (splitTo_run hfit self)]
  show (checkedSub self.remaining len >>= fun left => _) self = _
  rw [bind_ok (checkedSub_run hle self), set_bind_run, pure_run]

/-- a single round of the copy is enough -/
theorem copyLoop_front (h : WF self) (hc : self.chunks = first :: rest) {len : Nat}
    (hfit : len ≤ first.length) (n : Nat) :
    whileLoop (fun p => decide (p.2 < len)) (copyStep (ε := ε) len) (n + 2) ([], 0) self
      = (.ok (first.take len, len), self.storeFront (first.drop len)) := by
  by_cases hpos : 0 < len
  · have hstep : copyStep (ε := ε) len ([], 0) self
        = (.ok (first.take len, len), self.storeFront (first.drop len)) := by
      have hmin : min first.length len = len := Nat.min_eq_right hfit
      unfold copyStep
      rw [get_bind_run, index_first hc, pure_bind_run, bind_ok (checkedSub_run (Nat.zero_le len) self)]
      simp only [Nat.sub_zero, hmin, Nat.zero_add, List.nil_append]
      rw [bind_ok (dropFront_run hfit self), set_bind_run, pure_run]
    have hnext : whileLoop (fun p => decide (p.2 < len)) (copyStep (ε := ε) len) (n + 2) ([], 0) self
        = whileLoop (fun p => decide (p.2 < len)) (copyStep len) (n + 1) (first.take len, len)
          (self.storeFront (first.drop len)) := whileLoop_next (by simpa using hpos) hstep (n + 1)
    rw [hnext]
    exact whileLoop_stop (by simp) _ n _
  · obtain rfl : len = 0 := Nat.eq_zero_of_not_pos hpos
    have hfirst : first ≠ [] := h.nonempty first (by rw [hc]; exact List.mem_cons_self)
    have hstore : self.storeFront first = self := by
      unfold storeFront
      rw [if_neg (by simpa using hfirst), hc]
      cases self
      cases hc
      rfl
    rw [List.drop_zero, hstore]
    exact whileLoop_stop rfl _ _ _

theorem copy_agree (h : WF self) (hc : self.chunks = first :: rest) {len : Nat}
    (hfit : len ≤ first.length) :
    (copyFast len : Call (MessageBuf β) ε (List β)) self = copySlow len self := by
  have hle : len ≤ self.remaining := by
    rw [h.remaining_eq, hc, List.flatten_cons, List.length_append]
    omega
  rw [copyFast_run hc hfit hle, copySlow, get_bind_run, bind_ok (copyLoop_front h hc hfit _)]
  show _ = ((get : Call (MessageBuf β) ε (MessageBuf β)) >>= fun self => _)
    (self.storeFront (first.drop len))
  have hle' : len ≤ (self.storeFront (first.drop len)).remaining := hle
  rw [get_bind_run, bind_ok (checkedSub_run hle' _), set_bind_run, pure_run]
  rfl

/-- **A `MessageBuf` is a byte queue.**  Whatever is called on a new buffer, and in whatever order, it
answers as the concatenation of its segments, panics only when more is asked for than is left, and
stays well formed; it can be drained at any time, and both ways of copying do the same. -/
theorem fromChunks_queue (segs : List (List β)) (h : segs.flatten.length ≤ usizeMax)
    (ops : List BufOp) (rs : List (Res Empty (BufVal β))) (buf : MessageBuf β)
    (hrun : history BufOp.run ops (fromChunks segs) = (rs, buf)) :
    WF buf ∧ Trace BufOp.spec ops segs.flatten rs buf.chunks.flatten ∧
    (∀ n, buf.remaining < n → drain n buf = ((.ok (), ⟨[], 0⟩) : Res Empty Unit × _)) ∧
    ∀ first rest, buf.chunks = first :: rest →
      (∀ len ≤ first.length, (copyFast len buf : Res Empty (List β) × _) = copySlow len buf) ∧
      ∀ len, 0 < len → len ≤ buf.remaining → (copyToBytes len buf : Res Empty (List β) × _)
        = if len ≤ first.length then copyFast len buf else copySlow len buf := by
  obtain ⟨hwf, htrace⟩ := queue.history ops (fromChunks segs) (fromChunks_wf h)
  have hflat : (fromChunks segs).chunks.flatten = segs.flatten := by
    rw [fromChunks_chunks, flatten_filter_isEmpty]
  rw [hrun] at hwf htrace
  replace htrace : Trace BufOp.spec ops (fromChunks segs).chunks.flatten rs buf.chunks.flatten :=
    htrace
  rw [hflat] at htrace
  exact ⟨hwf, htrace, fun n hn => drain_run hwf hn, fun first rest hc =>
    ⟨fun len hfit => copy_agree hwf hc hfit, fun len hpos hle => copyToBytes_ways hc hpos hle⟩⟩

/-- a copy across segments, one too many bytes, and what is left afterwards -/
theorem fromChunks_queue_three :
    Trace (BufOp.spec (β := Nat)) [.copyToBytes 3, .advance 4, .chunk] ([[1], [], [2, 3, 4], [5]].flatten)
      [.ok (.bytes [1, 2, 3]), .panic, .ok (.chunk [4])] [4, 5] :=
  (fromChunks_queue [[1], [], [2, 3, 4], [5]] (by decide) [.copyToBytes 3, .advance 4, .chunk]
    [.ok (.bytes [1, 2, 3]), .panic, .ok (.chunk [4])] ⟨[[4], [5]], 2⟩ (by decide)).2.1

end MessageBuf
end Bolt
