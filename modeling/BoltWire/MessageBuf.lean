import BoltWire.Buf

/-!
# `MessageBuf`: a message as a queue of segments

The payload of a message as the decoder hands it over: a queue of byte segments together with the
number of bytes in them.  `β` is what the model knows of one byte; the reader uses
`MessageBuf UInt8`.

* `fromChunks`, `chunk`, `advance`, `copyToBytes`   the methods;
* `MessageBuf.WF`       no segment is empty and `remaining` counts the bytes;
* `fromChunks_wf`       what the constructor builds is well formed (up to `usize::MAX` bytes);
* `advance_run`, `copyToBytes_run`   on well-formed buffers the methods act on the concatenation
                        of the segments; `MessageBuf UInt8` is a lawful `Buf`.
-/

set_option linter.unusedSectionVars false

namespace Bolt
open Rust Rust.Call

/-- `usize::MAX` of a 64-bit target -/
def usizeMax : Nat := 2 ^ 64 - 1

abbrev Usize := Fin (usizeMax + 1)

def saturatingAdd (a b : Nat) : Nat := min (a + b) usizeMax

def checkedAdd (a b : Nat) : Option Nat := if a + b ≤ usizeMax then some (a + b) else none

structure MessageBuf (β : Type) where
  chunks : List (List β)
  remaining : Nat
  deriving DecidableEq, Repr

namespace MessageBuf
variable {β ε : Type}

def fromChunks (chunks : List (List β)) : MessageBuf β :=
  chunks.foldl (fun self c =>
    if c.isEmpty then self
    else { chunks := self.chunks ++ [c], remaining := saturatingAdd self.remaining c.length })
    { chunks := [], remaining := 0 }

def chunk (self : MessageBuf β) : List β := self.chunks.head?.getD []

/-- write the current segment back, and pop it when nothing is left of it -/
def storeFront (self : MessageBuf β) (first : List β) : MessageBuf β :=
  { self with chunks := if first.isEmpty then self.chunks.tail else first :: self.chunks.tail }

def advanceStep (cnt : Nat) : Call (MessageBuf β) ε Nat := do
  let self ← get
  let first ← index self.chunks 0
  let take := min first.length cnt
  let first ← dropFront first take
  let cnt ← checkedSub cnt take
  set (self.storeFront first)
  pure cnt

def advance (cnt : Nat) : Call (MessageBuf β) ε Unit := do
  let self ← get
  assert (cnt ≤ self.remaining)
  let left ← checkedSub self.remaining cnt
  set { self with remaining := left }
  let _ ← whileLoop (fun cnt => decide (0 < cnt)) advanceStep (self.chunks.length + cnt + 2) cnt
  pure ()

def copyStep (len : Nat) (p : List β × Nat) : Call (MessageBuf β) ε (List β × Nat) := do
  let self ← get
  let first ← index self.chunks 0
  let left ← checkedSub len p.2
  let take := min first.length left
  let acc := p.1 ++ first.take take
  let first ← dropFront first take
  set (self.storeFront first)
  pure (acc, p.2 + take)

def copyToBytes (len : Nat) : Call (MessageBuf β) ε (List β) :=
  if len = 0 then pure []
  else do
    let self ← get
    assert (len ≤ self.remaining)
    let first ← index self.chunks 0
    if len ≤ first.length then
      -- zero copy: split out of the current segment
      let (out, first) ← splitTo first len
      let left ← checkedSub self.remaining len
      set { self.storeFront first with remaining := left }
      pure out
    else
      let (acc, _) ← whileLoop (fun p => decide (p.2 < len)) (copyStep len)
        (self.chunks.length + len + 2) ([], 0)
      let self ← get
      let left ← checkedSub self.remaining len
      set { self with remaining := left }
      pure acc

/-! ## well-formed buffers -/

structure WF (buf : MessageBuf β) : Prop where
  nonempty : ∀ c ∈ buf.chunks, c ≠ []
  remaining_eq : buf.remaining = buf.chunks.flatten.length

theorem fromChunks_foldl (cs : List (List β)) (self : MessageBuf β) :
    cs.foldl (fun self c =>
      if c.isEmpty then self
      else { chunks := self.chunks ++ [c], remaining := saturatingAdd self.remaining c.length }) self
      = { chunks := self.chunks ++ cs.filter (fun c => !c.isEmpty),
          remaining := if cs.flatten = [] then self.remaining
            else saturatingAdd self.remaining cs.flatten.length } := by
  induction cs generalizing self with
  | nil => simp
  | cons c cs ih =>
    rw [List.foldl_cons, ih]
    cases c with
    | nil => simp
    | cons b c =>
      have hne : ((b :: c) :: cs).flatten ≠ [] := by simp
      rw [if_neg hne]
      by_cases h : cs.flatten = []
      · simp [h]
      · simp only [saturatingAdd, h, if_false, List.flatten_cons, List.length_append,
          List.isEmpty_cons, Bool.not_false, List.filter_cons_of_pos, MessageBuf.mk.injEq]
        simp only [Bool.false_eq_true, if_false, List.append_assoc, List.singleton_append, true_and]
        omega

theorem fromChunks_chunks (cs : List (List β)) :
    (fromChunks cs).chunks = cs.filter (fun c => !c.isEmpty) := by
  unfold fromChunks
  rw [fromChunks_foldl, List.nil_append]

theorem fromChunks_remaining (cs : List (List β)) :
    (fromChunks cs).remaining = min cs.flatten.length usizeMax := by
  unfold fromChunks
  rw [fromChunks_foldl]
  by_cases h : cs.flatten = []
  · simp [h]
  · simp [h, saturatingAdd]

theorem flatten_filter_isEmpty (cs : List (List β)) :
    (cs.filter (fun c => !c.isEmpty)).flatten = cs.flatten := by
  induction cs with
  | nil => rfl
  | cons c cs ih => cases c <;> simp [ih]

theorem fromChunks_wf {cs : List (List β)} (h : cs.flatten.length ≤ usizeMax) :
    WF (fromChunks cs) := by
  refine ⟨?_, ?_⟩
  · intro c hc
    rw [fromChunks_chunks, List.mem_filter] at hc
    intro e
    rw [e] at hc
    exact absurd hc.2 (by simp)
  · rw [fromChunks_remaining, fromChunks_chunks, flatten_filter_isEmpty, Nat.min_eq_left h]

/-- segments with something in them are kept as they are -/
theorem fromChunks_chunks_of_nonempty {cs : List (List β)} (hne : ∀ c ∈ cs, c ≠ []) :
    (fromChunks cs).chunks = cs := by
  rw [fromChunks_chunks]
  exact List.filter_eq_self.mpr fun c hc => by simp [hne c hc]

theorem fromChunks_of_nonempty {cs : List (List β)} (hne : ∀ c ∈ cs, c ≠ [])
    (h : cs.flatten.length ≤ usizeMax) : fromChunks cs = ⟨cs, cs.flatten.length⟩ := by
  have h1 := fromChunks_chunks_of_nonempty hne
  have h2 := fromChunks_remaining cs
  rw [Nat.min_eq_left h] at h2
  cases hm : fromChunks cs with
  | mk chunks remaining =>
    rw [hm] at h1 h2
    rw [show chunks = cs from h1, show remaining = cs.flatten.length from h2]

/-! ## the methods on a well-formed buffer -/

theorem storeFront_flatten (self : MessageBuf β) (first : List β) :
    (self.storeFront first).chunks.flatten = first ++ self.chunks.tail.flatten := by
  unfold storeFront
  cases first with
  | nil => rfl
  | cons b first => rfl

theorem storeFront_nonempty {self : MessageBuf β} (h : ∀ c ∈ self.chunks, c ≠ [])
    (first : List β) : ∀ c ∈ (self.storeFront first).chunks, c ≠ [] := by
  have ht : ∀ c ∈ self.chunks.tail, c ≠ [] := fun c hc => h c (List.mem_of_mem_tail hc)
  unfold storeFront
  cases first with
  | nil => exact ht
  | cons b first =>
    intro c hc
    rcases List.mem_cons.mp hc with rfl | hc
    · exact List.cons_ne_nil b first
    · exact ht c hc

theorem index_front {self : MessageBuf β} (hne : self.chunks.flatten ≠ []) :
    ∃ first rest, self.chunks = first :: rest ∧
      (index self.chunks 0 : Call (MessageBuf β) ε (List β)) = pure first := by
  cases hc : self.chunks with
  | nil => rw [hc] at hne; exact absurd rfl hne
  | cons first rest => exact ⟨first, rest, rfl, index_zero first rest⟩

/-- one round of `advance` drops a non-empty part of the current segment -/
theorem advanceStep_run {self : MessageBuf β} (h : ∀ c ∈ self.chunks, c ≠ []) {cnt : Nat}
    (hpos : 0 < cnt) (hle : cnt ≤ self.chunks.flatten.length) :
    ∃ cnt' self', (advanceStep cnt : Call (MessageBuf β) ε Nat) self = (.ok cnt', self') ∧
      (∀ c ∈ self'.chunks, c ≠ []) ∧ self'.remaining = self.remaining ∧ cnt' < cnt ∧
      cnt' ≤ self'.chunks.flatten.length ∧
      self'.chunks.flatten.drop cnt' = self.chunks.flatten.drop cnt := by
  obtain ⟨first, rest, hc, hidx⟩ := index_front (ε := ε)
    (by intro e; rw [e] at hle; exact absurd hle (by rw [List.length_nil]; omega))
  have hfirst : 0 < first.length := List.length_pos_iff.mpr (h first (by rw [hc]; simp))
  have hflat : self.chunks.flatten = first ++ rest.flatten := by rw [hc, List.flatten_cons]
  rw [hflat, List.length_append] at hle
  refine ⟨cnt - min first.length cnt, self.storeFront (first.drop (min first.length cnt)), ?_,
    storeFront_nonempty h _, rfl, by omega, ?_, ?_⟩
  · unfold advanceStep
    rw [get_bind_run, hidx, pure_bind_run, bind_ok (dropFront_run (Nat.min_le_left _ _) self),
      bind_ok (checkedSub_run (Nat.min_le_right _ _) self), set_bind_run, pure_run]
  · rw [storeFront_flatten, hc, List.tail_cons, List.length_append, List.length_drop]
    omega
  · rw [storeFront_flatten, hflat, hc, List.tail_cons]
    by_cases hlt : cnt ≤ first.length
    · rw [Nat.min_eq_right hlt, Nat.sub_self, List.drop_zero, List.drop_append_of_le_length hlt]
    · have hm : min first.length cnt = first.length := Nat.min_eq_left (by omega)
      have hd : first.drop cnt = [] := List.drop_of_length_le (by omega)
      rw [hm, List.drop_length, List.nil_append, List.drop_append, hd, List.nil_append]

theorem advance_run {self : MessageBuf β} (h : WF self) {cnt : Nat}
    (hle : cnt ≤ self.chunks.flatten.length) :
    ∃ self', (advance cnt : Call (MessageBuf β) ε Unit) self = (.ok (), self') ∧ WF self' ∧
      self'.chunks.flatten = self.chunks.flatten.drop cnt := by
  have hloop := whileLoop_rule (ε := ε) (fun cnt => decide (0 < cnt)) (advanceStep (β := β))
    (fun n m => (∀ c ∈ m.chunks, c ≠ []) ∧ m.remaining = self.remaining - cnt ∧
      n ≤ m.chunks.flatten.length ∧ m.chunks.flatten.drop n = self.chunks.flatten.drop cnt)
    (fun r m => r = .ok 0 ∧ (∀ c ∈ m.chunks, c ≠ []) ∧ m.remaining = self.remaining - cnt ∧
      m.chunks.flatten = self.chunks.flatten.drop cnt)
    (fun n _ => n)
    (by
      rintro n m ⟨h1, h2, _, h4⟩ hn
      have h0 : n = 0 := by
        have := of_decide_eq_false hn
        omega
      rw [h0, List.drop_zero] at h4
      exact ⟨by rw [h0], h1, h2, h4⟩)
    (by
      rintro n m ⟨h1, h2, h3, h4⟩ hn
      obtain ⟨n', m', hs, g1, g2, g3, g4, g5⟩ := advanceStep_run (ε := ε) h1
        (of_decide_eq_true hn) h3
      exact .inl ⟨n', m', hs, ⟨g1, g2.trans h2, g4, g5.trans h4⟩, g3⟩)
    (self.chunks.length + cnt + 2) cnt { self with remaining := self.remaining - cnt }
    ⟨h.nonempty, rfl, hle, rfl⟩ (by omega)
  obtain ⟨hres, hne, hrem, hflat⟩ := hloop
  have hassert : cnt ≤ self.remaining := by rw [h.remaining_eq]; exact hle
  refine ⟨_, ?_, ⟨hne, ?_⟩, hflat⟩
  · unfold advance
    rw [get_bind_run, assert_bind_pos hassert, bind_ok (checkedSub_run hassert self), set_bind_run,
      bind_ok (Prod.ext hres rfl), pure_run]
  · rw [hrem, hflat, h.remaining_eq, List.length_drop]

/-- one round of the copy moves a non-empty part of the current segment to `acc` -/
theorem copyStep_run {self : MessageBuf β} (h : ∀ c ∈ self.chunks, c ≠ []) {len : Nat}
    {acc : List β} (hlt : acc.length < len)
    (hle : len ≤ (acc ++ self.chunks.flatten).length) :
    ∃ acc' self', (copyStep len (acc, acc.length) : Call (MessageBuf β) ε (List β × Nat)) self
        = (.ok (acc', acc'.length), self') ∧
      (∀ c ∈ self'.chunks, c ≠ []) ∧ self'.remaining = self.remaining ∧
      acc.length < acc'.length ∧ acc'.length ≤ len ∧
      acc' ++ self'.chunks.flatten = acc ++ self.chunks.flatten := by
  rw [List.length_append] at hle
  obtain ⟨first, rest, hc, hidx⟩ := index_front (ε := ε)
    (by intro e; rw [e] at hle; exact absurd hle (by rw [List.length_nil]; omega))
  have hfirst : 0 < first.length := List.length_pos_iff.mpr (h first (by rw [hc]; simp))
  have hlen : (acc ++ first.take (min first.length (len - acc.length))).length
      = acc.length + min first.length (len - acc.length) := by
    rw [List.length_append, List.length_take]; omega
  refine ⟨acc ++ first.take (min first.length (len - acc.length)),
    self.storeFront (first.drop (min first.length (len - acc.length))), ?_,
    storeFront_nonempty h _, rfl, by omega, by omega, ?_⟩
  · unfold copyStep
    rw [hlen, get_bind_run, hidx, pure_bind_run, bind_ok (checkedSub_run (by omega) self),
      bind_ok (dropFront_run (Nat.min_le_left _ _) self), set_bind_run, pure_run]
  · rw [storeFront_flatten, hc, List.tail_cons, List.flatten_cons, List.append_assoc,
      ← List.append_assoc (List.take _ first), List.take_append_drop]

/-- the copy that straddles segments -/
theorem copyLoop_run {self : MessageBuf β} (h : ∀ c ∈ self.chunks, c ≠ []) {len : Nat}
    (hle : len ≤ self.chunks.flatten.length) (n : Nat) (hn : len < n) :
    ∃ self', whileLoop (fun p => decide (p.2 < len)) (copyStep (ε := ε) len) n ([], 0) self
        = (.ok (self.chunks.flatten.take len, len), self') ∧
      (∀ c ∈ self'.chunks, c ≠ []) ∧ self'.remaining = self.remaining ∧
      self'.chunks.flatten = self.chunks.flatten.drop len := by
  have hloop := whileLoop_rule (ε := ε) (fun p => decide (p.2 < len)) (copyStep (β := β) len)
    (fun p m => p.2 = p.1.length ∧ p.1.length ≤ len ∧ (∀ c ∈ m.chunks, c ≠ []) ∧
      m.remaining = self.remaining ∧ p.1 ++ m.chunks.flatten = self.chunks.flatten)
    (fun r m => r = .ok (self.chunks.flatten.take len, len) ∧ (∀ c ∈ m.chunks, c ≠ []) ∧
      m.remaining = self.remaining ∧ m.chunks.flatten = self.chunks.flatten.drop len)
    (fun p _ => len - p.2)
    (by
      rintro ⟨acc, taken⟩ m ⟨h1, h2, h3, h4, h5⟩ hp
      have e1 : taken = acc.length := h1
      have e2 : acc.length = len := by
        have h6 : ¬ taken < len := of_decide_eq_false hp
        have h7 : acc.length ≤ len := h2
        omega
      refine ⟨?_, h3, h4, ?_⟩
      · rw [← h5, e1, ← e2, List.take_left]
      · rw [← h5, ← e2, List.drop_left])
    (by
      rintro ⟨acc, taken⟩ m ⟨h1, h2, h3, h4, h5⟩ hp
      have e1 : taken = acc.length := h1
      subst e1
      have hlt : acc.length < len := of_decide_eq_true hp
      obtain ⟨acc', m', hs, g1, g2, g3, g4, g5⟩ := copyStep_run (ε := ε) h3 hlt
        (by rw [h5]; exact hle)
      refine .inl ⟨(acc', acc'.length), m', hs, ⟨rfl, g4, g1, g2.trans h4, g5.trans h5⟩, ?_⟩
      show len - acc'.length < len - acc.length
      omega)
    n ([], 0) self ⟨rfl, Nat.zero_le len, h, rfl, rfl⟩ hn
  obtain ⟨hres, h1, h2, h3⟩ := hloop
  exact ⟨_, Prod.ext hres rfl, h1, h2, h3⟩

theorem copyToBytes_run {self : MessageBuf β} (h : WF self) {len : Nat}
    (hle : len ≤ self.chunks.flatten.length) :
    ∃ self', (copyToBytes len : Call (MessageBuf β) ε (List β)) self
        = (.ok (self.chunks.flatten.take len), self') ∧ WF self' ∧
      self'.chunks.flatten = self.chunks.flatten.drop len := by
  by_cases h0 : len = 0
  · subst h0
    exact ⟨self, rfl, h, rfl⟩
  have hassert : len ≤ self.remaining := by rw [h.remaining_eq]; exact hle
  obtain ⟨first, rest, hc, hidx⟩ := index_front (ε := ε)
    (by intro e; rw [e] at hle; exact absurd hle (by rw [List.length_nil]; omega))
  have hflat : self.chunks.flatten = first ++ rest.flatten := by rw [hc, List.flatten_cons]
  unfold copyToBytes
  rw [if_neg h0, get_bind_run, assert_bind_pos hassert, hidx, pure_bind_run]
  by_cases hfit : len ≤ first.length
  · -- the fast path
    have hdrop : self.chunks.flatten.drop len = first.drop len ++ rest.flatten := by
      rw [hflat, List.drop_append_of_le_length hfit]
    have hstore : (self.storeFront (first.drop len)).chunks.flatten
        = self.chunks.flatten.drop len := by
      rw [storeFront_flatten, hc, List.tail_cons, ← hdrop, hc]
    refine ⟨{ self.storeFront (first.drop len) with remaining := self.remaining - len }, ?_,
      ⟨storeFront_nonempty h.nonempty _, ?_⟩, hstore⟩
    · rw [if_pos hfit, bind_ok (splitTo_run hfit self)]
      show (checkedSub self.remaining len >>= fun left => _) self = _
      rw [bind_ok (checkedSub_run hassert self), set_bind_run, pure_run, hflat,
        List.take_append_of_le_length hfit]
    · show self.remaining - len = (self.storeFront (first.drop len)).chunks.flatten.length
      rw [hstore, List.length_drop, h.remaining_eq]
  · -- the slow path
    obtain ⟨self', hl, g1, g2, g3⟩ := copyLoop_run (ε := ε) h.nonempty hle
      (self.chunks.length + len + 2) (by omega)
    have hassert' : len ≤ self'.remaining := by rw [g2]; exact hassert
    refine ⟨{ self' with remaining := self'.remaining - len }, ?_, ⟨g1, ?_⟩, g3⟩
    · rw [if_neg hfit, bind_ok hl]
      show ((get : Call (MessageBuf β) ε (MessageBuf β)) >>= fun self => _) self' = _
      rw [get_bind_run, bind_ok (checkedSub_run hassert' self'), set_bind_run, pure_run]
    · show self'.remaining - len = self'.chunks.flatten.length
      rw [g3, List.length_drop, g2, h.remaining_eq]

theorem chunk_prefix (self : MessageBuf β) : self.chunk <+: self.chunks.flatten := by
  unfold chunk
  cases self.chunks with
  | nil => exact List.nil_prefix
  | cons c cs => exact List.prefix_append c cs.flatten

theorem chunk_ne_nil {self : MessageBuf β} (h : WF self) (hne : self.chunks.flatten ≠ []) :
    self.chunk ≠ [] := by
  have hnon := h.nonempty
  unfold chunk
  cases hc : self.chunks with
  | nil => rw [hc] at hne; exact absurd rfl hne
  | cons c cs => exact hnon c (by rw [hc]; exact List.mem_cons_self ..)

end MessageBuf

instance : Buf (MessageBuf UInt8) where
  remaining self := self.remaining
  chunk self := self.chunk
  advance cnt := MessageBuf.advance cnt
  copyToBytes len := MessageBuf.copyToBytes len

/-- a well-formed message buffer stands for the concatenation of its segments -/
instance : LawfulBuf (MessageBuf UInt8) where
  Inv := MessageBuf.WF
  bytes self := self.chunks.flatten
  remaining_eq _ h := h.remaining_eq
  chunk_prefix self _ := self.chunk_prefix
  chunk_ne_nil _ h hne := MessageBuf.chunk_ne_nil h hne
  advance_run _ _ h hn := MessageBuf.advance_run h hn
  copyToBytes_run _ _ h hn := MessageBuf.copyToBytes_run h hn

end Bolt
