import BoltWire.Arity
import BoltWire.Client

/-!
# Reading as if from a tape of calls

A reader only has bytes.  What a writer has written is for any client the calls themselves: it reads,
skips and mistakes whole calls, up to the read that takes a call for one of another type and leaves
its bytes torn.

* `Tape`, `Tape.bytes`   the calls that are still to be read, and what they stand for;
* `Tape.step`            what an operation does to whole calls;
* `step_run`             every operation on the bytes is that step;
* `Client.follow`        a client on a tape;
* `writes_tape`          no client tells what was written from a tape, until it tears a call.
-/

set_option linter.unusedSectionVars false

namespace Bolt
open Rust Rust.Call Polish

/-- `torn` is what a read of the wrong type has left of a call -/
structure Tape where
  torn : Bytes
  calls : List WriteCall
  deriving DecidableEq, Repr

namespace Tape

def whole (calls : List WriteCall) : Tape := ⟨[], calls⟩

variable [BytesCrate]

def bytes (t : Tape) : Bytes := t.torn ++ t.calls.flatMap WriteCall.encode

@[simp] theorem whole_bytes (calls : List WriteCall) :
    (whole calls).bytes = calls.flatMap WriteCall.encode := rfl

/-- a typed read: of a call of its type all is taken, of another call the first byte -/
def read (op : ReadOp) : List WriteCall → Res PackStreamError ReadVal × Tape
  | [] => (.err .unexpectedEof, whole [])
  | c :: calls =>
    if c.op = op then (.ok c.val, whole calls)
    else (.err (.invalidMarker (c.encode.headD 0)), ⟨c.encode.tail, calls⟩)

def step (op : ReadOp) (calls : List WriteCall) : Res PackStreamError ReadVal × Tape :=
  match op with
  | .peek => (.ok (.peeked (calls.head?.bind fun c => c.encode.head?)), whole calls)
  | .remaining => (.ok (.size (calls.map fun c => c.encode.length).sum), whole calls)
  | .skip =>
    match after WriteCall.arity 1 calls with
    | some rest => (.ok .skipped, whole rest)
    | none => (.err .unexpectedEof, whole [])
  | _ => read op calls

theorem read_calls (op : ReadOp) (calls : List WriteCall) :
    (read op calls).2.calls <:+ calls := by
  cases calls with
  | nil => exact List.suffix_rfl
  | cons c calls =>
    rw [read]
    split
    · exact List.suffix_cons c calls
    · exact List.suffix_cons c calls

/-- the calls are taken from the front -/
theorem step_calls (op : ReadOp) (calls : List WriteCall) :
    (step op calls).2.calls <:+ calls := by
  cases op with
  | peek | remaining => exact List.suffix_rfl
  | skip =>
    rw [step]
    cases hone : after WriteCall.arity 1 calls with
    | none => exact List.nil_suffix
    | some rest =>
      obtain ⟨us, rfl, -⟩ := after_eq_some_iff.mp hone
      exact List.suffix_append us rest
  | _ => exact read_calls _ calls

theorem whole_length_le {calls calls' : List WriteCall} (h : calls' <:+ calls) :
    (whole calls').bytes.length ≤ (whole calls).bytes.length := by
  obtain ⟨us, rfl⟩ := h
  rw [whole_bytes, whole_bytes, List.flatMap_append, List.length_append]
  exact Nat.le_add_left _ _

/-- no operation adds bytes -/
theorem step_length (op : ReadOp) (calls : List WriteCall) :
    (step op calls).2.bytes.length ≤ (whole calls).bytes.length := by
  have hread : ∀ calls, (read op calls).2.bytes.length ≤ (whole calls).bytes.length := by
    intro calls
    cases calls with
    | nil => exact Nat.le_refl _
    | cons c calls =>
      rw [read]
      split
      · exact whole_length_le (List.suffix_cons c calls)
      · show (c.encode.tail ++ _).length ≤ (c.encode ++ calls.flatMap WriteCall.encode).length
        rw [List.length_append, List.length_append, List.length_tail]
        exact Nat.add_le_add_right (Nat.sub_le _ 1) _
  cases op with
  | peek | remaining => exact Nat.le_refl _
  | skip =>
    have hcalls := step_calls .skip calls
    rw [step] at hcalls ⊢
    split at hcalls <;> exact whole_length_le hcalls
  | _ => exact hread calls

/-- the errors on a tape -/
def Answer (calls : List WriteCall) : Res PackStreamError ReadVal → Prop
  | .ok _ => True
  | .err .unexpectedEof => True
  | .err (.invalidMarker b) => ∃ c ∈ calls, ∃ body, c.encode = b :: body
  | _ => False

theorem Answer.mono {calls calls' : List WriteCall} {r : Res PackStreamError ReadVal}
    (h : Answer calls' r) (hsuffix : calls' <:+ calls) : Answer calls r := by
  cases r with
  | err e =>
    cases e with
    | invalidMarker b =>
      obtain ⟨c, hc, henc⟩ := h
      exact ⟨c, hsuffix.subset hc, henc⟩
    | _ => exact h
  | _ => exact h

theorem read_run {op : ReadOp} (h : op.Typed) {calls : List WriteCall}
    (hfit : ∀ c ∈ calls, ¬ c.TooLong) :
    (op.run : Reader Bytes ReadVal) (whole calls).bytes
      = ((read op calls).1, (read op calls).2.bytes) := by
  cases calls with
  | nil => exact typed_nil h
  | cons c calls =>
    obtain ⟨⟨m, b, body, hb, hop, henc⟩, -, htakes⟩ := call_code (hfit c List.mem_cons_self)
    show op.run (c.encode ++ calls.flatMap WriteCall.encode) = _
    rw [read]
    by_cases hc : c.op = op
    · subst hc
      rw [if_pos rfl]
      exact htakes _
    · rw [if_neg hc, henc]
      exact typed_other h (fromByte_of_toByte hb) (hop ▸ hc) _

/-- **One operation**: on the bytes of whole calls it does what the tape does. -/
theorem step_run (op : ReadOp) {calls : List WriteCall} (hfit : ∀ c ∈ calls, ¬ c.TooLong)
    (hlen : (whole calls).bytes.length < 2 ^ 30) :
    (op.run : Reader Bytes ReadVal) (whole calls).bytes
      = ((step op calls).1, (step op calls).2.bytes) := by
  cases op with
  | peek =>
    cases calls with
    | nil => rfl
    | cons c calls =>
      obtain ⟨⟨m, b, body, -, -, henc⟩, -⟩ := call_code (hfit c List.mem_cons_self)
      simp only [step, whole_bytes, List.flatMap_cons, List.head?_cons, Option.bind_some, henc]
      rfl
  | remaining =>
    show (Res.ok (ReadVal.size (whole calls).bytes.length), _) = _
    rw [whole_bytes, List.length_flatMap]
    rfl
  | skip =>
    have hskip := skip_words hfit hlen
    rw [step]
    cases hone : after WriteCall.arity 1 calls with
    | none =>
      rw [hone] at hskip
      exact bind_err hskip _
    | some rest =>
      rw [hone] at hskip
      exact bind_ok hskip _
  | _ => exact read_run (by trivial) hfit

theorem read_answer (op : ReadOp) {calls : List WriteCall} (hfit : ∀ c ∈ calls, ¬ c.TooLong) :
    Answer calls (read op calls).1 := by
  cases calls with
  | nil => trivial
  | cons c calls =>
    obtain ⟨⟨m, b, body, -, -, henc⟩, -⟩ := call_code (hfit c List.mem_cons_self)
    rw [read, henc]
    split
    · trivial
    · exact ⟨c, List.mem_cons_self, body, henc⟩

theorem step_answer (op : ReadOp) {calls : List WriteCall} (hfit : ∀ c ∈ calls, ¬ c.TooLong) :
    Answer calls (step op calls).1 := by
  cases op with
  | peek | remaining => trivial
  | skip =>
    rw [step]
    split <;> trivial
  | _ => exact read_answer _ hfit

end Tape

namespace Client
variable [BytesCrate]

/-- a client on a tape, up to a torn call -/
def follow : Client → Tape → List (Res PackStreamError ReadVal × Nat) × Tape
  | stop, t => ([], t)
  | ask op next, t =>
    if t.torn = [] then
      let r := Tape.step op t.calls
      let u := (next r.1 r.2.bytes.length).follow r.2
      ((r.1, r.2.bytes.length) :: u.1, u.2)
    else ([], t)

theorem follow_torn (c : Client) {t : Tape} (h : t.torn ≠ []) : c.follow t = ([], t) := by
  cases c with
  | stop => rfl
  | ask op next => exact if_neg h

theorem follow_ask (op : ReadOp) (next : Res PackStreamError ReadVal → Nat → Client)
    (calls : List WriteCall) :
    (ask op next).follow (Tape.whole calls)
      = (((Tape.step op calls).1, (Tape.step op calls).2.bytes.length) ::
          ((next (Tape.step op calls).1 (Tape.step op calls).2.bytes.length).follow
            (Tape.step op calls).2).1,
        ((next (Tape.step op calls).1 (Tape.step op calls).2.bytes.length).follow
          (Tape.step op calls).2).2) := rfl

theorem follow_answers (c : Client) : ∀ {t : Tape} {calls : List WriteCall},
    (∀ d ∈ calls, ¬ d.TooLong) → t.calls <:+ calls → ∀ r ∈ (c.follow t).1, Tape.Answer calls r.1 := by
  induction c with
  | stop => exact fun _ _ r hr => absurd hr List.not_mem_nil
  | ask op next ih =>
    intro t calls hfit h r hr
    by_cases htorn : t.torn = []
    · obtain ⟨torn, rest⟩ := t
      subst htorn
      rcases List.mem_cons.mp hr with rfl | hr
      · exact (Tape.step_answer op fun d hd => hfit d (h.subset hd)).mono h
      · exact ih _ _ hfit ((Tape.step_calls op rest).trans h) r hr
    · rw [follow_torn _ htorn] at hr
      exact absurd hr List.not_mem_nil

/-- on the bytes of a tape a client is answered as on the tape, as long as that answers -/
theorem talk_bytes (c : Client) : ∀ {t : Tape}, (∀ d ∈ t.calls, ¬ d.TooLong) →
    t.bytes.length < 2 ^ 30 →
    ∃ more, (c.talk t.bytes).1 = (c.follow t).1 ++ more ∧
      ((c.follow t).2.torn = [] → more = [] ∧ (c.talk t.bytes).2 = (c.follow t).2.bytes) := by
  induction c with
  | stop => exact fun _ _ => ⟨[], rfl, fun _ => ⟨rfl, rfl⟩⟩
  | ask op next ih =>
    intro t hfit hlen
    by_cases htorn : t.torn = []
    · obtain ⟨torn, calls⟩ := t
      subst htorn
      have hstep := Tape.step_run op hfit hlen
      have hsuffix := Tape.step_calls op calls
      have hlen' : (Tape.step op calls).2.bytes.length < 2 ^ 30 :=
        Nat.lt_of_le_of_lt (Tape.step_length op calls) hlen
      obtain ⟨more, hmore, hend⟩ := ih (Tape.step op calls).1 (Tape.step op calls).2.bytes.length
        (fun d hd => hfit d (hsuffix.subset hd)) hlen'
      refine ⟨more, ?_, ?_⟩
      · show ((ask op next).talk (Tape.whole calls).bytes).1
          = ((ask op next).follow (.whole calls)).1 ++ more
        rw [talk, hstep, follow_ask, List.cons_append, ← hmore]
        rfl
      · show ((ask op next).follow (.whole calls)).2.torn = [] → more = [] ∧
          ((ask op next).talk (Tape.whole calls).bytes).2 = ((ask op next).follow (.whole calls)).2.bytes
        rw [talk, hstep, follow_ask]
        exact hend
    · rw [follow_torn _ htorn]
      exact ⟨_, (List.nil_append _).symm, fun h => absurd h htorn⟩

end Client

section
variable [BytesCrate] {B : Type} [Buf B] [LawfulBuf B]

/-- every client is answered on the buffer as on the tape, until it tears a call, and ends on the
bytes of what is left of the tape -/
def ReadsLike (calls : List WriteCall) (b : B) : Prop :=
  ∀ c : Client, (c.follow (.whole calls)).1 <+: (c.talk b).1 ∧
    ((c.follow (.whole calls)).2.torn = [] → (c.talk b).1 = (c.follow (.whole calls)).1 ∧
      Same (c.talk b).2 (c.follow (.whole calls)).2.bytes)

theorem writes_bytes (calls : List WriteCall) :
    (writes calls []).2 = (Tape.whole (kept calls)).bytes := by
  rw [writes_run, Tape.whole_bytes, flatMap_kept]
  rfl

theorem readsLike_kept (calls : List WriteCall) {b : B} (hb : Same b (writes calls []).2)
    (hlen : Buf.remaining b < 2 ^ 30) : ReadsLike (kept calls) b := by
  rw [writes_bytes] at hb
  rw [hb.remaining] at hlen
  intro c
  obtain ⟨hres, hsame⟩ := c.talk_same hb
  obtain ⟨more, hmore, hend⟩ := c.talk_bytes (fun d hd => mem_kept hd) hlen
  refine ⟨⟨more, (hres.trans hmore).symm⟩, fun htorn => ?_⟩
  obtain ⟨rfl, hrest⟩ := hend htorn
  rw [hrest] at hsame
  rw [List.append_nil] at hmore
  exact ⟨hres.trans hmore, hsame⟩

/-- **A client reads the calls that were written.**  Whatever it reads, skips or only looks at, in
whatever order, and in whatever buffer the bytes are, it is answered as on a tape of the calls that
did not panic, with the same number of bytes left, up to a read of the wrong type that tears a call.
Until then the only errors are the end of the tape and the first byte of a call of another type. -/
theorem writes_tape (calls : List WriteCall) {b : B} (hb : Same b (writes calls []).2)
    (hlen : Buf.remaining b < 2 ^ 30) :
    ReadsLike (kept calls) b ∧
    ∀ (c : Client), ∀ r ∈ (c.follow (.whole (kept calls))).1, Tape.Answer (kept calls) r.1 :=
  ⟨readsLike_kept calls hb hlen, fun c =>
    c.follow_answers (fun _ hd => mem_kept hd) List.suffix_rfl⟩

end

/-- a number and a string in segments: the client takes the number, then mistakes the string -/
theorem writes_tape_two :
    letI := BytesCrate.copying
    [(.ok (.int 300), 3), (.err (.invalidMarker 0x82), 2)]
      <+: ((Client.script [.int, .null, .skip]).talk
        (⟨[[0xC9, 1], [44, 0x82, 0x61], [0x62]], 6⟩ : MessageBuf UInt8)).1 := by
  let _ := BytesCrate.copying
  have hb : Same (⟨[[0xC9, 1], [44, 0x82, 0x61], [0x62]], 6⟩ : MessageBuf UInt8)
      (writes [.int 300, .string ⟨[0x61, 0x62], by decide⟩] []).2 := ⟨⟨by decide, rfl⟩, by decide⟩
  have hread := (writes_tape [.int 300, .string ⟨[0x61, 0x62], by decide⟩] hb (by decide)).1
    (Client.script [.int, .null, .skip])
  -- on the tape the second read has torn the string
  have htape : (Client.script [.int, .null, .skip]).follow
      (.whole (kept [.int 300, .string ⟨[0x61, 0x62], by decide⟩]))
      = ([(.ok (.int 300), 3), (.err (.invalidMarker 0x82), 2)], ⟨[0x61, 0x62], []⟩) := by decide
  rw [htape] at hread
  exact hread.1

end Bolt
