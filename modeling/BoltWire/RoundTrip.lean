import Mathlib.InformationTheory.Coding.UniquelyDecodable
import BoltWire.Encoding

/-!
# Writing and reading back

Whole sequences of calls on one writer, read back by the matching calls on a reader.

* `WriteCall.encode`   the bytes that a call appends, if any;
* `kept`               the calls of a sequence that do not panic;
* `encode_cancel`      encodings are told apart without a separator;
* `writes_reads`       the round trip, and the code it makes.
-/

set_option linter.unusedSectionVars false

namespace Bolt
open Rust Rust.Call

def WriteCall.encode [BytesCrate] (c : WriteCall) : Bytes := (c.run []).2

def kept (calls : List WriteCall) : List WriteCall := calls.filter fun c => !decide c.TooLong

theorem mem_kept {c : WriteCall} {calls : List WriteCall} (h : c ∈ kept calls) : ¬ c.TooLong := by
  have h1 := (List.mem_filter.mp h).2
  simpa using h1

section
variable [BytesCrate]

theorem call_code {c : WriteCall} (h : ¬ c.TooLong) :
    (∃ (m : Marker) (b : UInt8) (body : Bytes), m.toByte = .ok b ∧ m.op = c.op ∧
      c.encode = b :: body) ∧
    Puts c.run c.encode ∧ Takes c.op.run c.encode c.val := by
  obtain ⟨m, b, body, hb, hop, hputs, htakes⟩ := call_codes h
  have e : c.encode = b :: body := congrArg Prod.snd (hputs [])
  rw [e]
  exact ⟨⟨m, b, body, hb, hop, rfl⟩, hputs, htakes⟩

/-- **Encodings are told apart**: the first byte gives the typed read, and that reads the same from
both inputs. -/
theorem encode_cancel {c c' : WriteCall} {rest rest' : Bytes} (h : ¬ c.TooLong) (h' : ¬ c'.TooLong)
    (e : c.encode ++ rest = c'.encode ++ rest') : c = c' ∧ rest = rest' := by
  obtain ⟨⟨m, b, body, hb, hop, henc⟩, -, htakes⟩ := call_code h
  obtain ⟨⟨m', b', body', hb', hop', henc'⟩, -, htakes'⟩ := call_code h'
  have hbb : b = b' := by
    rw [henc, henc'] at e
    exact (List.cons.inj e).1
  have hmm : m = m' := by
    have h1 := fromByte_of_toByte hb
    rw [hbb, fromByte_of_toByte hb'] at h1
    exact (Except.ok.inj h1).symm
  have hops : c.op = c'.op := by rw [← hop, ← hop', hmm]
  rw [← hops] at htakes'
  obtain ⟨hval, hrest⟩ := htakes.cancel htakes' e
  exact ⟨WriteCall.eq_of_op_val hops hval, hrest⟩

/-! ## sequences -/

theorem call_run (c : WriteCall) (buf : Bytes) :
    c.run buf = (if c.TooLong then .panic else .ok (), buf ++ c.encode) := by
  by_cases h : c.TooLong
  · rw [if_pos h, WriteCall.encode, call_panics h, call_panics h, List.append_nil]
  · rw [if_neg h]
    exact (call_code h).2.1 buf

theorem writes_run (calls : List WriteCall) : ∀ buf,
    writes calls buf = (calls.map fun c => if c.TooLong then .panic else .ok (),
      buf ++ calls.flatMap WriteCall.encode) := by
  induction calls with
  | nil => intro buf; rw [List.flatMap_nil, List.append_nil]; rfl
  | cons c calls ih =>
    intro buf
    show ((c.run buf).1 :: (writes calls (c.run buf).2).1, (writes calls (c.run buf).2).2) = _
    rw [call_run, ih, List.map_cons, List.flatMap_cons, List.append_assoc]

theorem flatMap_kept (calls : List WriteCall) :
    (kept calls).flatMap WriteCall.encode = calls.flatMap WriteCall.encode := by
  induction calls with
  | nil => rfl
  | cons c calls ih =>
    by_cases h : c.TooLong
    · have e : c.encode = [] := by rw [WriteCall.encode, call_panics h]
      rw [kept, List.filter_cons_of_neg (by simpa using h), List.flatMap_cons, e, List.nil_append]
      exact ih
    · rw [kept, List.filter_cons_of_pos (by simpa using h), List.flatMap_cons, List.flatMap_cons]
      exact congrArg _ ih

/-- the matching reads take the encodings off one after the other -/
theorem session_reads (calls : List WriteCall) (h : ∀ c ∈ calls, ¬ c.TooLong) (rest : Bytes) :
    (session (calls.map WriteCall.op) (calls.flatMap WriteCall.encode ++ rest)).1.map Prod.fst
      = calls.map (fun c => .ok c.val) ∧
    (session (calls.map WriteCall.op) (calls.flatMap WriteCall.encode ++ rest)).2 = rest := by
  induction calls with
  | nil => exact ⟨rfl, rfl⟩
  | cons c calls ih =>
    obtain ⟨ih1, ih2⟩ := ih fun c hc => h c (List.mem_cons_of_mem _ hc)
    have hrun : c.op.run ((c :: calls).flatMap WriteCall.encode ++ rest)
        = (.ok c.val, calls.flatMap WriteCall.encode ++ rest) := by
      rw [List.flatMap_cons, List.append_assoc]
      exact (call_code (h c List.mem_cons_self)).2.2 _
    rw [List.map_cons]
    show ((c.op.run ((c :: calls).flatMap WriteCall.encode ++ rest)).1 ::
      (session (calls.map WriteCall.op) (c.op.run _).2).1.map Prod.fst) = _ ∧
      (session (calls.map WriteCall.op) (c.op.run _).2).2 = _
    rw [hrun, ih1]
    exact ⟨rfl, ih2⟩

theorem encode_ne_nil {c : WriteCall} (h : ¬ c.TooLong) : c.encode ≠ [] := by
  obtain ⟨⟨m, b, body, -, -, henc⟩, -⟩ := call_code h
  rw [henc]
  exact List.cons_ne_nil b body

end

/-- the encodings of single calls -/
def codewords [BytesCrate] : Set Bytes := {w | ∃ c : WriteCall, ¬ c.TooLong ∧ c.encode = w}

/-- **The writer's calls are read back.**  A call panics exactly when what it is given is too long,
and then leaves the buffer as it was; the matching reads return what was written and leave what
follows; and calls with different encodings are different calls. -/
theorem writes_reads [BytesCrate] (calls : List WriteCall) :
    (writes calls []).1 = calls.map (fun c => if c.TooLong then .panic else .ok ()) ∧
    (∀ c ∈ calls, c.TooLong → ∀ buf, (c.run buf).2 = buf) ∧
    (∀ rest,
      (session ((kept calls).map WriteCall.op) ((writes calls []).2 ++ rest)).1.map Prod.fst
        = (kept calls).map (fun c => .ok c.val) ∧
      (session ((kept calls).map WriteCall.op) ((writes calls []).2 ++ rest)).2 = rest) ∧
    (∀ calls', (writes calls []).2 = (writes calls' []).2 → kept calls = kept calls') ∧
    InformationTheory.UniquelyDecodable codewords := by
  rw [writes_run, ← flatMap_kept]
  refine ⟨rfl, fun c _ h buf => ?_, fun rest => ?_, fun calls' e => ?_, ?_⟩
  · rw [call_panics h]
  · exact session_reads (kept calls) (fun c hc => mem_kept hc) rest
  · rw [writes_run, ← flatMap_kept calls'] at e
    exact flatMap_cancel (p := fun c => ¬ c.TooLong) (fun c c' _ _ h h' => encode_cancel h h')
      (fun c h => encode_ne_nil h) _ _ (fun c hc => mem_kept hc) (fun c hc => mem_kept hc) e
  · intro ws ws' hws hws' e
    refine flatMap_cancel (p := (· ∈ codewords)) ?_ ?_ ws ws' hws hws'
      (List.flatMap_id.trans (e.trans List.flatMap_id.symm))
    · rintro _ _ rest rest' ⟨c, h, rfl⟩ ⟨c', h', rfl⟩ e
      obtain ⟨rfl, hrest⟩ := encode_cancel h h' e
      exact ⟨rfl, hrest⟩
    · rintro _ ⟨c, h, rfl⟩
      exact encode_ne_nil h

/-- a header, a number and a string, with one byte after them -/
theorem writes_reads_three :
    letI := BytesCrate.copying
    (session [.listHeader, .int, .string] ((writes [.listHeader 2, .int (-17),
        .string ⟨[0xC3, 0xA9], by decide⟩] []).2 ++ [7])).1.map Prod.fst
      = [.ok (.count 2), .ok (.int (-17)), .ok (.string ⟨[0xC3, 0xA9], by decide⟩)] := by
  let _ := BytesCrate.copying
  exact ((writes_reads [.listHeader 2, .int (-17), .string ⟨[0xC3, 0xA9], by decide⟩]).2.2.1 [7]).1

end Bolt
