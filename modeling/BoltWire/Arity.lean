import BoltWire.Lib.Polish
import BoltWire.Truncation
import BoltWire.Typed
import BoltWire.Value

/-!
# The writer and the skipper count alike

The calls of the writer are a prefix notation of values, and `skip_value` counts in it.

* `WriteCall.arity`   how many values a call announces;
* `Values k calls`    the calls are `k` complete values in a row;
* `call_head`         a call writes one head, with its arity;
* `skip_words`, `skips_run`   one skip, and several, over what calls have written;
* `Value.values`      the calls of a tree are one value;
* `skips_values`      skipping succeeds as often as there are values, and leaves nothing only then.
-/

set_option linter.unusedSectionVars false

namespace Bolt
open Rust Rust.Call Polish

/-- so many values must follow a call -/
def WriteCall.arity : WriteCall → Nat
  | .listHeader size => size.toNat
  | .mapHeader size => 2 * size.toNat
  | .structHeader _ numFields => numFields.toNat
  | _ => 0

/-- `k` complete values: a scalar, a string or a byte array is one, and so is a header together with
the complete values that it announces -/
abbrev Values : Nat → List WriteCall → Prop := Terms WriteCall.arity

/-! ## the calls of a tree -/

theorem values_append {m k : Nat} {cs cs' : List WriteCall} (h : Values m cs) (h' : Values k cs') :
    Values (m + k) (cs ++ cs') := by
  rw [Values, ← after_nil_iff, after_add, h.after, Option.bind_some, after_nil_iff]
  exact h'

theorem values_call {c : WriteCall} {cs : List WriteCall} (h : Values c.arity cs) :
    Values 1 (c :: cs) := by
  have h1 := Terms.cons c h Terms.nil
  rwa [List.append_nil] at h1

theorem values_flatMap {γ : Type} {f : γ → List WriteCall} {m : Nat} (as : List γ)
    (h : ∀ a ∈ as, Values m (f a)) : Values (m * as.length) (as.flatMap f) := by
  induction as with
  | nil => exact Terms.nil
  | cons a as ih =>
    rw [List.flatMap_cons, List.length_cons, Nat.mul_succ, Nat.add_comm]
    exact values_append (h a List.mem_cons_self) (ih fun c hc => h c (List.mem_cons_of_mem _ hc))

/-- **The calls of a tree are one value.** -/
theorem Value.values {v : Value} : v.Fits → Values 1 v.calls := by
  induction v using Value.induct with
  | null | bool | int | float | string | bytes => exact fun _ => values_call Terms.nil
  | list items ih =>
    rintro ⟨hlen, hfit⟩
    have hitems := values_flatMap items fun v hv => ih v hv ((itemsFit_iff items).mp hfit v hv)
    have e : (UInt32.ofNat items.length).toNat = items.length :=
      UInt32.toNat_ofNat_of_lt' (Nat.lt_of_le_of_lt hlen (by decide))
    refine values_call (c := .listHeader _) ?_
    rw [WriteCall.arity, e, itemsCalls_eq, ← Nat.one_mul items.length]
    exact hitems
  | map entries ih =>
    rintro ⟨hlen, hfit⟩
    have hentries : Values (2 * entries.length)
        (entries.flatMap fun e => .string e.1 :: calls e.2) := by
      refine values_flatMap entries fun e he => ?_
      have hv := ih e he ((entriesFit_iff entries).mp hfit e he).2
      have hkey : Values 1 [.string e.1] := values_call Terms.nil
      exact values_append hkey hv
    have e : (UInt32.ofNat entries.length).toNat = entries.length :=
      UInt32.toNat_ofNat_of_lt' (Nat.lt_of_le_of_lt hlen (by decide))
    refine values_call (c := .mapHeader _) ?_
    rw [WriteCall.arity, e, entriesCalls_eq]
    exact hentries
  | struct tag fields ih =>
    rintro ⟨hlen, hfit⟩
    have hfields := values_flatMap fields fun v hv => ih v hv ((itemsFit_iff fields).mp hfit v hv)
    have e : (UInt32.ofNat fields.length).toNat = fields.length :=
      UInt32.toNat_ofNat_of_lt' (Nat.lt_of_le_of_lt hlen (by decide))
    refine values_call (c := .structHeader tag _) ?_
    rw [WriteCall.arity, e, itemsCalls_eq, ← Nat.one_mul fields.length]
    exact hfields

open PackStreamReader

section
variable [BytesCrate]

/-! ## skipping what was written -/

theorem call_head {c : WriteCall} (h : ¬ c.TooLong) : Takes valueHead c.encode c.arity := by
  have harity : c.op.arity c.val = c.arity := by
    cases c <;> rfl
  rw [← harity]
  exact fun rest => typed_head c.op_typed ((call_code h).2.2 rest)

theorem valueHead_nil : valueHead [] = (.err .unexpectedEof, []) := bind_err readMarker_nil _

theorem count_calls {calls : List WriteCall} (h : ∀ c ∈ calls, ¬ c.TooLong) :
    countOne unbounded valueHead (calls.flatMap WriteCall.encode)
      = match after WriteCall.arity 1 calls with
        | some rest => (.ok (), rest.flatMap WriteCall.encode)
        | none => (.err .unexpectedEof, []) := by
  rw [countOne_words WriteCall.arity WriteCall.encode valueHead_consumes valueHead_nil fun c hc =>
    call_head (h c hc)]
  cases after WriteCall.arity 1 calls <;> rfl

theorem skip_words {calls : List WriteCall} (h : ∀ c ∈ calls, ¬ c.TooLong)
    (hlen : (calls.flatMap WriteCall.encode).length < 2 ^ 30) :
    skipValue (calls.flatMap WriteCall.encode) = match after WriteCall.arity 1 calls with
      | some rest => (.ok (), rest.flatMap WriteCall.encode)
      | none => (.err .unexpectedEof, []) := by
  rw [skipValue_eq, countOne_eq valueHead_consumes valueHead_safe _ (by omega), count_calls h]

theorem session_skip (k : Nat) (data : Bytes) :
    session (List.replicate (k + 1) .skip) data
      = (((ReadOp.skip.run data).1, Buf.remaining (ReadOp.skip.run data).2) ::
          (session (List.replicate k .skip) (ReadOp.skip.run data).2).1,
        (session (List.replicate k .skip) (ReadOp.skip.run data).2).2) := rfl

theorem skips_run (k : Nat) : ∀ {calls : List WriteCall}, (∀ c ∈ calls, ¬ c.TooLong) →
    (calls.flatMap WriteCall.encode).length < 2 ^ 30 →
    match after WriteCall.arity k calls with
    | some rest => (∀ r ∈ (session (List.replicate k .skip) (calls.flatMap WriteCall.encode)).1,
          r.1 = .ok .skipped) ∧
        (session (List.replicate k .skip) (calls.flatMap WriteCall.encode)).2
          = rest.flatMap WriteCall.encode
    | none => ∃ r ∈ (session (List.replicate k .skip) (calls.flatMap WriteCall.encode)).1,
        r.1 = .err .unexpectedEof := by
  induction k with
  | zero =>
    intro calls _ _
    rw [after_zero]
    exact ⟨fun r hr => absurd hr List.not_mem_nil, rfl⟩
  | succ k ih =>
    intro calls h hlen
    have hskip := skip_words h hlen
    rw [Nat.add_comm k 1, after_add]
    rw [Nat.add_comm 1 k, session_skip]
    cases hone : after WriteCall.arity 1 calls with
    | none =>
      rw [hone] at hskip
      refine ⟨_, List.mem_cons_self, ?_⟩
      show (ReadOp.skip.run _).1 = _
      exact congrArg Prod.fst (bind_err hskip _)
    | some mid =>
      rw [hone] at hskip
      have hrun : (ReadOp.skip.run (calls.flatMap WriteCall.encode) : Res PackStreamError ReadVal × Bytes)
          = (.ok .skipped, mid.flatMap WriteCall.encode) := bind_ok hskip _
      obtain ⟨us, rfl, -⟩ := after_eq_some_iff.mp hone
      rw [List.flatMap_append, List.length_append] at hlen
      have hrest := ih (fun c hc => h c (List.mem_append_right us hc)) (by omega)
      rw [hrun, Option.bind_some]
      cases hk : after WriteCall.arity k mid with
      | none =>
        rw [hk] at hrest
        obtain ⟨r, hr, he⟩ := hrest
        exact ⟨r, List.mem_cons_of_mem _ hr, he⟩
      | some rest =>
        rw [hk] at hrest
        refine ⟨fun r hr => ?_, hrest.2⟩
        rcases List.mem_cons.mp hr with rfl | hr
        · rfl
        · exact hrest.1 r hr

theorem encode_all_nil {calls : List WriteCall} (h : ∀ c ∈ calls, ¬ c.TooLong)
    (hnil : calls.flatMap WriteCall.encode = []) : calls = [] := by
  cases calls with
  | nil => rfl
  | cons c calls =>
    rw [List.flatMap_cons] at hnil
    exact absurd (List.append_eq_nil_iff.mp hnil).1 (encode_ne_nil (h c List.mem_cons_self))

/-- `k` skips succeed and leave nothing exactly on `k` values -/
theorem skips_iff {calls : List WriteCall} (h : ∀ c ∈ calls, ¬ c.TooLong)
    (hlen : (calls.flatMap WriteCall.encode).length < 2 ^ 30) (k : Nat) :
    ((∀ r ∈ (session (List.replicate k .skip) (calls.flatMap WriteCall.encode)).1,
        r.1 = .ok .skipped) ∧
      Buf.remaining (session (List.replicate k .skip) (calls.flatMap WriteCall.encode)).2 = 0) ↔
    Values k calls := by
  have hrun := skips_run k h hlen
  constructor
  · rintro ⟨hall, hleft⟩
    refine after_nil_iff.mp ?_
    cases hafter : after WriteCall.arity k calls with
    | none =>
      rw [hafter] at hrun
      obtain ⟨r, hr, he⟩ := hrun
      rw [hall r hr] at he
      cases he
    | some rest =>
      rw [hafter] at hrun
      rw [hrun.2] at hleft
      obtain ⟨us, rfl, -⟩ := after_eq_some_iff.mp hafter
      rw [encode_all_nil (fun c hc => h c (List.mem_append_right us hc))
        (List.length_eq_zero_iff.mp hleft)]
  · intro hv
    rw [after_nil_iff.mpr hv] at hrun
    refine ⟨hrun.1, ?_⟩
    rw [hrun.2]
    rfl

/-- **One skip for one tree**, whatever follows it. -/
theorem skipValue_tree {v : Value} (h : v.Fits) (hlen : v.encode.length ≤ usizeMax) (rest : Bytes) :
    skipValue (v.encode ++ rest) = (.ok (), rest) := by
  have hone : after WriteCall.arity 1 v.calls = some [] := after_nil_iff.mpr (Value.values h)
  have hcount := count_calls (Value.calls_fit h)
  rw [hone] at hcount
  have hskip : skipValue v.encode = (.ok (), []) := by
    rw [skipValue_eq, countOne_ok_iff valueHead_consumes _ (Nat.lt_of_le_of_lt hlen (by decide))]
    exact hcount
  exact skipValue_append hskip nofun rest

end

/-- **The arities are the counts.**  Skipping `k` times over what calls have written succeeds and
leaves nothing exactly when the calls are `k` complete values; otherwise bytes are left over or
the input runs out.  A tree is skipped at once. -/
theorem skips_values [BytesCrate] (calls : List WriteCall)
    (hok : ∀ r ∈ (writes calls []).1, r = .ok ()) (hlen : (writes calls []).2.length < 2 ^ 30) :
    (∀ k, ((∀ r ∈ (session (List.replicate k .skip) (writes calls []).2).1, r.1 = .ok .skipped) ∧
        Buf.remaining (session (List.replicate k .skip) (writes calls []).2).2 = 0) ↔
      Values k calls) ∧
    (∀ k, ¬ Values k calls →
      (∃ r ∈ (session (List.replicate k .skip) (writes calls []).2).1, r.1 = .err .unexpectedEof) ∨
      ((∀ r ∈ (session (List.replicate k .skip) (writes calls []).2).1, r.1 = .ok .skipped) ∧
        0 < Buf.remaining (session (List.replicate k .skip) (writes calls []).2).2)) ∧
    ∀ v : Value, v.Fits → v.encode.length ≤ usizeMax →
      ∀ rest, skipValue (v.encode ++ rest) = (.ok (), rest) := by
  rw [writes_run, List.nil_append] at hok hlen ⊢
  have hfit : ∀ c ∈ calls, ¬ c.TooLong := by
    intro c hc hlong
    have hr := hok _ (List.mem_map_of_mem hc)
    rw [if_pos hlong] at hr
    cases hr
  refine ⟨fun k => skips_iff hfit hlen k, fun k h => ?_, fun v h hv => skipValue_tree h hv⟩
  have hrun := skips_run k hfit hlen
  cases hafter : after WriteCall.arity k calls with
  | none =>
    rw [hafter] at hrun
    exact .inl hrun
  | some rest =>
    rw [hafter] at hrun
    exact .inr ⟨hrun.1, Nat.pos_of_ne_zero fun hleft =>
      h ((skips_iff hfit hlen k).mp ⟨hrun.1, hleft⟩)⟩

/-- a map of one entry and a number are two values; a header that announces two is not one -/
theorem skips_values_map :
    letI := BytesCrate.copying
    (∀ r ∈ (session [.skip, .skip] (writes [.mapHeader 1, .string ⟨[0x61], by decide⟩, .null, .int 300]
      []).2).1, r.1 = .ok .skipped) ∧
    ((∃ r ∈ (session [.skip] (writes [.listHeader 2, .null] []).2).1, r.1 = .err .unexpectedEof) ∨
      ((∀ r ∈ (session [.skip] (writes [.listHeader 2, .null] []).2).1, r.1 = .ok .skipped) ∧
        0 < Buf.remaining (session [.skip] (writes [.listHeader 2, .null] []).2).2)) := by
  let _ := BytesCrate.copying
  have h1 := skips_values [.mapHeader 1, .string ⟨[0x61], by decide⟩, .null, .int 300] (by decide)
    (by decide)
  have h2 := skips_values [.listHeader 2, .null] (by decide) (by decide)
  refine ⟨((h1.1 2).mpr (after_nil_iff.mp (by decide))).1, h2.2.1 1 fun h => ?_⟩
  exact absurd (after_nil_iff.mpr h) (by decide)

end Bolt
