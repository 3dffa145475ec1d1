import BoltWire.Widths
import BoltWire.Value

/-!
# The writer is canonical

* `Least a e`        `a` is no longer than `e`, and as long only if it is `e`;
* `encode_least`     a call writes the least encoding of what it is given;
* `Spells calls e`   `e` is made of encodings of the calls, of any width;
* `readValue_spells` what is read as a tree spells its calls;
* `writes_least`     so what can be read can be written, in no more bytes.
-/

set_option linter.unusedSectionVars false

namespace Bolt
open Rust Rust.Call PackStreamReader

def Least (a e : Bytes) : Prop := a.length ≤ e.length ∧ (a.length = e.length → e = a)

theorem Least.append {a a' e e' : Bytes} (h : Least a e) (h' : Least a' e') :
    Least (a ++ a') (e ++ e') := by
  obtain ⟨hle, heq⟩ := h
  obtain ⟨hle', heq'⟩ := h'
  simp only [Least, List.length_append]
  refine ⟨Nat.add_le_add hle hle', fun hlen => ?_⟩
  rw [heq (by omega), heq' (by omega)]

section
variable [BytesCrate]

/-! ## calls -/

theorem Encodes.raw {c : WriteCall} {enc : Bytes} (h : Encodes c.op c.val enc) :
    Frame c.op c.raw enc := by
  cases c with
  | string s =>
    cases h with
    | plain hop => exact absurd rfl hop
    | string hframe => exact hframe
  | _ =>
    cases h with
    | plain _ hframe => exact hframe

/-- what has an encoding is not too long -/
theorem Encodes.fits {c : WriteCall} {enc : Bytes} (h : Encodes c.op c.val enc) : ¬ c.TooLong := by
  have hframe := h.raw
  cases c with
  | string s =>
    cases hframe with
    | string hsized => exact Nat.not_lt.mpr (Nat.le_pred_of_lt hsized.lt)
  | bytes b =>
    cases hframe with
    | bytes hsized => exact Nat.not_lt.mpr (Nat.le_pred_of_lt hsized.lt)
  | structHeader tag numFields =>
    cases hframe with
    | structHeader _ hsized =>
      show ¬ 65535 < numFields.toNat
      cases hsized with
      | four hform => cases hform
      | _ => omega
  | _ => exact id

theorem encodes_encode {c : WriteCall} (h : ¬ c.TooLong) : Encodes c.op c.val c.encode := by
  have hrun := (call_code h).2.2 []
  obtain ⟨enc, henc, heq⟩ := (run_accepts c.op_typed _ _ _).mp hrun
  rw [List.append_nil, List.append_nil] at heq
  rwa [heq]

theorem encode_least {c : WriteCall} {enc : Bytes} (h : Encodes c.op c.val enc) :
    Least c.encode enc := by
  have hown := (encodes_encode h.fits).raw
  have hwidth := encode_width h.fits
  refine ⟨?_, fun hlen => (hown.unique h.raw hlen).symm⟩
  rw [hwidth]
  exact h.raw.width_le

theorem exists_call {op : ReadOp} {v : ReadVal} {enc : Bytes} (h : Encodes op v enc) :
    ∃ c : WriteCall, c.op = op ∧ c.val = v := by
  cases h with
  | @string s => exact ⟨.string s, rfl, rfl⟩
  | plain hop hframe =>
    cases hframe with
    | null => exact ⟨.null, rfl, rfl⟩
    | false => exact ⟨.bool false, rfl, rfl⟩
    | true => exact ⟨.bool true, rfl, rfl⟩
    | @tinyInt v | @int v => exact ⟨.int v, rfl, rfl⟩
    | float bits => exact ⟨.float bits, rfl, rfl⟩
    | string => exact absurd rfl hop
    | @bytes payload => exact ⟨.bytes payload, rfl, rfl⟩
    | @listHeader n => exact ⟨.listHeader n, rfl, rfl⟩
    | @mapHeader n => exact ⟨.mapHeader n, rfl, rfl⟩
    | @structHeader tag n => exact ⟨.structHeader tag n, rfl, rfl⟩

/-! ## sequences of calls -/

inductive Spells : List WriteCall → Bytes → Prop where
  | nil : Spells [] []
  | cons {c : WriteCall} {calls : List WriteCall} {enc rest : Bytes} (head : Encodes c.op c.val enc)
      (tail : Spells calls rest) : Spells (c :: calls) (enc ++ rest)

theorem Spells.append {calls calls' : List WriteCall} {enc enc' : Bytes} (h : Spells calls enc)
    (h' : Spells calls' enc') : Spells (calls ++ calls') (enc ++ enc') := by
  induction h with
  | nil => exact h'
  | cons head tail ih =>
    rw [List.cons_append, List.append_assoc]
    exact .cons head ih

theorem Spells.single {c : WriteCall} {enc : Bytes} (h : Encodes c.op c.val enc) : Spells [c] enc := by
  have hone := Spells.cons h .nil
  rwa [List.append_nil] at hone

theorem Spells.fits {calls : List WriteCall} {enc : Bytes} (h : Spells calls enc) :
    ∀ c ∈ calls, ¬ c.TooLong := by
  induction h with
  | nil => exact fun _ hc => absurd hc List.not_mem_nil
  | cons head tail ih => exact List.forall_mem_cons.mpr ⟨head.fits, ih⟩

theorem Spells.least {calls : List WriteCall} {enc : Bytes} (h : Spells calls enc) :
    Least (calls.flatMap WriteCall.encode) enc := by
  induction h with
  | nil => exact ⟨Nat.le_refl _, fun _ => rfl⟩
  | cons head tail ih =>
    rw [List.flatMap_cons]
    exact (encode_least head).append ih

/-! ## trees -/

theorem gather_spells {γ : Type} {x : Reader Bytes γ} {f : γ → List WriteCall} {Q : γ → Prop}
    (hx : ∀ data a rest, x data = (.ok a, rest) → Q a ∧ ∃ enc, Spells (f a) enc ∧ data = enc ++ rest)
    (n : Nat) : ∀ {data as rest}, gather x n data = (.ok as, rest) →
    as.length = n ∧ (∀ a ∈ as, Q a) ∧ ∃ enc, Spells (as.flatMap f) enc ∧ data = enc ++ rest := by
  induction n with
  | zero =>
    intro data as rest h
    cases h
    exact ⟨rfl, fun _ ha => absurd ha List.not_mem_nil, [], .nil, rfl⟩
  | succ n ih =>
    intro data as rest h
    obtain ⟨a, mid, ha, h⟩ := ok_of_bind h
    obtain ⟨as, mid', has, h⟩ := ok_of_bind h
    cases h
    obtain ⟨hQ, enc, henc, rfl⟩ := hx _ a mid ha
    obtain ⟨hlen, hall, encs, hencs, rfl⟩ := ih has
    refine ⟨congrArg _ hlen, List.forall_mem_cons.mpr ⟨hQ, hall⟩, enc ++ encs, ?_, ?_⟩
    · rw [List.flatMap_cons]
      exact henc.append hencs
    · rw [List.append_assoc]

/-- a typed read of a tree is a call of its own -/
theorem run_spells {c : WriteCall} {data rest : Bytes} (h : c.op.run data = (.ok c.val, rest)) :
    ∃ enc, Spells [c] enc ∧ data = enc ++ rest := by
  obtain ⟨enc, henc, rfl⟩ := (run_accepts c.op_typed _ _ _).mp h
  exact ⟨enc, .single henc, rfl⟩

theorem readNext_ok {α : Type} {f : Marker → Reader Bytes α} {data rest : Bytes} {a : α}
    (h : readNext f data = (.ok a, rest)) : ∃ m, f m data = (.ok a, rest) := by
  cases data with
  | nil => cases h
  | cons b tail =>
    have hpeek : (peek : Reader Bytes (Option UInt8)) (b :: tail) = (.ok (some b), b :: tail) := rfl
    rw [readNext, bind_ok hpeek] at h
    cases hb : Marker.fromByte b with
    | error e =>
      simp only [hb] at h
      cases h
    | ok m =>
      simp only [hb] at h
      exact ⟨m, h⟩

/-- a key and its value -/
theorem entry_spells {child : Reader Bytes Value}
    (hchild : ∀ data v rest, child data = (.ok v, rest) →
      v.Fits ∧ ∃ enc, Spells v.calls enc ∧ data = enc ++ rest)
    {data rest : Bytes} {e : PackStreamString × Value}
    (h : (do
      let key ← readString
      let v ← child
      pure (key, v) : Reader Bytes (PackStreamString × Value)) data = (.ok e, rest)) :
    (e.1.bytes.length ≤ 2 ^ 32 - 1 ∧ e.2.Fits) ∧
      ∃ enc, Spells (.string e.1 :: e.2.calls) enc ∧ data = enc ++ rest := by
  obtain ⟨key, mid, hread, h⟩ := ok_of_bind h
  obtain ⟨v, mid', hv, h⟩ := ok_of_bind h
  cases h
  obtain ⟨enc, henc, rfl⟩ := run_spells (c := .string key) (bind_ok hread _)
  obtain ⟨hfit, encs, hencs, rfl⟩ := hchild _ v _ hv
  refine ⟨⟨Nat.not_lt.mp (henc.fits _ List.mem_cons_self), hfit⟩, enc ++ encs, ?_, ?_⟩
  · exact henc.append hencs
  · rw [List.append_assoc]

theorem readTree_spells {child : Reader Bytes Value}
    (hchild : ∀ data v rest, child data = (.ok v, rest) →
      v.Fits ∧ ∃ enc, Spells v.calls enc ∧ data = enc ++ rest)
    {op : ReadOp} {data rest : Bytes} {v : Value} (h : readTree child op data = (.ok v, rest)) :
    v.Fits ∧ ∃ enc, Spells v.calls enc ∧ data = enc ++ rest := by
  cases op with
  | null =>
    obtain ⟨a, mid, hread, h⟩ := ok_of_bind h
    cases h
    exact ⟨trivial, run_spells (c := .null) (bind_ok hread _)⟩
  | bool =>
    obtain ⟨value, mid, hread, h⟩ := ok_of_bind h
    cases h
    exact ⟨trivial, run_spells (c := .bool value) (bind_ok hread _)⟩
  | int =>
    obtain ⟨value, mid, hread, h⟩ := ok_of_bind h
    cases h
    exact ⟨trivial, run_spells (c := .int value) (bind_ok hread _)⟩
  | float =>
    obtain ⟨bits, mid, hread, h⟩ := ok_of_bind h
    cases h
    exact ⟨trivial, run_spells (c := .float bits) (bind_ok hread _)⟩
  | string =>
    obtain ⟨s, mid, hread, h⟩ := ok_of_bind h
    cases h
    obtain ⟨enc, henc, rfl⟩ := run_spells (c := .string s) (bind_ok hread _)
    exact ⟨Nat.not_lt.mp (henc.fits _ List.mem_cons_self), enc, henc, rfl⟩
  | bytes =>
    obtain ⟨b, mid, hread, h⟩ := ok_of_bind h
    cases h
    obtain ⟨enc, henc, rfl⟩ := run_spells (c := .bytes b) (bind_ok hread _)
    exact ⟨Nat.not_lt.mp (henc.fits _ List.mem_cons_self), enc, henc, rfl⟩
  | listHeader =>
    obtain ⟨size, mid, hread, h⟩ := ok_of_bind h
    obtain ⟨items, mid', hitems, h⟩ := ok_of_bind h
    cases h
    obtain ⟨enc, henc, rfl⟩ := run_spells (c := .listHeader size) (bind_ok hread _)
    obtain ⟨hlen, hfit, encs, hencs, rfl⟩ := gather_spells hchild _ hitems
    have hsize : UInt32.ofNat items.length = size := by rw [hlen, UInt32.ofNat_toNat]
    refine ⟨⟨?_, (Value.itemsFit_iff items).mpr hfit⟩, enc ++ encs, ?_, ?_⟩
    · rw [hlen]
      exact Nat.le_pred_of_lt size.toNat_lt
    · rw [Value.calls, Value.itemsCalls_eq, hsize]
      exact henc.append hencs
    · rw [List.append_assoc]
  | mapHeader =>
    obtain ⟨size, mid, hread, h⟩ := ok_of_bind h
    obtain ⟨entries, mid', hentries, h⟩ := ok_of_bind h
    cases h
    obtain ⟨enc, henc, rfl⟩ := run_spells (c := .mapHeader size) (bind_ok hread _)
    obtain ⟨hlen, hfit, encs, hencs, rfl⟩ := gather_spells
      (f := fun e : PackStreamString × Value => .string e.1 :: e.2.calls)
      (Q := fun e => e.1.bytes.length ≤ 2 ^ 32 - 1 ∧ e.2.Fits)
      (fun data e rest he => entry_spells hchild he) _ hentries
    have hsize : UInt32.ofNat entries.length = size := by rw [hlen, UInt32.ofNat_toNat]
    refine ⟨⟨?_, (Value.entriesFit_iff entries).mpr hfit⟩, enc ++ encs, ?_, ?_⟩
    · rw [hlen]
      exact Nat.le_pred_of_lt size.toNat_lt
    · rw [Value.calls, Value.entriesCalls_eq, hsize]
      exact henc.append hencs
    · rw [List.append_assoc]
  | structHeader =>
    obtain ⟨⟨tag, numFields⟩, mid, hread, h⟩ := ok_of_bind h
    obtain ⟨fields, mid', hfields, h⟩ := ok_of_bind h
    cases h
    obtain ⟨enc, henc, rfl⟩ := run_spells (c := .structHeader tag numFields) (bind_ok hread _)
    obtain ⟨hlen, hfit, encs, hencs, rfl⟩ := gather_spells hchild _ hfields
    have hsize : UInt32.ofNat fields.length = numFields := by rw [hlen, UInt32.ofNat_toNat]
    refine ⟨⟨?_, (Value.itemsFit_iff fields).mpr hfit⟩, enc ++ encs, ?_, ?_⟩
    · rw [hlen]
      exact Nat.not_lt.mp (henc.fits _ List.mem_cons_self)
    · rw [Value.calls, Value.itemsCalls_eq, hsize]
      exact henc.append hencs
    · rw [List.append_assoc]
  | peek | remaining | skip => cases h

theorem readValue_spells (depth : Nat) : ∀ {data v rest}, readValue depth data = (.ok v, rest) →
    v.Fits ∧ ∃ enc, Spells v.calls enc ∧ data = enc ++ rest := by
  induction depth with
  | zero => intro data v rest h; cases h
  | succ depth ih =>
    intro data v rest h
    obtain ⟨m, h⟩ := readNext_ok h
    exact readTree_spells (fun data v rest => ih) h

/-! ## any sequence of typed reads -/

theorem session_spells (ops : List ReadOp) : ∀ {data : Bytes} {vs : List ReadVal},
    (∀ op ∈ ops, op.Typed) → (session ops data).1.map Prod.fst = vs.map .ok →
    ∃ calls enc, calls.map WriteCall.op = ops ∧ calls.map WriteCall.val = vs ∧ Spells calls enc ∧
      data = enc ++ (session ops data).2 := by
  induction ops with
  | nil =>
    intro data vs _ h
    obtain rfl := List.map_eq_nil_iff.mp h.symm
    exact ⟨[], [], rfl, rfl, .nil, rfl⟩
  | cons op ops ih =>
    intro data vs htyped h
    obtain ⟨hop, hops⟩ := List.forall_mem_cons.mp htyped
    cases vs with
    | nil => cases h
    | cons v vs =>
      have hhead : (op.run data).1 = .ok v := (List.cons.inj h).1
      have htail : (session ops (op.run data).2).1.map Prod.fst = vs.map .ok := (List.cons.inj h).2
      obtain ⟨enc, henc, heq⟩ := (run_accepts hop data v _).mp (Prod.ext hhead rfl)
      obtain ⟨c, rfl, rfl⟩ := exists_call henc
      obtain ⟨calls, encs, rfl, rfl, hspells, heqs⟩ := ih hops htail
      refine ⟨c :: calls, enc ++ encs, rfl, rfl, .cons henc hspells, ?_⟩
      rw [List.append_assoc]
      exact heq.trans (congrArg (enc ++ ·) heqs)

theorem spells_writes {calls : List WriteCall} {enc : Bytes} (h : Spells calls enc) :
    (∀ r ∈ (writes calls []).1, r = .ok ()) ∧ Least (writes calls []).2 enc := by
  rw [writes_run, List.nil_append]
  refine ⟨fun r hr => ?_, h.least⟩
  obtain ⟨c, hc, rfl⟩ := List.mem_map.mp hr
  rw [if_neg (h.fits c hc)]

/-- **What can be read can be written**, with no panic, read back as the same, and in no more bytes:
a tree, or any sequence of typed reads that leaves nothing.  Of all encodings of a value the writer's
is the one that is shortest, and what the writer refuses has none. -/
theorem writes_least :
    (∀ depth e v, readValue depth e = (.ok v, []) →
      (∀ r ∈ (writes v.calls []).1, r = .ok ()) ∧
      (∀ d, v.calls.length ≤ d → readValue d (writes v.calls []).2 = (.ok v, [])) ∧
      (writes v.calls []).2.length ≤ e.length ∧
      ((writes v.calls []).2.length = e.length → e = (writes v.calls []).2)) ∧
    (∀ (ops : List ReadOp) (e : Bytes) (vs : List ReadVal), (∀ op ∈ ops, op.Typed) →
      (session ops e).1.map Prod.fst = vs.map .ok → (session ops e).2 = [] →
      ∃ calls : List WriteCall, calls.map WriteCall.op = ops ∧ calls.map WriteCall.val = vs ∧
        (∀ r ∈ (writes calls []).1, r = .ok ()) ∧
        (session ops (writes calls []).2).1.map Prod.fst = vs.map .ok ∧
        (session ops (writes calls []).2).2 = [] ∧
        (writes calls []).2.length ≤ e.length ∧
        ((writes calls []).2.length = e.length → e = (writes calls []).2)) ∧
    (∀ c : WriteCall, ¬ c.TooLong →
      (∀ buf, c.run buf = (.ok (), buf ++ c.encode)) ∧ Encodes c.op c.val c.encode ∧
      ∀ e, Encodes c.op c.val e →
        c.encode.length ≤ e.length ∧ (c.encode.length = e.length → e = c.encode)) ∧
    (∀ c : WriteCall, c.TooLong → ¬ ∃ e, Encodes c.op c.val e) := by
  refine ⟨fun depth e v h => ?_, fun ops e vs htyped hvals hrest => ?_, fun c hc => ?_, ?_⟩
  · obtain ⟨hfit, enc, henc, heq⟩ := readValue_spells depth h
    rw [List.append_nil] at heq
    subst heq
    obtain ⟨hok, hleast⟩ := spells_writes henc
    refine ⟨hok, fun d hd => ?_, hleast⟩
    have htakes := readValue_takes hd hfit []
    rw [List.append_nil] at htakes
    rw [writes_run, List.nil_append]
    exact htakes
  · obtain ⟨calls, enc, rfl, rfl, henc, heq⟩ := session_spells ops htyped hvals
    rw [hrest, List.append_nil] at heq
    subst heq
    obtain ⟨hok, hleast⟩ := spells_writes henc
    have hreads := session_reads calls henc.fits []
    rw [List.append_nil] at hreads
    refine ⟨calls, rfl, rfl, hok, ?_, ?_, hleast⟩
    · rw [writes_run, List.nil_append, hreads.1, List.map_map]
      rfl
    · rw [writes_run, List.nil_append, hreads.2]
  · refine ⟨fun buf => ?_, encodes_encode hc, fun e he => encode_least he⟩
    rw [call_run, if_neg hc]
  · rintro c hc ⟨e, he⟩
    exact he.fits hc

end

/-- a list of two numbers, each wider than it need be -/
theorem writes_least_list :
    letI := BytesCrate.copying
    (writes (Value.list [.int 1, .int 300]).calls []).2.length
      ≤ ([0xD4, 2, 0xC9, 0, 1, 0xCA, 0, 0, 1, 44] : Bytes).length := by
  let _ := BytesCrate.copying
  exact (writes_least.1 3 [0xD4, 2, 0xC9, 0, 1, 0xCA, 0, 0, 1, 44] (.list [.int 1, .int 300])
    rfl).2.2.1

end Bolt
