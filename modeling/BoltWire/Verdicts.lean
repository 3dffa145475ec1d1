import BoltWire.Languages
import BoltWire.Safety
import BoltWire.Truncation

/-!
# What each typed read says

* `Marker.raw`       what follows a marker, up to the check of a string;
* `frame_cases`      the three ways of a read before that check;
* `ReadOp.Begins`    some encoding of the type begins with the byte;
* `run_eof_iff`, `run_invalidMarker_iff`, `run_invalidUtf8_iff`   the three errors;
* `typed_reads`      the verdicts of the nine reads, and how they go with `skipValue`.
-/

set_option linter.unusedSectionVars false

namespace Bolt
open Rust Rust.Call BigEndian PackStreamReader

section
variable [BytesCrate] {op : ReadOp} {data : Bytes}

def Marker.raw (m : Marker) : Reader Bytes ReadVal :=
  match m with
  | .tinyString _ | .string8 | .string16 | .string32 => do
    let len ← stringLen m
    let payload ← readExactBytes len
    pure (.bytes payload)
  | _ => m.body

theorem frame_run (h : op.Typed) :
    op.frame = readMarker >>= fun m => if m.op = op then m.raw else rejectMarker m := by
  by_cases hop : op = .string
  · subst hop
    refine readMarker_bind_bind fun m => ?_
    cases m with
    | tinyString | string8 | string16 | string32 => exact bind_assoc_run _ _ _
    | _ => exact rejectMarker_bind_bind _ _ _
  · rw [frame_plain hop, typed_run h]
    refine congrArg (readMarker >>= ·) (funext fun m => ?_)
    by_cases hm : m.op = op
    · rw [if_pos hm, if_pos hm]
      subst hm
      cases m with
      | tinyString | string8 | string16 | string32 => exact absurd rfl hop
      | _ => rfl
    · rw [if_neg hm, if_neg hm]

theorem raw_hungry (m : Marker) : Hungry .unexpectedEof (4 + 2 ^ 32) m.raw := by
  have hlen : ∀ {x : Reader Bytes Nat}, Hungry .unexpectedEof 4 x →
      (∀ n, Gives x n → n < 2 ^ 32) →
      Hungry .unexpectedEof (4 + 2 ^ 32) (x >>= fun len => readExactBytes len >>= fun payload =>
        pure (ReadVal.bytes payload)) := fun hx hsmall =>
    hx.bind fun n hn => ((readExactBytes_hungry n).map _).mono (hsmall n hn).le
  cases m with
  | null | true | false | tinyInt => exact (Hungry.pure _).mono (by decide)
  | int8 | int16 | int32 | int64 | float64 => exact ((readBe_hungry _ _).map _).mono (by decide)
  | tinyString | string8 | string16 | string32 | bytes8 | bytes16 | bytes32 =>
    refine hlen (sizeLen_hungry id ?_) fun n hn => ?_
    · simp
    · obtain ⟨n, hlt, rfl⟩ := sizeLen_small hn
      exact hlt
  | tinyList | list8 | list16 | list32 | tinyMap | map8 | map16 | map32 =>
    refine ((sizeLen_hungry UInt32.ofNat ?_).map ReadVal.count).mono (by decide)
    simp
  | tinyStruct | struct8 | struct16 =>
    refine ((sizeLen_hungry UInt32.ofNat ?_).bind (k := 1) fun n _ => ?_).mono (by decide)
    · simp
    · exact (readBe_hungry 1 UInt8.ofNat).map _

theorem rejectMarker_fails {α : Type} (m : Marker) :
    (rejectMarker m : Reader Bytes α) = panic ∨
      ∃ b, (rejectMarker m : Reader Bytes α) = err (.invalidMarker b) := by
  unfold rejectMarker Marker.byte
  cases m.toByte with
  | error e => exact .inl rfl
  | ok b => exact .inr ⟨b, rfl⟩

theorem frame_online (h : op.Typed) : Online .unexpectedEof op.frame := by
  rw [frame_run h]
  refine marked_online fun m => Online.ite (fun _ => (raw_hungry m).online) fun _ => ?_
  rcases rejectMarker_fails (α := ReadVal) m with hm | ⟨b, hm⟩
  · rw [hm]
    exact fun data => .inl ⟨[], .panic, List.nil_prefix, nofun, fun rest => rfl⟩
  · rw [hm]
    exact Online.err _

theorem frame_viable (h : op.Typed) : Viable .unexpectedEof (1 + (4 + 2 ^ 32)) op.frame := by
  obtain ⟨m₀, hknown, hop⟩ : ∃ m : Marker, m.Known ∧ m.op = op := by
    cases op with
    | null => exact ⟨.null, ⟨_, rfl⟩, rfl⟩
    | bool => exact ⟨.true, ⟨_, rfl⟩, rfl⟩
    | int => exact ⟨.int8, ⟨_, rfl⟩, rfl⟩
    | float => exact ⟨.float64, ⟨_, rfl⟩, rfl⟩
    | string => exact ⟨.string8, ⟨_, rfl⟩, rfl⟩
    | bytes => exact ⟨.bytes8, ⟨_, rfl⟩, rfl⟩
    | listHeader => exact ⟨.list8, ⟨_, rfl⟩, rfl⟩
    | mapHeader => exact ⟨.map8, ⟨_, rfl⟩, rfl⟩
    | structHeader => exact ⟨.struct8, ⟨_, rfl⟩, rfl⟩
    | peek | remaining | skip => exact h.elim
  rw [frame_run h]
  refine marked_viable hknown ?_ fun m => ?_
  · rw [if_pos hop]
    exact raw_hungry m₀
  · by_cases hm : m.op = op
    · rw [if_pos hm]
      exact .inl (raw_hungry m)
    · rw [if_neg hm]
      right
      intro data
      rcases rejectMarker_fails (α := ReadVal) m with hr | ⟨b, hr⟩ <;>
      · rw [hr]
        exact nofun

theorem frame_eof_iff (h : op.Typed) (data : Bytes) : (op.frame data).1 = .err .unexpectedEof ↔
    ∃ v enc, Frame op v enc ∧ data <+: enc ∧ data ≠ enc :=
  (frame_accepts h).short_iff (frame_online h) (frame_viable h) data

theorem frame_cases (h : op.Typed) (data : Bytes) :
    (∃ v rest, op.frame data = (.ok v, rest)) ∨
    (op.frame data).1 = .err .unexpectedEof ∨
    ∃ b rest, data = b :: rest ∧ op.frame data = (.err (.invalidMarker b), rest) ∧
      ∀ m, Marker.fromByte b = .ok m → m.op ≠ op := by
  rw [frame_run h]
  cases data with
  | nil => exact .inr (.inl (congrArg Prod.fst (bind_err readMarker_nil _)))
  | cons b rest =>
    cases hb : Marker.fromByte b with
    | error e =>
      refine .inr (.inr ⟨b, rest, rfl, bind_err (readMarker_bad hb rest) _, fun m hm => ?_⟩)
      rw [hb] at hm
      cases hm
    | ok m =>
      rw [bind_ok (readMarker_good hb rest)]
      by_cases hm : m.op = op
      · rw [if_pos hm]
        rcases (raw_hungry m).ends rest with ⟨v, hv⟩ | hmore
        · exact .inl ⟨v, _, Prod.ext hv rfl⟩
        · exact .inr (.inl hmore)
      · rw [if_neg hm]
        refine .inr (.inr ⟨b, rest, rfl, bind_ok (byte_run (toByte_of_fromByte hb) rest) _, ?_⟩)
        intro m' hm'
        obtain rfl := Except.ok.inj (hb.symm.trans hm')
        exact hm

/-! ## the first byte -/

def ReadOp.Begins (op : ReadOp) (b : UInt8) : Prop := ∃ v enc, Frame op v (b :: enc)

theorem frame_nil (h : op.Typed) : op.frame [] = (.err .unexpectedEof, []) := by
  rw [frame_run h]
  exact bind_err readMarker_nil _

theorem begins_iff (h : op.Typed) {b : UInt8} :
    op.Begins b ↔ ∃ m, Marker.fromByte b = .ok m ∧ m.op = op := by
  constructor
  · rintro ⟨v, enc, hframe⟩
    have hrun := (frame_accepts h).takes hframe []
    rw [frame_run h] at hrun
    obtain ⟨m, mid, hm, hbody⟩ := ok_of_bind hrun
    obtain ⟨_, ⟨b', hb', rfl⟩, henc⟩ := (readMarker_accepts _ _ _).mp hm
    obtain ⟨rfl, -⟩ := List.cons.inj henc
    refine ⟨m, fromByte_of_toByte hb', ?_⟩
    by_contra hop
    rw [if_neg hop] at hbody
    rcases rejectMarker_fails (α := ReadVal) m with hr | ⟨c, hr⟩ <;>
    · rw [hr] at hbody
      cases hbody
  · rintro ⟨m, hm, hop⟩
    rcases frame_cases h [b] with ⟨v, rest, hrun⟩ | hmore | ⟨b', rest, heq, -, hother⟩
    · obtain ⟨enc, hframe, heq⟩ := (frame_accepts h _ _ _).mp hrun
      cases enc with
      | nil =>
        have hnil := (frame_accepts h).takes hframe []
        rw [List.append_nil, frame_nil h] at hnil
        cases hnil
      | cons c enc =>
        obtain ⟨rfl, -⟩ := List.cons.inj heq
        exact ⟨v, enc, hframe⟩
    · obtain ⟨v, enc, hframe, ⟨t, rfl⟩, -⟩ := (frame_eof_iff h [b]).mp hmore
      exact ⟨v, t, hframe⟩
    · obtain ⟨rfl, -⟩ := List.cons.inj heq
      exact absurd hop (hother m hm)

/-! ## the check of a string -/

def ReadOp.check : ReadOp → ReadVal → Reader Bytes ReadVal
  | .string, .bytes payload => do
    let s ← okOr (PackStreamString.tryFrom payload) .invalidUtf8
    pure (.string s)
  | _, v => pure v

theorem run_check (h : op.Typed) : (op.run : Reader Bytes ReadVal) = op.frame >>= op.check := by
  cases op with
  | string =>
    show (readString >>= fun s => pure (ReadVal.string s)) = _
    rw [readString_eq, ReadOp.frame, bind_assoc_run, bind_assoc_run]
    rfl
  | peek | remaining | skip => exact h.elim
  | _ => exact (bind_pure_run _).symm

/-- the check says nothing but that a string is none -/
theorem check_cases (op : ReadOp) (v : ReadVal) (data : Bytes) :
    (∃ v', op.check v data = (.ok v', data)) ∨ op = .string ∧ ∃ payload, v = .bytes payload ∧
      ¬ IsUtf8 payload ∧ op.check v data = (.err .invalidUtf8, data) := by
  by_cases hop : op = .string ∧ ∃ payload, v = .bytes payload
  · obtain ⟨rfl, payload, rfl⟩ := hop
    by_cases hu : IsUtf8 payload
    · left
      refine ⟨.string ⟨payload, hu⟩, ?_⟩
      rw [ReadOp.check, PackStreamString.tryFrom, dif_pos hu]
      rfl
    · right
      refine ⟨rfl, payload, rfl, hu, ?_⟩
      rw [ReadOp.check, PackStreamString.tryFrom, dif_neg hu]
      rfl
  · left
    refine ⟨v, ?_⟩
    cases op with
    | string =>
      cases v with
      | bytes payload => exact absurd ⟨rfl, payload, rfl⟩ hop
      | _ => rfl
    | _ => rfl

/-! ## verdicts -/

/-- a complete string that is not UTF-8 -/
def BadString (data : Bytes) : Prop :=
  ∃ payload enc, Frame .string (.bytes payload) enc ∧ enc <+: data ∧ ¬ IsUtf8 payload

/-- **Every read ends in one of four ways**, and each has its own reason. -/
theorem run_cases (h : op.Typed) (data : Bytes) :
    (∃ v, (op.run data).1 = .ok v ∧ ∃ enc, Encodes op v enc ∧ enc <+: data) ∨
    ((op.run data).1 = .err .unexpectedEof ∧ ∃ v enc, Frame op v enc ∧ data <+: enc ∧ data ≠ enc) ∨
    (∃ b, (op.run data).1 = .err (.invalidMarker b) ∧ data.head? = some b ∧ ¬ op.Begins b) ∨
    ((op.run data).1 = .err .invalidUtf8 ∧ op = .string ∧ BadString data) := by
  rw [run_check h]
  rcases frame_cases h data with ⟨v, rest, hrun⟩ | hmore | ⟨b, rest, rfl, hrun, hother⟩
  · obtain ⟨enc, hframe, rfl⟩ := (frame_accepts h _ _ _).mp hrun
    rcases check_cases op v rest with ⟨v', hv'⟩ | ⟨rfl, payload, rfl, hu, herr⟩
    · have hok : (op.run (enc ++ rest) : Res PackStreamError ReadVal × Bytes) = (.ok v', rest) := by
        rw [run_check h, bind_ok hrun, hv']
      obtain ⟨enc', henc', heq⟩ := (run_accepts h _ _ _).mp hok
      rw [← run_check h, hok]
      exact .inl ⟨v', rfl, enc', henc', heq ▸ List.prefix_append enc' rest⟩
    · right; right; right
      rw [bind_ok hrun, herr]
      exact ⟨rfl, rfl, payload, enc, hframe, List.prefix_append enc rest, hu⟩
  · right; left
    exact ⟨bind_fails hmore _, (frame_eof_iff h data).mp hmore⟩
  · right; right; left
    rw [bind_err hrun]
    refine ⟨b, rfl, rfl, fun hbegins => ?_⟩
    obtain ⟨m, hm, hop⟩ := (begins_iff h).mp hbegins
    exact hother m hm hop

/-- a word of the format begins with a byte of the type -/
theorem Frame.begins (h : op.Typed) {v : ReadVal} {enc : Bytes} (hf : Frame op v enc) :
    ∃ b tail, enc = b :: tail ∧ op.Begins b := by
  cases enc with
  | nil =>
    have hnil := (frame_accepts h).takes hf []
    rw [List.append_nil, frame_nil h] at hnil
    cases hnil
  | cons b tail => exact ⟨b, tail, rfl, v, tail, hf⟩

theorem Encodes.frame {v : ReadVal} {enc : Bytes} (h : Encodes op v enc) : ∃ v', Frame op v' enc := by
  cases h with
  | plain hop hf => exact ⟨v, hf⟩
  | string hf => exact ⟨_, hf⟩

theorem run_eof_iff (h : op.Typed) : (op.run data).1 = .err .unexpectedEof ↔
    ∃ v enc, Frame op v enc ∧ data <+: enc ∧ data ≠ enc := by
  constructor
  · intro hrun
    rcases run_cases h data with ⟨v, hv, -⟩ | ⟨-, hshort⟩ | ⟨b, hb, -⟩ | ⟨hu, -⟩
    · rw [hrun] at hv
      cases hv
    · exact hshort
    · rw [hrun] at hb
      cases hb
    · rw [hrun] at hu
      cases hu
  · intro hshort
    rw [run_check h]
    exact bind_fails ((frame_eof_iff h data).mpr hshort) _

theorem head_begins (h : op.Typed) {v : ReadVal} {enc : Bytes} (hf : Frame op v enc) {b : UInt8}
    (hb : data.head? = some b) (hpre : enc <+: data ∨ data <+: enc) : op.Begins b := by
  obtain ⟨c, tail, rfl, hc⟩ := Frame.begins h hf
  cases data with
  | nil => cases hb
  | cons d tail' =>
    obtain rfl := Option.some.inj hb
    rcases hpre with ⟨t, ht⟩ | ⟨t, ht⟩
    · obtain ⟨rfl, -⟩ := List.cons.inj ht
      exact hc
    · obtain ⟨rfl, -⟩ := List.cons.inj ht
      exact hc

theorem run_invalidMarker_iff (h : op.Typed) (b : UInt8) :
    (op.run data).1 = .err (.invalidMarker b) ↔ data.head? = some b ∧ ¬ op.Begins b := by
  constructor
  · intro hrun
    rcases run_cases h data with ⟨v, hv, -⟩ | ⟨he, -⟩ | ⟨b', hb', hhead, hbegins⟩ | ⟨hu, -⟩
    · rw [hrun] at hv
      cases hv
    · rw [hrun] at he
      cases he
    · rw [hrun] at hb'
      cases hb'
      exact ⟨hhead, hbegins⟩
    · rw [hrun] at hu
      cases hu
  · rintro ⟨hhead, hbegins⟩
    rcases run_cases h data with ⟨v, -, enc, henc, hpre⟩ | ⟨-, v, enc, hf, hpre, -⟩ |
      ⟨b', hb', hhead', -⟩ | ⟨-, rfl, payload, enc, hf, hpre, -⟩
    · obtain ⟨v', hf⟩ := henc.frame
      exact absurd (head_begins h hf hhead (.inl hpre)) hbegins
    · exact absurd (head_begins h hf hhead (.inr hpre)) hbegins
    · obtain rfl := Option.some.inj (hhead.symm.trans hhead')
      exact hb'
    · exact absurd (head_begins h hf hhead (.inl hpre)) hbegins

theorem run_invalidUtf8_iff (h : op.Typed) :
    (op.run data).1 = .err .invalidUtf8 ↔ op = .string ∧ BadString data := by
  constructor
  · intro hrun
    rcases run_cases h data with ⟨v, hv, -⟩ | ⟨he, -⟩ | ⟨b, hb, -⟩ | ⟨-, hbad⟩
    · rw [hrun] at hv
      cases hv
    · rw [hrun] at he
      cases he
    · rw [hrun] at hb
      cases hb
    · exact hbad
  · rintro ⟨rfl, payload, enc, hf, ⟨rest, rfl⟩, hu⟩
    have hframe := (frame_accepts h).takes hf rest
    rw [run_check h, bind_ok hframe, ReadOp.check, PackStreamString.tryFrom, dif_neg hu]
    rfl

/-! ## the nine reads together -/

/-- the first byte decides which read can succeed -/
theorem typed_unique {op' : ReadOp} (h : op.Typed) (h' : op'.Typed) {v v' : ReadVal}
    (hrun : (op.run data).1 = .ok v) (hrun' : (op'.run data).1 = .ok v') : op = op' := by
  obtain ⟨m, b, tail, rfl, hb, rfl, -⟩ := typed_ok h (Prod.ext hrun rfl)
  obtain ⟨m', b', tail', heq, hb', rfl, -⟩ := typed_ok h' (Prod.ext hrun' rfl)
  obtain ⟨rfl, -⟩ := List.cons.inj heq
  rw [Except.ok.inj (hb.symm.trans hb')]

theorem raw_head {m : Marker} {rest : Bytes} {v : ReadVal} (h : m.raw data = (.ok v, rest)) :
    ∃ k, markerHead m data = (.ok k, rest) := by
  cases m with
  | tinyString | string8 | string16 | string32 =>
    obtain ⟨len, mid, hlen, h⟩ := ok_of_bind h
    obtain ⟨payload, mid', hread, h⟩ := ok_of_bind h
    cases h
    exact ⟨0, (bind_ok hlen _).trans (bind_ok (skipBytes_of_readExactBytes hread) _)⟩
  | _ => exact ⟨_, body_head h⟩

/-- a value whose head is complete is not cut for the read of its type -/
theorem head_reads {k : Nat} {rest : Bytes} (hhead : valueHead data = (.ok k, rest)) :
    ∃ op : ReadOp, op.Typed ∧
      ((∃ v, (op.run data).1 = .ok v) ∨ op = .string ∧ (op.run data).1 = .err .invalidUtf8) := by
  obtain ⟨m, mid, hm, -⟩ := ok_of_bind hhead
  obtain ⟨_, ⟨b, hb, rfl⟩, rfl⟩ := (readMarker_accepts _ _ _).mp hm
  have hbegins : m.op.Begins b := (begins_iff m.op_typed).mpr ⟨m, fromByte_of_toByte hb, rfl⟩
  refine ⟨m.op, m.op_typed, ?_⟩
  rcases run_cases m.op_typed ([b] ++ mid) with ⟨v, hv, -⟩ | ⟨-, v, enc, hf, ⟨t, rfl⟩, hne⟩ |
    ⟨b', -, hb', hother⟩ | ⟨hu, hop, -⟩
  · exact .inl ⟨v, hv⟩
  · have hframe := (frame_accepts m.op_typed).takes hf []
    rw [List.append_nil, frame_run m.op_typed, List.append_assoc,
      bind_ok (readMarker_takes hb (mid ++ t)), if_pos rfl] at hframe
    obtain ⟨k', hk'⟩ := raw_head hframe
    obtain ⟨enc, henc, hreads⟩ := valueHead_online.reads hhead nofun
    have hlong := hreads (rest ++ t)
    rw [← List.append_assoc, ← henc, List.append_assoc, valueHead,
      bind_ok (readMarker_takes hb (mid ++ t)), hk'] at hlong
    have hnil : rest ++ t = [] := (congrArg Prod.snd hlong).symm
    obtain ⟨-, rfl⟩ := List.append_eq_nil_iff.mp hnil
    exact absurd (List.append_nil _).symm hne
  · obtain rfl := Option.some.inj hb'
    exact absurd hbegins hother
  · exact .inr ⟨hop, hu⟩

theorem skip_reads (hskip : (skipValue data).1 = .ok ()) :
    (∃! op : ReadOp, op.Typed ∧ ∃ v, (op.run data).1 = .ok v) ∨
      (readString data).1 = .err .invalidUtf8 := by
  have hone : countOne (bounded (2 ^ 64) .unexpectedEof) valueHead data
      = (.ok (), (skipValue data).2) := by
    rw [← skipValue_eq]
    exact Prod.ext hskip rfl
  obtain ⟨k, mid, hloop, -⟩ := ok_of_bind hone
  rw [count_next] at hloop
  obtain ⟨m, mid', hhead, -⟩ := ok_of_bind hloop
  obtain ⟨op, h, ⟨v, hv⟩ | ⟨rfl, hu⟩⟩ := head_reads hhead
  · exact .inl ⟨op, ⟨h, v, hv⟩, fun op' ⟨h', v', hv'⟩ => typed_unique h' h hv' hv⟩
  · right
    have hrun : (ReadOp.string.run : Reader Bytes ReadVal)
        = readString >>= fun s => pure (.string s) := rfl
    rw [hrun, bind_run] at hu
    rcases hs : readString data with ⟨(s | e | _ | _), rest⟩ <;> rw [hs] at hu <;> cases hu
    rfl

/-- **The typed reads accept exactly the formats.**  A read succeeds on the encodings of its type, in
any width, and takes nothing else; it blames the first byte if that begins no encoding of the
type, asks for more on a beginning of one, and complains of UTF-8 only about a complete string.  At
most one read succeeds, and one does if there is a value to skip. -/
theorem typed_reads (data : Bytes) :
    (∀ op : ReadOp, op.Typed →
      (∀ v rest, op.run data = (.ok v, rest) ↔ ∃ enc, Encodes op v enc ∧ data = enc ++ rest) ∧
      (∀ b, (op.run data).1 = .err (.invalidMarker b) ↔ data.head? = some b ∧ ¬ op.Begins b) ∧
      ((op.run data).1 = .err .unexpectedEof ↔
        ∃ v enc, Frame op v enc ∧ data <+: enc ∧ data ≠ enc) ∧
      ((op.run data).1 = .err .invalidUtf8 ↔ op = .string ∧ BadString data) ∧
      (op.run data).1.Returns) ∧
    (∀ op op' : ReadOp, op.Typed → op'.Typed → (∃ v, (op.run data).1 = .ok v) →
      (∃ v, (op'.run data).1 = .ok v) → op = op') ∧
    ((skipValue data).1 = .ok () →
      (∃! op : ReadOp, op.Typed ∧ ∃ v, (op.run data).1 = .ok v) ∨
        (readString data).1 = .err .invalidUtf8) :=
  ⟨fun op h => ⟨run_accepts h data, fun b => run_invalidMarker_iff h b, run_eof_iff h,
      run_invalidUtf8_iff h, (op_safe op data).1.returns⟩,
    fun _ _ h h' ⟨_, hv⟩ ⟨_, hv'⟩ => typed_unique h h' hv hv', skip_reads⟩

end

/-- a number that is wider than it need be, and a string that is cut before it could be found bad -/
theorem typed_reads_wide :
    letI := BytesCrate.copying
    ReadOp.int.run ([0xC9, 0xFF, 0x80, 7] : Bytes) = (.ok (.int (-128)), [7]) ∧
    (ReadOp.string.run ([0x82, 0xFF] : Bytes)).1 = .err .unexpectedEof := by
  let _ := BytesCrate.copying
  have hint := (typed_reads [0xC9, 0xFF, 0x80, 7]).1 .int trivial
  have hstring := (typed_reads [0x82, 0xFF]).1 .string trivial
  refine ⟨(hint.1 (.int (-128)) [7]).mpr ⟨[0xC9, 0xFF, 0x80], ?_, rfl⟩, hstring.2.2.1.mpr
    ⟨.bytes [0xFF, 0xFF], [0x82, 0xFF, 0xFF], ?_, ⟨[0xFF], rfl⟩, by decide⟩⟩
  · exact .plain (by decide) (.int (b := 0xC9) (w := 2) (by decide) (by decide))
  · have hheader : Sized stringForms ([0xFF, 0xFF] : Bytes).length [0x80 + UInt8.ofNat 2] :=
      .tiny rfl (by decide)
    exact .string hheader

end Bolt
