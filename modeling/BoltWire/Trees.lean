import BoltWire.Lib.Alike
import BoltWire.Lib.Settled
import BoltWire.Verdicts
import BoltWire.Canonical

/-!
# The language of trees

What a client that reads trees by their markers accepts, and how it fails, on any input.

* `Spells.row`          the parts of a tree in any widths;
* `readValue_alike`     the depth that is allowed does not matter once it exceeds the input;
* `readValue_reads`     every spelling of a tree is read as that tree;
* `readValue_settled`   more input changes nothing but a request for more;
* `readValue_fills`     which some continuation answers;
* `readValue_ends`      the reading comes back;
* `readValue_language`  the language of trees, its beginnings, and what lies outside.
-/

set_option linter.unusedSectionVars false

namespace Bolt
open Rust Rust.Call PackStreamReader

theorem Spells.cut {calls calls' : List WriteCall} {enc : Bytes} (h : Spells (calls ++ calls') enc) :
    ∃ e e', enc = e ++ e' ∧ Spells calls e ∧ Spells calls' e' := by
  induction calls generalizing enc with
  | nil => exact ⟨[], enc, rfl, .nil, h⟩
  | cons c calls ih =>
    cases h with
    | cons head tail =>
      obtain ⟨e, e', rfl, he, he'⟩ := ih tail
      exact ⟨_ ++ e, e', (List.append_assoc _ _ _).symm, .cons head he, he'⟩

theorem Spells.row {γ : Type} {f : γ → List WriteCall} {as : List γ} {enc : Bytes}
    (h : Spells (as.flatMap f) enc) : Row (fun a e => Spells (f a) e) as enc := by
  induction as generalizing enc with
  | nil =>
    cases h
    exact .nil
  | cons a as ih =>
    rw [List.flatMap_cons] at h
    obtain ⟨e, e', rfl, he, he'⟩ := h.cut
    exact .cons he (ih he')

namespace PackStreamReader
variable [BytesCrate] {α : Type}

/-! ## the byte that chooses the read -/

theorem readNext_good {b : UInt8} {m : Marker} (hb : Marker.fromByte b = .ok m)
    (f : Marker → Reader Bytes α) (tail : Bytes) : readNext f (b :: tail) = f m (b :: tail) := by
  have hpeek : (peek : Reader Bytes (Option UInt8)) (b :: tail) = (.ok (some b), b :: tail) := rfl
  rw [readNext, bind_ok hpeek]
  simp only [hb]

theorem readNext_bad {b : UInt8} {e : MarkerError} (hb : Marker.fromByte b = .error e)
    (f : Marker → Reader Bytes α) (tail : Bytes) :
    readNext f (b :: tail) = (.err (.invalidMarker b), b :: tail) := by
  have hpeek : (peek : Reader Bytes (Option UInt8)) (b :: tail) = (.ok (some b), b :: tail) := rfl
  rw [readNext, bind_ok hpeek]
  simp only [hb]
  rfl

/-! ## the depth of a tree -/

theorem sized_consumes (of : Nat → α) (tiny : Marker → Option UInt8) (m8 m16 : Marker)
    (m32 : Option Marker) :
    Consumes (readMarker >>= sizeLen of tiny m8 m16 m32 : Reader Bytes α) :=
  readMarker_consumes.bind_safe readMarker_safe fun _ h => (sizeLen_safe _ _ _ _ _ h).shrinks

theorem structHeader_consumes : Consumes (readStructHeader : Reader Bytes (UInt8 × UInt32)) :=
  readMarker_consumes.bind_safe readMarker_safe fun _ h =>
    ((sizeLen_safe _ _ _ _ _ h).bind fun _ _ => (readBe_safe 1 UInt8.ofNat).bind fun _ _ =>
      Safe.pure trivial : Safe (fun _ => True) _).shrinks

theorem readValue_shrinks (depth : Nat) : Shrinks (readValue depth : Reader Bytes Value) := by
  intro data v rest h
  obtain ⟨-, enc, -, rfl⟩ := readValue_spells depth h
  rw [List.length_append]
  exact Nat.le_add_left _ _

variable {child child' : Reader Bytes Value} {l : Nat}

theorem entry_shrinks (hs : Shrinks child) : Shrinks (do
    let key ← readString
    let v ← child
    pure (key, v)) :=
  readString_safe.shrinks.bind fun key => hs.bind fun v => Shrinks.pure (key, v)

theorem readTree_alike (h : Alike l child child') (hs : Shrinks child) (op : ReadOp) :
    Alike (l + 1) (readTree child op) (readTree child' op) := by
  cases op with
  | listHeader =>
    exact Alike.consume (sized_consumes _ _ _ _ _) fun size =>
      (h.gather hs size.toNat).bind (hs.gather _) fun _ => Alike.refl l _
  | mapHeader =>
    have hentry := (Alike.refl l readString).bind readString_safe.shrinks fun key =>
      h.bind hs fun v => Alike.refl l (pure (key, v))
    exact Alike.consume (sized_consumes _ _ _ _ _) fun size =>
      (hentry.gather (entry_shrinks hs) size.toNat).bind ((entry_shrinks hs).gather _) fun _ =>
        Alike.refl l _
  | structHeader =>
    exact Alike.consume structHeader_consumes fun header =>
      (h.gather hs header.2.toNat).bind (hs.gather _) fun _ => Alike.refl l _
  | _ => exact Alike.refl _ _

theorem readNext_alike {f g : Marker → Reader Bytes α} (h : ∀ m, Alike l (f m) (g m)) :
    Alike l (readNext f) (readNext g) := by
  intro data hl
  cases data with
  | nil => rfl
  | cons b tail =>
    cases hb : Marker.fromByte b with
    | ok m =>
      rw [readNext_good hb, readNext_good hb]
      exact h m (b :: tail) hl
    | error e => rw [readNext_bad hb, readNext_bad hb]

/-- any depth above the length of the input is as good as any larger one -/
theorem readValue_alike (depth : Nat) : ∀ {depth' : Nat}, depth ≤ depth' →
    Alike depth (readValue depth : Reader Bytes Value) (readValue depth') := by
  induction depth with
  | zero => exact fun _ data hl => absurd hl (Nat.not_lt_zero _)
  | succ depth ih =>
    intro depth' hle
    obtain ⟨depth', rfl⟩ := Nat.exists_eq_succ_of_ne_zero (Nat.ne_zero_of_lt hle)
    exact readNext_alike fun m =>
      readTree_alike (ih (Nat.le_of_succ_le_succ hle)) (readValue_shrinks depth) m.op

/-! ## every spelling is read -/

theorem reads_of_encodes {c : WriteCall} {enc : Bytes} (h : Encodes c.op c.val enc)
    {r : Reader Bytes α} {g : α → ReadVal} (hg : Function.Injective g)
    (hrun : c.op.run = r >>= fun a => pure (g a)) {a : α} (ha : g a = c.val) : Takes r enc a := by
  have htakes := (run_accepts c.op_typed).takes h
  rw [hrun, ← ha] at htakes
  exact Takes.of_map hg htakes

/-- a tree behind the encoding that chooses its reading, in any width -/
theorem next_reads {c : WriteCall} {enc tail : Bytes} (h : Encodes c.op c.val enc)
    {r : Reader Bytes α} {a : α} (hr : Takes r enc a) {f : α → Reader Bytes Value} {v : Value}
    (hf : Takes (f a) tail v) {d : Nat} (hd : readTree (readValue d) c.op = r >>= f) :
    Takes (readValue (d + 1)) (enc ++ tail) v := by
  obtain ⟨v', hframe⟩ := h.frame
  obtain ⟨b, body, rfl, hbegins⟩ := Frame.begins c.op_typed hframe
  obtain ⟨m, hm, hop⟩ := (begins_iff c.op_typed).mp hbegins
  intro rest
  show readNext (fun marker => readTree (readValue d) marker.op) (b :: (body ++ tail ++ rest)) = _
  rw [readNext_good hm, hop, hd]
  exact hr.bind hf rest

theorem leaf_reads {c : WriteCall} {enc : Bytes} (h : Spells [c] enc) {r : Reader Bytes α}
    {g : α → ReadVal} (hg : Function.Injective g) (hrun : c.op.run = r >>= fun a => pure (g a))
    {a : α} (ha : g a = c.val) (f : α → Value)
    (hd : ∀ child, readTree child c.op = r >>= fun a => pure (f a)) {depth : Nat} (h1 : 1 ≤ depth) :
    Takes (readValue depth) enc (f a) := by
  obtain ⟨d, rfl⟩ := Nat.exists_eq_add_of_le' h1
  cases h with
  | cons head tail =>
    cases tail
    exact next_reads head (reads_of_encodes head hg hrun ha) (Takes.pure (f a)) (hd (readValue d))

theorem items_reads {d : Nat} {items : List Value} {enc : Bytes}
    (ih : ∀ v ∈ items, ∀ {depth : Nat} {enc : Bytes}, v.calls.length ≤ depth → v.Fits →
      Spells v.calls enc → Takes (readValue depth) enc v)
    (hd : (Value.itemsCalls items).length ≤ d) (hfit : Value.ItemsFit items)
    (h : Spells (Value.itemsCalls items) enc) :
    Takes (gather (readValue d) items.length) enc items := by
  rw [Value.itemsCalls_eq] at hd h
  refine h.row.takes fun v hv enc henc => ih v hv ?_ ((Value.itemsFit_iff items).mp hfit v hv) henc
  exact Nat.le_trans (length_le_of_mem hv) hd

theorem entry_reads {d : Nat} {e : PackStreamString × Value} {enc : Bytes}
    (ih : ∀ {enc}, Spells e.2.calls enc → Takes (readValue d) enc e.2)
    (h : Spells (.string e.1 :: e.2.calls) enc) :
    Takes (do
      let key ← readString
      let v ← readValue d
      pure (key, v)) enc e := by
  cases h with
  | cons head tail =>
    have hkey : Takes readString _ e.1 :=
      reads_of_encodes head (fun _ _ => ReadVal.string.inj) rfl rfl
    exact hkey.bind ((ih tail).map fun v => (e.1, v))

theorem entries_reads {d : Nat} {entries : List (PackStreamString × Value)} {enc : Bytes}
    (ih : ∀ e ∈ entries, ∀ {depth : Nat} {enc : Bytes}, e.2.calls.length ≤ depth → e.2.Fits →
      Spells e.2.calls enc → Takes (readValue depth) enc e.2)
    (hd : (Value.entriesCalls entries).length ≤ d) (hfit : Value.EntriesFit entries)
    (h : Spells (Value.entriesCalls entries) enc) :
    Takes (gather (do
      let key ← readString
      let v ← readValue d
      pure (key, v)) entries.length) enc entries := by
  rw [Value.entriesCalls_eq] at hd h
  refine h.row.takes fun e he enc henc => entry_reads (fun hspells => ih e he ?_ ?_ hspells) henc
  · have hcalls := length_le_of_mem (f := fun e => .string e.1 :: Value.calls e.2) he
    exact Nat.le_trans (Nat.le_of_succ_le hcalls) hd
  · exact ((Value.entriesFit_iff entries).mp hfit e he).2

theorem header_injective : Function.Injective fun header : UInt8 × UInt32 =>
    ReadVal.header header.1 header.2 := by
  intro header header' h
  obtain ⟨htag, hfields⟩ := ReadVal.header.inj h
  exact Prod.ext htag hfields

/-- **Every spelling of a tree**, whatever the widths in it, is read as that tree. -/
theorem readValue_reads {v : Value} : ∀ {depth : Nat} {enc : Bytes}, v.calls.length ≤ depth →
    v.Fits → Spells v.calls enc → Takes (readValue depth) enc v := by
  induction v using Value.induct with
  | null =>
    exact fun hd _ h => leaf_reads h (g := fun _ => .null) (fun _ _ _ => rfl) rfl (a := ()) rfl
      (fun _ => .null) (fun _ => rfl) hd
  | bool value =>
    exact fun hd _ h => leaf_reads h (fun _ _ => ReadVal.bool.inj) rfl rfl .bool (fun _ => rfl) hd
  | int value =>
    exact fun hd _ h => leaf_reads h (fun _ _ => ReadVal.int.inj) rfl rfl .int (fun _ => rfl) hd
  | float bits =>
    exact fun hd _ h => leaf_reads h (fun _ _ => ReadVal.float.inj) rfl rfl .float (fun _ => rfl) hd
  | string s =>
    exact fun hd _ h => leaf_reads h (fun _ _ => ReadVal.string.inj) rfl rfl .string (fun _ => rfl) hd
  | bytes b =>
    exact fun hd _ h => leaf_reads h (fun _ _ => ReadVal.bytes.inj) rfl rfl .bytes (fun _ => rfl) hd
  | list items ih =>
    intro depth enc hd ⟨hlen, hfit⟩ h
    obtain ⟨d, rfl⟩ := Nat.exists_eq_add_of_le' (Nat.le_trans (Nat.le_add_left 1 _) hd)
    cases h with
    | cons head tail =>
      have hitems := items_reads ih (Nat.le_of_succ_le_succ hd) hfit tail
      have e : (UInt32.ofNat items.length).toNat = items.length :=
        UInt32.toNat_ofNat_of_lt' (Nat.lt_of_le_of_lt hlen (by decide))
      rw [← e] at hitems
      have hsize : Takes readListHeader _ (UInt32.ofNat items.length) :=
        reads_of_encodes head (fun _ _ => ReadVal.count.inj) rfl rfl
      exact next_reads head hsize
        (f := fun size => gather (readValue d) size.toNat >>= fun items => pure (.list items))
        (hitems.map Value.list) rfl
  | map entries ih =>
    intro depth enc hd ⟨hlen, hfit⟩ h
    obtain ⟨d, rfl⟩ := Nat.exists_eq_add_of_le' (Nat.le_trans (Nat.le_add_left 1 _) hd)
    cases h with
    | cons head tail =>
      have hentries := entries_reads ih (Nat.le_of_succ_le_succ hd) hfit tail
      have e : (UInt32.ofNat entries.length).toNat = entries.length :=
        UInt32.toNat_ofNat_of_lt' (Nat.lt_of_le_of_lt hlen (by decide))
      rw [← e] at hentries
      have hsize : Takes readMapHeader _ (UInt32.ofNat entries.length) :=
        reads_of_encodes head (fun _ _ => ReadVal.count.inj) rfl rfl
      exact next_reads head hsize
        (f := fun size => gather _ size.toNat >>= fun entries => pure (.map entries))
        (hentries.map Value.map) rfl
  | struct tag fields ih =>
    intro depth enc hd ⟨hlen, hfit⟩ h
    obtain ⟨d, rfl⟩ := Nat.exists_eq_add_of_le' (Nat.le_trans (Nat.le_add_left 1 _) hd)
    cases h with
    | cons head tail =>
      have hfields := items_reads ih (Nat.le_of_succ_le_succ hd) hfit tail
      have e : (UInt32.ofNat fields.length).toNat = fields.length :=
        UInt32.toNat_ofNat_of_lt' (Nat.lt_of_le_of_lt hlen (by decide))
      rw [← e] at hfields
      have hheader : Takes readStructHeader _ (tag, UInt32.ofNat fields.length) :=
        reads_of_encodes head (g := fun header => .header header.1 header.2) header_injective rfl rfl
      exact next_reads head hheader
        (f := fun header => gather (readValue d) header.2.toNat >>= fun fields =>
          pure (.struct header.1 fields))
        (hfields.map (Value.struct tag)) rfl

/-! ## what more input changes -/

theorem typed_online {op : ReadOp} (h : op.Typed) :
    Online .unexpectedEof (op.run : Reader Bytes ReadVal) := by
  rw [run_check h]
  refine (frame_online h).bind fun v _ => ?_
  cases op with
  | string =>
    cases v with
    | bytes payload =>
      show Online PackStreamError.unexpectedEof
        (okOr (PackStreamString.tryFrom payload) PackStreamError.invalidUtf8 >>= fun s =>
          pure (ReadVal.string s))
      cases PackStreamString.tryFrom payload with
      | some s => exact Online.pure _
      | none => exact Online.err _
    | _ => exact Online.pure _
  | _ => exact Online.pure _

theorem read_settled (op : ReadOp) (h : op.Typed) {r : Reader Bytes α} {g : α → ReadVal}
    (hg : Function.Injective g) (hrun : op.run = r >>= fun a => pure (g a)) :
    Settled .unexpectedEof r := by
  have hop := (typed_online h).settled
  rw [hrun] at hop
  exact hop.of_map hg

theorem readString_settled : Settled .unexpectedEof (readString : Reader Bytes PackStreamString) :=
  read_settled .string trivial (fun _ _ => ReadVal.string.inj) rfl

theorem entry_settled (h : Settled .unexpectedEof child) :
    Settled .unexpectedEof (do
      let key ← readString
      let v ← child
      pure (key, v)) :=
  readString_settled.bind fun key => h.bind fun v => Settled.pure (key, v)

/-- a tree in one call -/
theorem leaf_settled (op : ReadOp) (h : op.Typed) {r : Reader Bytes α} {g : α → ReadVal}
    (hg : Function.Injective g) (hrun : op.run = r >>= fun a => pure (g a)) (f : α → Value) :
    Settled .unexpectedEof (r >>= fun a => pure (f a)) :=
  (read_settled op h hg hrun).bind fun a => Settled.pure (f a)

theorem readTree_settled (hchild : Settled .unexpectedEof child) (op : ReadOp) :
    Settled .unexpectedEof (readTree child op) := by
  have hitems : ∀ (n : Nat) (f : List Value → Value), Settled .unexpectedEof
      (gather child n >>= fun items => pure (f items)) := fun n f =>
    (hchild.gather n).bind fun items => Settled.pure (f items)
  cases op with
  | null =>
    exact leaf_settled .null trivial (g := fun _ => .null) (fun _ _ _ => rfl) rfl fun _ => .null
  | bool => exact leaf_settled .bool trivial (fun _ _ => ReadVal.bool.inj) rfl .bool
  | int => exact leaf_settled .int trivial (fun _ _ => ReadVal.int.inj) rfl .int
  | float => exact leaf_settled .float trivial (fun _ _ => ReadVal.float.inj) rfl .float
  | string => exact leaf_settled .string trivial (fun _ _ => ReadVal.string.inj) rfl .string
  | bytes => exact leaf_settled .bytes trivial (fun _ _ => ReadVal.bytes.inj) rfl .bytes
  | listHeader =>
    have hsize : Settled .unexpectedEof (readListHeader : Reader Bytes UInt32) :=
      read_settled .listHeader trivial (fun _ _ => ReadVal.count.inj) rfl
    exact hsize.bind fun size => hitems size.toNat .list
  | mapHeader =>
    have hsize : Settled .unexpectedEof (readMapHeader : Reader Bytes UInt32) :=
      read_settled .mapHeader trivial (fun _ _ => ReadVal.count.inj) rfl
    exact hsize.bind fun size => ((entry_settled hchild).gather size.toNat).bind fun _ => Settled.pure _
  | structHeader =>
    have hheader : Settled .unexpectedEof (readStructHeader : Reader Bytes (UInt8 × UInt32)) :=
      read_settled .structHeader trivial header_injective rfl
    exact hheader.bind fun header => hitems header.2.toNat (.struct header.1)
  | peek | remaining | skip => exact fun _ _ _ => rfl

/-- the byte that chooses the read is not taken, also when it is none of a marker -/
theorem readNext_settled {f : Marker → Reader Bytes α} (hf : ∀ m, Settled .unexpectedEof (f m)) :
    Settled .unexpectedEof (readNext f) := by
  intro data more h
  cases data with
  | nil => exact absurd rfl h
  | cons b tail =>
    rw [List.cons_append]
    cases hb : Marker.fromByte b with
    | ok m =>
      rw [readNext_good hb] at h ⊢
      rw [readNext_good hb]
      exact hf m (b :: tail) more h
    | error e =>
      rw [readNext_bad hb, readNext_bad hb]
      rfl

theorem readValue_settled (depth : Nat) :
    Settled .unexpectedEof (readValue depth : Reader Bytes Value) := by
  induction depth with
  | zero => exact fun _ _ _ => rfl
  | succ depth ih => exact readNext_settled fun m => readTree_settled ih m.op

/-! ## what a request for more can be followed by -/

theorem typed_fills {op : ReadOp} (h : op.Typed) :
    Fills l .unexpectedEof .invalidUtf8 (op.run : Reader Bytes ReadVal) := by
  intro data _ hmore
  have hframe : (op.frame data).1 = .err .unexpectedEof := by
    rcases hmore with rfl | hmore
    · rw [frame_nil h]
    · exact (frame_eof_iff h data).mpr ((run_eof_iff h).mp hmore)
  obtain ⟨t, v, -, hwhole⟩ := frame_viable h data hframe
  refine ⟨t, ?_⟩
  rw [run_check h, bind_ok hwhole]
  rcases check_cases op v [] with ⟨v', hok⟩ | ⟨-, payload, -, -, hbad⟩
  · exact .inl ⟨v', hok⟩
  · exact .inr (congrArg Prod.fst hbad)

theorem read_fills (op : ReadOp) (h : op.Typed) {r : Reader Bytes α} {g : α → ReadVal}
    (hrun : op.run = r >>= fun a => pure (g a)) : Fills l .unexpectedEof .invalidUtf8 r := by
  have hop := typed_fills (l := l) h
  rw [hrun] at hop
  exact hop.of_map

theorem leaf_fills (op : ReadOp) (h : op.Typed) {r : Reader Bytes α} {g : α → ReadVal}
    (hg : Function.Injective g) (hrun : op.run = r >>= fun a => pure (g a)) {Q : α → Prop}
    (hr : Safe Q r) (f : α → Value) :
    Fills l .unexpectedEof .invalidUtf8 (r >>= fun a => pure (f a)) :=
  (read_fills op h hrun).bind (read_settled op h hg hrun) hr.shrinks fun a => Fills.pure (f a)

theorem readTree_fills (h : Fills l .unexpectedEof .invalidUtf8 child)
    (hset : Settled .unexpectedEof child) (hs : Shrinks child) (hl : 0 < l) (m : Marker) :
    Fills (l + 1) .unexpectedEof .invalidUtf8 (readTree child m.op) := by
  have hitems : ∀ (n : Nat) (f : List Value → Value), Fills l .unexpectedEof .invalidUtf8
      (gather child n >>= fun items => pure (f items)) := fun n f =>
    (h.gather hset hs n).bind (hset.gather n) (hs.gather n) fun items => Fills.pure (f items)
  have hop := m.op_typed
  cases hm : m.op with
  | null => exact leaf_fills .null trivial (fun _ _ _ => rfl) rfl readNull_safe fun _ => .null
  | bool => exact leaf_fills .bool trivial (fun _ _ => ReadVal.bool.inj) rfl readBool_safe .bool
  | int => exact leaf_fills .int trivial (fun _ _ => ReadVal.int.inj) rfl readInt_safe .int
  | float => exact leaf_fills .float trivial (fun _ _ => ReadVal.float.inj) rfl readFloat_safe .float
  | string =>
    exact leaf_fills .string trivial (fun _ _ => ReadVal.string.inj) rfl readString_safe .string
  | bytes => exact leaf_fills .bytes trivial (fun _ _ => ReadVal.bytes.inj) rfl readBytes_safe .bytes
  | listHeader =>
    exact (read_fills .listHeader trivial rfl).consume
      (read_settled .listHeader trivial (fun _ _ => ReadVal.count.inj) rfl)
      (sized_consumes _ _ _ _ _) hl fun size => hitems size.toNat .list
  | mapHeader =>
    have hkey : Fills l .unexpectedEof .invalidUtf8 (readString : Reader Bytes PackStreamString) :=
      read_fills .string trivial rfl
    have hentry := hkey.bind readString_settled readString_safe.shrinks fun key =>
      h.bind hset hs fun v => Fills.pure (key, v)
    refine (read_fills .mapHeader trivial rfl).consume
      (read_settled .mapHeader trivial (fun _ _ => ReadVal.count.inj) rfl)
      (sized_consumes _ _ _ _ _) hl fun size => ?_
    exact (hentry.gather (entry_settled hset) (entry_shrinks hs) size.toNat).bind
      ((entry_settled hset).gather _) ((entry_shrinks hs).gather _) fun entries =>
        Fills.pure (Value.map entries)
  | structHeader =>
    exact (read_fills .structHeader trivial rfl).consume
      (read_settled .structHeader trivial header_injective rfl)
      structHeader_consumes hl fun header => hitems header.2.toNat (.struct header.1)
  | peek | remaining | skip =>
    rw [hm] at hop
    exact hop.elim

/-- one byte more is a tree, and a tree that has begun needs no more depth than it has bytes -/
theorem readValue_fills (depth : Nat) :
    Fills depth .unexpectedEof .invalidUtf8 (readValue depth : Reader Bytes Value) := by
  induction depth with
  | zero => exact fun data hl => absurd hl (Nat.not_lt_zero _)
  | succ depth ih =>
    intro data hl hmore
    cases data with
    | nil =>
      have hnull : Takes (readValue (depth + 1)) (Value.encode .null) .null :=
        readValue_takes (Nat.succ_le_succ (Nat.zero_le _)) trivial
      have hrun := hnull []
      rw [List.append_nil] at hrun
      exact ⟨Value.encode .null, .inl ⟨.null, hrun⟩⟩
    | cons b tail =>
      replace hmore := hmore.resolve_left nofun
      rw [readValue] at hmore ⊢
      cases hb : Marker.fromByte b with
      | ok m =>
        rw [readNext_good hb] at hmore
        have hdepth : 0 < depth := Nat.lt_of_lt_of_le (Nat.succ_pos _) (Nat.le_of_lt_succ hl)
        obtain ⟨more, hwhole⟩ := readTree_fills ih (readValue_settled depth)
          (readValue_shrinks depth) hdepth m _ hl (.inr hmore)
        refine ⟨more, ?_⟩
        rw [List.cons_append, readNext_good hb]
        exact hwhole
      | error e =>
        rw [readNext_bad hb] at hmore
        cases hmore

/-! ## readings that come back -/

theorem readTree_ends (h : Ends l child) (hs : Shrinks child)
    (m : Marker) : Ends (l + 1) (readTree child m.op) := by
  have hleaf : ∀ {γ : Type} {r : Reader Bytes γ} (f : γ → Value), Safe (fun _ => True) r →
      Ends (l + 1) (r >>= fun a => pure (f a)) := fun f hr =>
    (hr.ends _).bind hr.shrinks fun a => Ends.pure (f a)
  have hitems : ∀ (n : Nat) (f : List Value → Value),
      Ends l (gather child n >>= fun items => pure (f items)) := fun n f =>
    (h.gather hs n).bind (hs.gather n) fun items => Ends.pure (f items)
  have hop := m.op_typed
  cases hm : m.op with
  | null => exact hleaf (fun _ => .null) readNull_safe
  | bool => exact hleaf .bool readBool_safe
  | int => exact hleaf .int readInt_safe
  | float => exact hleaf .float readFloat_safe
  | string => exact hleaf .string readString_safe
  | bytes => exact hleaf .bytes readBytes_safe
  | listHeader =>
    exact (readListHeader_safe.ends _).consume (sized_consumes _ _ _ _ _) fun size =>
      hitems size.toNat .list
  | mapHeader =>
    have hentry := (readString_safe.ends l).bind readString_safe.shrinks fun key =>
      h.bind hs fun v => Ends.pure (key, v)
    exact (readMapHeader_safe.ends _).consume (sized_consumes _ _ _ _ _) fun size =>
      (hentry.gather (entry_shrinks hs) size.toNat).bind ((entry_shrinks hs).gather _) fun _ =>
        Ends.pure _
  | structHeader =>
    exact (readStructHeader_safe.ends _).consume structHeader_consumes fun header =>
      hitems header.2.toNat (.struct header.1)
  | peek | remaining | skip =>
    rw [hm] at hop
    exact hop.elim

theorem readValue_ends (depth : Nat) : Ends depth (readValue depth : Reader Bytes Value) := by
  induction depth with
  | zero => exact fun data hl => absurd hl (Nat.not_lt_zero _)
  | succ depth ih =>
    intro data hl
    rw [readValue]
    cases data with
    | nil => exact trivial
    | cons b tail =>
      cases hb : Marker.fromByte b with
      | ok m =>
        rw [readNext_good hb]
        exact readTree_ends ih (readValue_shrinks depth) m (b :: tail) hl
      | error e =>
        rw [readNext_bad hb]
        exact trivial

end PackStreamReader

/-! ## the language -/

theorem Spells.length_le [BytesCrate] {calls : List WriteCall} {enc : Bytes} (h : Spells calls enc) :
    calls.length ≤ enc.length := by
  induction h with
  | nil => exact Nat.le_refl 0
  | @cons c calls enc rest head tail ih =>
    obtain ⟨v, hframe⟩ := head.frame
    obtain ⟨b, body, rfl, -⟩ := Frame.begins c.op_typed hframe
    rw [List.length_cons, List.cons_append, List.length_cons, List.length_append]
    omega

section
variable [BytesCrate] {B : Type} [Buf B] [LawfulBuf B] {b : B} {data : Bytes}
open PackStreamReader

theorem value_spelled {depth : Nat} (hd : data.length < depth) (v : Value) (rest : Bytes) :
    readValue depth data = (.ok v, rest) ↔ v.Fits ∧ ∃ enc, Spells v.calls enc ∧ data = enc ++ rest := by
  constructor
  · exact fun h => readValue_spells depth h
  · rintro ⟨hfit, enc, henc, rfl⟩
    have hcalls : v.calls.length ≤ depth := by
      have hle := henc.length_le
      rw [List.length_append] at hd
      omega
    exact readValue_reads hcalls hfit henc rest

/-- a proper beginning of a spelling asks for more, also where the whole needs more depth -/
theorem value_begun {depth : Nat} (hd : data.length < depth) {v : Value} {enc : Bytes}
    (hfit : v.Fits) (henc : Spells v.calls enc) (hpre : data <+: enc) (hne : data ≠ enc) :
    (readValue depth data).1 = .err .unexpectedEof := by
  have hreads : Takes (readValue (depth + v.calls.length)) enc v :=
    readValue_reads (Nat.le_add_left _ _) hfit henc
  rw [readValue_alike depth (Nat.le_add_right _ v.calls.length) data hd]
  exact (readValue_settled _).short hreads data hpre hne

/-- **The language of trees**, for a client that reads a tree by its markers from any lawful buffer
and allows more depth than there are bytes.  It gets a tree exactly where the bytes begin with a
spelling of it, in whatever widths, and leaves what follows; it asks for more on every proper
beginning of one, and only where some continuation ends the reading; any other error stands whatever
follows, and however deep the client would have gone; and it always comes back. -/
theorem readValue_language (hb : Same b data) {depth : Nat} (hd : Buf.remaining b < depth) :
    (∀ (v : Value) (rest : Bytes), (readValue depth b).1 = .ok v ∧ Same (readValue depth b).2 rest ↔
      v.Fits ∧ ∃ enc, Spells v.calls enc ∧ data = enc ++ rest) ∧
    (∀ (v : Value) enc, v.Fits → Spells v.calls enc → data <+: enc → data ≠ enc →
      (readValue depth b).1 = .err .unexpectedEof) ∧
    ((readValue depth b).1 = .err .unexpectedEof → ∃ more,
      (∃ v : Value, v.Fits ∧ Spells v.calls (data ++ more)) ∨
      (readValue depth (data ++ more)).1 = .err .invalidUtf8) ∧
    (∀ e, e ≠ .unexpectedEof → (readValue depth b).1 = .err e → ∀ more depth', depth ≤ depth' →
      (readValue depth' (data ++ more)).1 = .err e) ∧
    (readValue depth b).1.Returns := by
  obtain ⟨hres, hrest⟩ := sim_readValue depth b data hb
  rw [hb.remaining] at hd
  replace hd : data.length < depth := hd
  rw [hres]
  refine ⟨fun v rest => ?_, fun v enc hfit henc hpre hne => ?_, fun hmore => ?_,
    fun e hne he more depth' hle => ?_, readValue_ends depth data hd⟩
  · rw [← value_spelled hd v rest]
    constructor
    · rintro ⟨hv, hleft⟩
      exact Prod.ext hv (hrest.2.symm.trans hleft.2)
    · intro hrun
      rw [hrun] at hrest
      exact ⟨congrArg Prod.fst hrun, hrest⟩
  · exact value_begun hd hfit henc hpre hne
  · obtain ⟨more, ⟨v, hrun⟩ | hbad⟩ := readValue_fills depth data hd (.inr hmore)
    · obtain ⟨hfit, enc, henc, heq⟩ := readValue_spells depth hrun
      rw [List.append_nil] at heq
      exact ⟨more, .inl ⟨v, hfit, heq ▸ henc⟩⟩
    · exact ⟨more, .inr hbad⟩
  · rw [readValue_alike depth hle data hd] at he
    have hsettled := readValue_settled depth' data more (he ▸ fun h => hne (Res.err.inj h))
    rw [hsettled]
    exact he

end

/-- a list of two numbers, each wider than it need be, and its beginning in two segments -/
theorem readValue_language_wide :
    letI := BytesCrate.copying
    Spells (Value.list [.int 1, .int 300]).calls [0xD4, 2, 0xC9, 0, 1, 0xCA, 0, 0, 1, 44] ∧
    (readValue 5 (⟨[[0xD4, 2], [0xC9, 0]], 4⟩ : MessageBuf UInt8)).1 = .err .unexpectedEof := by
  let _ := BytesCrate.copying
  have hwhole : Same ([0xD4, 2, 0xC9, 0, 1, 0xCA, 0, 0, 1, 44] : Bytes)
      [0xD4, 2, 0xC9, 0, 1, 0xCA, 0, 0, 1, 44] := ⟨trivial, rfl⟩
  have hpart : Same (⟨[[0xD4, 2], [0xC9, 0]], 4⟩ : MessageBuf UInt8) [0xD4, 2, 0xC9, 0] :=
    ⟨⟨by decide, rfl⟩, rfl⟩
  have hdepth : 10 < 11 := by decide
  obtain ⟨hfit, enc, henc, heq⟩ := ((readValue_language hwhole hdepth).1
    (.list [.int 1, .int 300]) []).mp ⟨rfl, trivial, rfl⟩
  rw [List.append_nil] at heq
  subst heq
  exact ⟨henc, (readValue_language hpart (by decide)).2.1 _ _ hfit henc ⟨_, rfl⟩ (by decide)⟩

end Bolt
