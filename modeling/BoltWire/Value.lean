import BoltWire.RoundTrip

/-!
# PackStream values as trees

What the streaming calls are for: a value is written depth-first, and read back with the typed reads
that its markers call for.

* `Value`, `Value.Fits`   trees, and those whose lengths the format can express;
* `Value.calls`           the calls that write a tree;
* `readNext`, `readTree`, `readValue`, `readValues`   a client of the reader that builds trees;
* `readValue_takes`       it builds the tree that was written;
* `sim_readValues`        and does so on any lawful buffer.
-/

set_option linter.unusedSectionVars false

namespace Bolt
open Rust Rust.Call

inductive Value where
  | null
  | bool (value : Bool)
  | int (value : Int64)
  | float (bits : UInt64)
  | string (s : PackStreamString)
  | bytes (b : Bytes)
  | list (items : List Value)
  | map (entries : List (PackStreamString × Value))
  | struct (tag : UInt8) (fields : List Value)
  deriving Repr

namespace Value

mutual

def calls : Value → List WriteCall
  | .null => [.null]
  | .bool value => [.bool value]
  | .int value => [.int value]
  | .float bits => [.float bits]
  | .string s => [.string s]
  | .bytes b => [.bytes b]
  | .list items => .listHeader (UInt32.ofNat items.length) :: itemsCalls items
  | .map entries => .mapHeader (UInt32.ofNat entries.length) :: entriesCalls entries
  | .struct tag fields => .structHeader tag (UInt32.ofNat fields.length) :: itemsCalls fields

def itemsCalls : List Value → List WriteCall
  | [] => []
  | v :: items => calls v ++ itemsCalls items

def entriesCalls : List (PackStreamString × Value) → List WriteCall
  | [] => []
  | (key, v) :: entries => .string key :: (calls v ++ entriesCalls entries)

end

mutual

/-- no string, array, list or map beyond `u32::MAX`, no struct beyond 65535 fields -/
def Fits : Value → Prop
  | .string s => s.bytes.length ≤ 2 ^ 32 - 1
  | .bytes b => b.length ≤ 2 ^ 32 - 1
  | .list items => items.length ≤ 2 ^ 32 - 1 ∧ ItemsFit items
  | .map entries => entries.length ≤ 2 ^ 32 - 1 ∧ EntriesFit entries
  | .struct _ fields => fields.length ≤ 65535 ∧ ItemsFit fields
  | .null | .bool _ | .int _ | .float _ => True

def ItemsFit : List Value → Prop
  | [] => True
  | v :: items => Fits v ∧ ItemsFit items

def EntriesFit : List (PackStreamString × Value) → Prop
  | [] => True
  | (key, v) :: entries => key.bytes.length ≤ 2 ^ 32 - 1 ∧ Fits v ∧ EntriesFit entries

end

/-- induction over a tree, with its children in lists -/
@[elab_as_elim]
theorem induct {p : Value → Prop} (null : p .null) (bool : ∀ value, p (.bool value))
    (int : ∀ value, p (.int value)) (float : ∀ bits, p (.float bits)) (string : ∀ s, p (.string s))
    (bytes : ∀ b, p (.bytes b)) (list : ∀ items, (∀ v ∈ items, p v) → p (.list items))
    (map : ∀ entries, (∀ e ∈ entries, p e.2) → p (.map entries))
    (struct : ∀ tag fields, (∀ v ∈ fields, p v) → p (.struct tag fields)) (v : Value) : p v := by
  refine @Value.rec p (fun items => ∀ v ∈ items, p v) (fun entries => ∀ e ∈ entries, p e.2)
    (fun e => p e.2) null bool int float string bytes list map struct ?_ ?_ ?_ ?_ ?_ v
  · exact fun _ h => absurd h List.not_mem_nil
  · intro v items hv hitems w hw
    rcases List.mem_cons.mp hw with rfl | hw
    · exact hv
    · exact hitems w hw
  · exact fun _ h => absurd h List.not_mem_nil
  · intro e entries he hentries w hw
    rcases List.mem_cons.mp hw with rfl | hw
    · exact he
    · exact hentries w hw
  · exact fun _ _ h => h

theorem itemsCalls_eq (items : List Value) : itemsCalls items = items.flatMap calls := by
  induction items with
  | nil => rfl
  | cons v items ih => rw [List.flatMap_cons, ← ih]; rfl

theorem entriesCalls_eq (entries : List (PackStreamString × Value)) :
    entriesCalls entries = entries.flatMap fun e => .string e.1 :: calls e.2 := by
  induction entries with
  | nil => rfl
  | cons e entries ih => rw [List.flatMap_cons, ← ih]; rfl

theorem itemsFit_iff (items : List Value) : ItemsFit items ↔ ∀ v ∈ items, v.Fits := by
  induction items with
  | nil => exact ⟨fun _ _ h => absurd h List.not_mem_nil, fun _ => trivial⟩
  | cons v items ih => rw [List.forall_mem_cons, ← ih]; rfl

theorem entriesFit_iff (entries : List (PackStreamString × Value)) :
    EntriesFit entries ↔ ∀ e ∈ entries, e.1.bytes.length ≤ 2 ^ 32 - 1 ∧ e.2.Fits := by
  induction entries with
  | nil => exact ⟨fun _ _ h => absurd h List.not_mem_nil, fun _ => trivial⟩
  | cons e entries ih =>
    rw [List.forall_mem_cons, ← ih, and_assoc]
    rfl

variable [BytesCrate]

/-- the bytes of a tree -/
def encode (v : Value) : Bytes := (calls v).flatMap WriteCall.encode

/-- a tree that fits is written without a panic -/
theorem calls_fit {v : Value} : v.Fits → ∀ c ∈ calls v, ¬ c.TooLong := by
  induction v using induct with
  | null | bool | int | float =>
    intro _ c hc
    rw [List.mem_singleton.mp hc]
    exact id
  | string s =>
    intro h c hc
    rw [List.mem_singleton.mp hc]
    exact Nat.not_lt.mpr h
  | bytes b =>
    intro h c hc
    rw [List.mem_singleton.mp hc]
    exact Nat.not_lt.mpr h
  | list items ih =>
    rintro ⟨-, h⟩ c hc
    rcases List.mem_cons.mp hc with rfl | hc
    · exact id
    · rw [itemsCalls_eq] at hc
      obtain ⟨v, hv, hc⟩ := List.mem_flatMap.mp hc
      exact ih v hv ((itemsFit_iff items).mp h v hv) c hc
  | map entries ih =>
    rintro ⟨-, h⟩ c hc
    rcases List.mem_cons.mp hc with rfl | hc
    · exact id
    · rw [entriesCalls_eq] at hc
      obtain ⟨e, he, hc⟩ := List.mem_flatMap.mp hc
      obtain ⟨hkey, hfit⟩ := (entriesFit_iff entries).mp h e he
      rcases List.mem_cons.mp hc with rfl | hc
      · exact Nat.not_lt.mpr hkey
      · exact ih e he hfit c hc
  | struct tag fields ih =>
    rintro ⟨hlen, h⟩ c hc
    rcases List.mem_cons.mp hc with rfl | hc
    · have hlt : fields.length < 2 ^ 32 := by omega
      show ¬ 65535 < (UInt32.ofNat fields.length).toNat
      rw [UInt32.toNat_ofNat_of_lt' hlt]
      omega
    · rw [itemsCalls_eq] at hc
      obtain ⟨v, hv, hc⟩ := List.mem_flatMap.mp hc
      exact ih v hv ((itemsFit_iff fields).mp h v hv) c hc

theorem encode_list (items : List Value) : (Value.list items).encode
    = (WriteCall.listHeader (UInt32.ofNat items.length)).encode ++ items.flatMap encode := by
  show (_ :: itemsCalls items).flatMap _ = _
  rw [itemsCalls_eq, List.flatMap_cons, List.flatMap_assoc]
  rfl

theorem encode_struct (tag : UInt8) (fields : List Value) : (Value.struct tag fields).encode
    = (WriteCall.structHeader tag (UInt32.ofNat fields.length)).encode ++ fields.flatMap encode := by
  show (_ :: itemsCalls fields).flatMap _ = _
  rw [itemsCalls_eq, List.flatMap_cons, List.flatMap_assoc]
  rfl

theorem encode_map (entries : List (PackStreamString × Value)) : (Value.map entries).encode
    = (WriteCall.mapHeader (UInt32.ofNat entries.length)).encode ++
      entries.flatMap fun e => (WriteCall.string e.1).encode ++ e.2.encode := by
  show (_ :: entriesCalls entries).flatMap _ = _
  rw [entriesCalls_eq, List.flatMap_cons, List.flatMap_assoc]
  rfl

end Value

/-! ## reading -/

namespace PackStreamReader
section
variable {B α : Type} [Buf B]

/-- a read chosen by the marker that comes next -/
def readNext (f : Marker → Reader B α) : Reader B α := do
  let b ← peek
  match b with
  | none => err .unexpectedEof
  | some b =>
    match Marker.fromByte b with
    | .ok marker => f marker
    | .error _ => err (.invalidMarker b)

variable [BytesCrate]

/-- a tree whose marker is for the operation; `child` reads the trees in it -/
def readTree (child : Reader B Value) : ReadOp → Reader B Value
  | .null => do
    let _ ← readNull
    pure .null
  | .bool => do
    let value ← readBool
    pure (.bool value)
  | .int => do
    let value ← readInt
    pure (.int value)
  | .float => do
    let bits ← readFloat
    pure (.float bits)
  | .string => do
    let s ← readString
    pure (.string s)
  | .bytes => do
    let b ← readBytes
    pure (.bytes b)
  | .listHeader => do
    let size ← readListHeader
    let items ← gather child size.toNat
    pure (.list items)
  | .mapHeader => do
    let size ← readMapHeader
    let entries ← gather (do
      let key ← readString
      let v ← child
      pure (key, v)) size.toNat
    pure (.map entries)
  | .structHeader => do
    let header ← readStructHeader
    let fields ← gather child header.2.toNat
    pure (.struct header.1 fields)
  -- no marker is for another operation
  | .peek | .remaining | .skip => panic

/-- a tree of at most the given depth -/
def readValue : Nat → Reader B Value
  | 0 => spin
  | depth + 1 => readNext fun marker => readTree (readValue depth) marker.op

/-- so many trees; the depth of each is bounded by the bytes that are there -/
def readValues (n : Nat) : Reader B (List Value) := do
  let depth ← remaining
  gather (readValue depth) n

end

section
variable [BytesCrate] {α : Type}

/-- the first byte of what a call writes chooses the read that undoes it -/
theorem value_takes {c : WriteCall} {op : ReadOp} {r : Reader Bytes α} {a : α}
    (h : Codes op c.run r a) {f : α → Reader Bytes Value} {tail : Bytes} {v : Value}
    (hf : Takes (f a) tail v) {d : Nat} (hd : readTree (readValue d) op = r >>= f) :
    Takes (readValue (d + 1)) (c.encode ++ tail) v := by
  obtain ⟨m, b, body, hb, hop, hputs, htakes⟩ := h
  have e : c.encode = b :: body := congrArg Prod.snd (hputs [])
  intro rest
  have hpeek : (peek : Reader Bytes (Option UInt8)) (c.encode ++ tail ++ rest)
      = (.ok (some b), c.encode ++ tail ++ rest) := by
    rw [e]
    rfl
  rw [readValue, readNext, bind_ok hpeek]
  show (match Marker.fromByte b with
    | .ok marker => readTree (readValue d) marker.op
    | .error _ => err (.invalidMarker b) : Reader Bytes Value) _ = _
  rw [fromByte_of_toByte hb]
  show readTree (readValue d) m.op _ = _
  rw [hop, hd, e]
  exact htakes.bind hf rest

/-- a call that is a whole value -/
theorem leaf_takes {c : WriteCall} {op : ReadOp} {r : Reader Bytes α} {a : α}
    (h : Codes op c.run r a) (f : α → Value)
    (hd : ∀ child, readTree child op = r >>= fun a => pure (f a)) {depth : Nat} (h1 : 1 ≤ depth) :
    Takes (readValue depth) ([c].flatMap WriteCall.encode) (f a) := by
  obtain ⟨d, rfl⟩ := Nat.exists_eq_add_of_le' h1
  exact value_takes h (Takes.pure (f a)) (hd (readValue d))

theorem length_le_of_mem {γ δ : Type} {l : List γ} {f : γ → List δ} {a : γ} (h : a ∈ l) :
    (f a).length ≤ (l.flatMap f).length := by
  rw [List.flatMap_def]
  exact (List.sublist_flatten_of_mem (List.mem_map_of_mem h)).length_le

/-- the trees of a list, once each of them is read -/
theorem items_takes {d : Nat} {items : List Value}
    (ih : ∀ v ∈ items, v.calls.length ≤ d → v.Fits → Takes (readValue d) v.encode v)
    (hd : (Value.itemsCalls items).length ≤ d) (hfit : Value.ItemsFit items) :
    Takes (gather (readValue d) items.length) (items.flatMap Value.encode) items := by
  refine Takes.gather items fun v hv => ih v hv ?_ ((Value.itemsFit_iff items).mp hfit v hv)
  rw [Value.itemsCalls_eq] at hd
  exact Nat.le_trans (length_le_of_mem hv) hd

theorem entries_takes {d : Nat} {entries : List (PackStreamString × Value)}
    (ih : ∀ e ∈ entries, e.2.calls.length ≤ d → e.2.Fits → Takes (readValue d) e.2.encode e.2)
    (hd : (Value.entriesCalls entries).length ≤ d) (hfit : Value.EntriesFit entries) :
    Takes (gather (do
        let key ← readString
        let v ← readValue d
        pure (key, v)) entries.length)
      (entries.flatMap fun e => (WriteCall.string e.1).encode ++ e.2.encode) entries := by
  refine Takes.gather entries fun e he => ?_
  obtain ⟨hkey, hv⟩ := (Value.entriesFit_iff entries).mp hfit e he
  rw [Value.entriesCalls_eq] at hd
  have h1 : e.2.calls.length ≤ d := by
    have h2 := length_le_of_mem (f := fun e => .string e.1 :: Value.calls e.2) he
    exact Nat.le_trans (Nat.le_of_succ_le h2) hd
  obtain ⟨m, b, body, hb, hop, hputs, htakes⟩ := codes_string (Nat.not_lt.mpr hkey)
  have e1 : (WriteCall.string e.1).encode = b :: body := congrArg Prod.snd (hputs [])
  rw [e1]
  exact htakes.bind ((ih e he h1 hv).map fun v => (e.1, v))

/-- **A tree that was written is the tree that is read**, by the reads that its markers call for. -/
theorem readValue_takes {v : Value} : ∀ {depth : Nat}, v.calls.length ≤ depth → v.Fits →
    Takes (readValue depth) v.encode v := by
  induction v using Value.induct with
  | null => exact fun hd _ => leaf_takes codes_null (fun _ => .null) (fun _ => rfl) hd
  | bool value => exact fun hd _ => leaf_takes (codes_bool value) .bool (fun _ => rfl) hd
  | int value => exact fun hd _ => leaf_takes (codes_int value) .int (fun _ => rfl) hd
  | float bits => exact fun hd _ => leaf_takes (codes_float bits) .float (fun _ => rfl) hd
  | string s =>
    exact fun hd h => leaf_takes (codes_string (Nat.not_lt.mpr h)) .string (fun _ => rfl) hd
  | bytes b =>
    exact fun hd h => leaf_takes (codes_bytes (Nat.not_lt.mpr h)) .bytes (fun _ => rfl) hd
  | list items ih =>
    intro depth hd ⟨hlen, hfit⟩
    obtain ⟨d, rfl⟩ := Nat.exists_eq_add_of_le' (Nat.le_trans (Nat.le_add_left 1 _) hd)
    have hitems := items_takes (fun v hv h => ih v hv h) (Nat.le_of_succ_le_succ hd) hfit
    have e : (UInt32.ofNat items.length).toNat = items.length :=
      UInt32.toNat_ofNat_of_lt' (Nat.lt_of_le_of_lt hlen (by decide))
    rw [← e] at hitems
    rw [Value.encode_list]
    exact value_takes (c := .listHeader _) (codes_size (listHeader_codes _))
      (f := fun size => gather (readValue d) size.toNat >>= fun items => pure (.list items))
      (hitems.map Value.list) rfl
  | map entries ih =>
    intro depth hd ⟨hlen, hfit⟩
    obtain ⟨d, rfl⟩ := Nat.exists_eq_add_of_le' (Nat.le_trans (Nat.le_add_left 1 _) hd)
    have hentries := entries_takes (fun e he h => ih e he h) (Nat.le_of_succ_le_succ hd) hfit
    have e : (UInt32.ofNat entries.length).toNat = entries.length :=
      UInt32.toNat_ofNat_of_lt' (Nat.lt_of_le_of_lt hlen (by decide))
    rw [← e] at hentries
    rw [Value.encode_map]
    exact value_takes (c := .mapHeader _) (codes_size (mapHeader_codes _))
      (f := fun size => gather _ size.toNat >>= fun entries => pure (.map entries))
      (hentries.map Value.map) rfl
  | struct tag fields ih =>
    intro depth hd ⟨hlen, hfit⟩
    obtain ⟨d, rfl⟩ := Nat.exists_eq_add_of_le' (Nat.le_trans (Nat.le_add_left 1 _) hd)
    have hfields := items_takes (fun v hv h => ih v hv h) (Nat.le_of_succ_le_succ hd) hfit
    have e : (UInt32.ofNat fields.length).toNat = fields.length :=
      UInt32.toNat_ofNat_of_lt' (Nat.lt_of_le_of_lt hlen (by decide))
    have h16 : ¬ 65535 < (UInt32.ofNat fields.length).toNat := by rw [e]; omega
    rw [← e] at hfields
    rw [Value.encode_struct]
    exact value_takes (c := .structHeader tag _) (codes_structHeader tag h16)
      (f := fun h => gather (readValue d) h.2.toNat >>= fun fields => pure (.struct h.1 fields))
      (hfields.map (Value.struct tag)) rfl

/-- every call takes at least a byte -/
theorem length_le_encode {calls : List WriteCall} (h : ∀ c ∈ calls, ¬ c.TooLong) :
    calls.length ≤ (calls.flatMap WriteCall.encode).length := by
  induction calls with
  | nil => exact Nat.le_refl _
  | cons c calls ih =>
    have hc := List.length_pos_iff.mpr (encode_ne_nil (h c List.mem_cons_self))
    have hcs := ih fun d hd => h d (List.mem_cons_of_mem _ hd)
    rw [List.flatMap_cons, List.length_append, List.length_cons]
    omega

theorem readValues_takes {vs : List Value} (h : ∀ v ∈ vs, v.Fits) :
    Takes (readValues vs.length) (vs.flatMap Value.encode) vs := by
  intro rest
  have hremaining : (remaining : Reader Bytes Nat) (vs.flatMap Value.encode ++ rest)
      = (.ok (vs.flatMap Value.encode ++ rest).length, vs.flatMap Value.encode ++ rest) := rfl
  rw [readValues, bind_ok hremaining]
  refine Takes.gather vs (fun v hv => readValue_takes ?_ (h v hv)) rest
  calc v.calls.length ≤ v.encode.length := length_le_encode (Value.calls_fit (h v hv))
    _ ≤ (vs.flatMap Value.encode).length := length_le_of_mem hv
    _ ≤ _ := by rw [List.length_append]; exact Nat.le_add_right _ _

end

/-! ## on any buffer -/

section
variable {B α : Type} [Buf B] [LawfulBuf B]

theorem sim_readNext {f : Marker → Reader B α} {g : Marker → Reader Bytes α}
    (h : ∀ m, Sim Same (f m) (g m)) : Sim Same (readNext f) (readNext g) := by
  refine sim_peek.bind fun b => ?_
  cases b with
  | none => exact Sim.err _
  | some b =>
    cases hb : Marker.fromByte b with
    | ok m =>
      simp only [hb]
      exact h m
    | error e =>
      simp only [hb]
      exact Sim.err _

variable [BytesCrate]

theorem sim_readTree {child : Reader B Value} {child' : Reader Bytes Value}
    (h : Sim Same child child') (op : ReadOp) :
    Sim Same (readTree child op) (readTree child' op) := by
  cases op with
  | null => exact sim_readNull.bind fun _ => Sim.pure _
  | bool => exact sim_readBool.bind fun _ => Sim.pure _
  | int => exact sim_readInt.bind fun _ => Sim.pure _
  | float => exact sim_readFloat.bind fun _ => Sim.pure _
  | string => exact sim_readString.bind fun _ => Sim.pure _
  | bytes => exact sim_readBytes.bind fun _ => Sim.pure _
  | listHeader =>
    exact sim_readListHeader.bind fun size => (h.gather size.toNat).bind fun _ => Sim.pure _
  | mapHeader =>
    refine sim_readMapHeader.bind fun size => Sim.bind (Sim.gather ?_ size.toNat) fun _ => Sim.pure _
    exact sim_readString.bind fun key => h.bind fun v => Sim.pure (key, v)
  | structHeader =>
    exact sim_readStructHeader.bind fun header =>
      (h.gather header.2.toNat).bind fun _ => Sim.pure _
  | peek | remaining | skip => exact Sim.panic

theorem sim_readValue (depth : Nat) :
    Sim Same (readValue depth : Reader B Value) (readValue depth) := by
  induction depth with
  | zero => exact Sim.spin
  | succ depth ih => exact sim_readNext fun m => sim_readTree ih m.op

theorem sim_readValues (n : Nat) :
    Sim Same (readValues n : Reader B (List Value)) (readValues n) :=
  sim_remaining.bind fun depth => (sim_readValue depth).gather n

end
end PackStreamReader
end Bolt
