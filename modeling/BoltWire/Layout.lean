import BoltWire.Deframer
import Mathlib.Data.List.Flatten
import Mathlib.Data.List.Induction

/-!
# The layout of a stream

What is where in a stream of chunks, whatever its bytes are.  The deframer never looks at a layout;
it only keeps what is not yet given away of it.

* `Header`, `Block`, `Parcel`   a chunk header, a whole chunk, a message with its end marker;
* `Tail`                 what follows the last whole chunk: at most a part of one more;
* `Layout.tiles`         the headers and segments in the order of the stream;
* `Layout.emitted`, `Layout.pending`   the segments of the messages, and those of the unfinished one;
* `layout`               the layout of a stream, byte by byte;
* `layout_symbols`       nothing of the stream is missing in it;
* `layout_run`           the deframer emits and holds what the layout says.
-/

set_option linter.unusedSectionVars false

namespace Bolt

section
variable {β : Type}

/-! ## segments, byte by byte -/

theorem extend_snoc (opn : Bool) (segs : List (List β)) (c : List (β × Bool)) (x : β × Bool) :
    extend opn segs (c ++ [x])
      = addByte ((opn || !c.isEmpty) && !x.2) (extend opn segs c) x.1 := by
  induction c generalizing opn segs with
  | nil =>
    show addByte (opn && !x.2) segs x.1 = addByte ((opn || false) && !x.2) segs x.1
    rw [Bool.or_false]
  | cons y c ih =>
    show extend true _ (c ++ [x]) = addByte ((opn || true) && !x.2) (extend true _ c) x.1
    rw [ih, Bool.or_true, Bool.true_or]

/-- a further byte joins the last segment of its chunk, unless it is the first one of a feed -/
theorem pieces_snoc (c : List (β × Bool)) (x : β × Bool) :
    pieces (c ++ [x]) = addByte (!c.isEmpty && !x.2) (pieces c) x.1 := extend_snoc false [] c x

theorem pieces_ne_nil {c : List (β × Bool)} (h : c ≠ []) : pieces c ≠ [] := by
  intro e
  have hflat := pieces_flatten c
  rw [e] at hflat
  exact h (List.map_eq_nil_iff.mp hflat.symm)

/-- the segments of an unfinished chunk -/
theorem pending_snoc (segs : List (List β)) (c : List (β × Bool)) (x : β × Bool) :
    addByte (!c.isEmpty && !x.2) (segs ++ pieces c) x.1 = segs ++ pieces (c ++ [x]) := by
  have hj : (!c.isEmpty && !x.2) = true → pieces c ≠ [] := by
    intro h
    refine pieces_ne_nil fun e => ?_
    subst e
    cases h
  rw [addByte_prepend hj, pieces_snoc]

/-! ## parts of a stream -/

theorem flatten_flatMap_tiles {α : Type} {tiles : α → List (List β)} {symbols : α → List (β × Bool)}
    (h : ∀ a, (tiles a).flatten = (symbols a).map Prod.fst) (l : List α) :
    (l.flatMap tiles).flatten = (l.flatMap symbols).map Prod.fst := by
  induction l with
  | nil => rfl
  | cons a l ih =>
    rw [List.flatMap_cons, List.flatten_append, h, ih, List.flatMap_cons, List.map_append]

theorem stretch_flatMap {α : Type} {symbols : α → List (β × Bool)} {l : List α} {a : α} (ha : a ∈ l)
    {p : List (β × Bool)} (h : p <:+: symbols a) : p <:+: l.flatMap symbols := by
  obtain ⟨l, r, rfl⟩ := List.append_of_mem ha
  rw [List.flatMap_append, List.flatMap_cons]
  exact h.trans ⟨l.flatMap symbols, r.flatMap symbols, by rw [List.append_assoc]⟩

end

section
variable (β : Type)

structure Header where
  hi : β × Bool
  lo : β × Bool

end

section
variable {β : Type}

def Header.symbols (h : Header β) : List (β × Bool) := [h.hi, h.lo]
def Header.bytes (h : Header β) : List β := [h.hi.1, h.lo.1]

/-- the size that a header announces -/
def Header.size [Octet β] (h : Header β) : Nat := headerSize (Octet.val h.hi.1) (Octet.val h.lo.1)

end

section
variable (β : Type) [Octet β]

/-- a chunk with all the payload that its header announces -/
structure Block where
  header : Header β
  payload : List (β × Bool)
  pos : 0 < header.size
  whole : payload.length = header.size

/-- a message: its chunks and the end marker -/
structure Parcel where
  blocks : List (Block β)
  marker : Header β
  zero : marker.size = 0

inductive Tail where
  | done
  | held (hi : β × Bool)
  | part (header : Header β) (payload : List (β × Bool)) (lt : payload.length < header.size)

structure Layout where
  parcels : List (Parcel β)
  blocks : List (Block β)
  tail : Tail β

end

section
variable {β : Type} [Octet β]

/-! ## what a layout says -/

def Block.symbols (b : Block β) : List (β × Bool) := b.header.symbols ++ b.payload
def Block.segs (b : Block β) : List (List β) := pieces b.payload
def Block.tiles (b : Block β) : List (List β) := b.header.bytes :: b.segs

namespace Parcel

def symbols (p : Parcel β) : List (β × Bool) := p.blocks.flatMap Block.symbols ++ p.marker.symbols
def segs (p : Parcel β) : List (List β) := p.blocks.flatMap Block.segs
def tiles (p : Parcel β) : List (List β) := p.blocks.flatMap Block.tiles ++ [p.marker.bytes]
def payloads (p : Parcel β) : List (List (β × Bool)) := p.blocks.map Block.payload

end Parcel

namespace Tail

def symbols : Tail β → List (β × Bool)
  | .done => []
  | .held hi => [hi]
  | .part header payload _ => header.symbols ++ payload

def segs : Tail β → List (List β)
  | .part _ payload _ => pieces payload
  | _ => []

/-- a byte of a header that waits for the other one is a tile of its own -/
def tiles : Tail β → List (List β)
  | .done => []
  | .held hi => [[hi.1]]
  | .part header payload _ => header.bytes :: pieces payload

def payloads : Tail β → List (List (β × Bool))
  | .part _ payload _ => [payload]
  | _ => []

def phase : Tail β → Phase
  | .done => .header
  | .held hi => .header2 (Octet.val hi.1)
  | .part header payload _ => .payload (header.size - payload.length)

/-- whether the last segment may still grow -/
def opn : Tail β → Bool
  | .part _ payload _ => !payload.isEmpty
  | _ => false

end Tail

namespace Layout

def empty : Layout β := ⟨[], [], .done⟩

def symbols (L : Layout β) : List (β × Bool) :=
  L.parcels.flatMap Parcel.symbols ++ L.blocks.flatMap Block.symbols ++ L.tail.symbols

/-- headers, end markers and segments, in the order of the stream -/
def tiles (L : Layout β) : List (List β) :=
  L.parcels.flatMap Parcel.tiles ++ L.blocks.flatMap Block.tiles ++ L.tail.tiles

/-- the payloads of all chunks, also of one that is not yet whole -/
def payloads (L : Layout β) : List (List (β × Bool)) :=
  L.parcels.flatMap Parcel.payloads ++ L.blocks.map Block.payload ++ L.tail.payloads

/-- the segments of every message -/
def emitted (L : Layout β) : List (List (List β)) := L.parcels.map Parcel.segs

/-- the segments of the unfinished message -/
def pending (L : Layout β) : List (List β) := L.blocks.flatMap Block.segs ++ L.tail.segs

/-- the state of a deframer that has read the stream -/
def deframe (L : Layout β) : Deframe β := ⟨L.tail.phase, L.pending, L.tail.opn⟩

/-- one more byte of the stream -/
def next (L : Layout β) (x : β × Bool) : Layout β :=
  match L.tail with
  | .done => { L with tail := .held x }
  | .held hi =>
    if h0 : Header.size ⟨hi, x⟩ = 0 then
      { parcels := L.parcels ++ [⟨L.blocks, ⟨hi, x⟩, h0⟩], blocks := [], tail := .done }
    else { L with tail := .part ⟨hi, x⟩ [] (Nat.pos_of_ne_zero h0) }
  | .part header payload lt =>
    if hw : (payload ++ [x]).length = header.size then
      { L with
        blocks := L.blocks ++ [⟨header, payload ++ [x], Nat.zero_lt_of_lt lt, hw⟩]
        tail := .done }
    else
      { L with
        tail := .part header (payload ++ [x]) (by
          rw [List.length_append] at hw ⊢
          exact lt_of_le_of_ne lt hw) }

section
variable {parcels : List (Parcel β)} {blocks : List (Block β)} {hi x : β × Bool} {header : Header β}
  {payload : List (β × Bool)} {lt : payload.length < header.size}

theorem next_marker (h : Header.size ⟨hi, x⟩ = 0) : next ⟨parcels, blocks, .held hi⟩ x
    = ⟨parcels ++ [⟨blocks, ⟨hi, x⟩, h⟩], [], .done⟩ := dif_pos h

theorem next_header (h : Header.size ⟨hi, x⟩ ≠ 0) : next ⟨parcels, blocks, .held hi⟩ x
    = ⟨parcels, blocks, .part ⟨hi, x⟩ [] (Nat.pos_of_ne_zero h)⟩ := dif_neg h

/-- the last byte of a payload -/
theorem next_last (h : (payload ++ [x]).length = header.size) :
    next ⟨parcels, blocks, .part header payload lt⟩ x
      = ⟨parcels, blocks ++ [⟨header, payload ++ [x], Nat.zero_lt_of_lt lt, h⟩], .done⟩ := dif_pos h

variable (parcels blocks) in
/-- any other byte of it -/
theorem next_payload (h : (payload ++ [x]).length ≠ header.size) :
    ∃ lt', next ⟨parcels, blocks, .part header payload lt⟩ x
      = ⟨parcels, blocks, .part header (payload ++ [x]) lt'⟩ := ⟨_, dif_neg h⟩

end
end Layout

/-- the layout of a stream -/
def layout (xs : List (β × Bool)) : Layout β := xs.foldl Layout.next .empty

theorem layout_snoc (xs : List (β × Bool)) (x : β × Bool) :
    layout (xs ++ [x]) = (layout xs).next x := by
  unfold layout
  rw [List.foldl_append]
  rfl

/-! ## nothing is missing -/

theorem Block.tiles_flatten (b : Block β) : b.tiles.flatten = b.symbols.map Prod.fst := by
  unfold Block.tiles Block.segs Block.symbols
  rw [List.flatten_cons, pieces_flatten, List.map_append]
  rfl

theorem Parcel.tiles_flatten (p : Parcel β) : p.tiles.flatten = p.symbols.map Prod.fst := by
  unfold Parcel.tiles Parcel.symbols
  rw [List.flatten_append, flatten_flatMap_tiles Block.tiles_flatten, List.map_append,
    List.flatten_singleton]
  rfl

theorem Tail.tiles_flatten (t : Tail β) : t.tiles.flatten = t.symbols.map Prod.fst := by
  cases t with
  | done => rfl
  | held hi => rfl
  | part header payload lt =>
    show (header.bytes :: pieces payload).flatten = (header.symbols ++ payload).map Prod.fst
    rw [List.flatten_cons, pieces_flatten, List.map_append]
    rfl

/-- **The tiles are the stream**, in order and without a gap. -/
theorem Layout.tiles_flatten (L : Layout β) : L.tiles.flatten = L.symbols.map Prod.fst := by
  unfold Layout.tiles Layout.symbols
  rw [List.flatten_append, List.flatten_append, flatten_flatMap_tiles Parcel.tiles_flatten,
    flatten_flatMap_tiles Block.tiles_flatten, Tail.tiles_flatten, List.map_append, List.map_append]

theorem Layout.next_symbols (L : Layout β) (x : β × Bool) :
    (L.next x).symbols = L.symbols ++ [x] := by
  obtain ⟨parcels, blocks, tail⟩ := L
  cases tail with
  | done => simp [next, symbols, Tail.symbols]
  | held hi =>
    by_cases h : Header.size ⟨hi, x⟩ = 0
    · rw [next_marker h]
      simp [symbols, Tail.symbols, Parcel.symbols, Header.symbols]
    · rw [next_header h]
      simp [symbols, Tail.symbols, Header.symbols]
  | part header payload lt =>
    by_cases h : (payload ++ [x]).length = header.size
    · rw [next_last h]
      simp [symbols, Tail.symbols, Block.symbols]
    · obtain ⟨lt', hnext⟩ := next_payload parcels blocks h
      rw [hnext]
      simp [symbols, Tail.symbols]

theorem layout_symbols (xs : List (β × Bool)) : (layout xs).symbols = xs := by
  induction xs using List.reverseRecOn with
  | nil => rfl
  | append_singleton xs x ih => rw [layout_snoc, Layout.next_symbols, ih]

/-! ## the deframer keeps to the layout -/

/-- **One byte**: the deframer goes on as the layout does. -/
theorem Layout.next_deframe (L : Layout β) (x : β × Bool) :
    ∃ o, L.deframe.next x = ((L.next x).deframe, o) ∧
      (L.next x).emitted = L.emitted ++ o.toList := by
  obtain ⟨parcels, blocks, tail⟩ := L
  cases tail with
  | done => exact ⟨none, rfl, (List.append_nil _).symm⟩
  | held hi =>
    by_cases h : Header.size ⟨hi, x⟩ = 0
    · refine ⟨some (blocks.flatMap Block.segs), ?_, ?_⟩
      · rw [next_marker h]
        show Deframe.next ⟨.header2 (Octet.val hi.1), blocks.flatMap Block.segs ++ [], false⟩ x = _
        rw [Deframe.next_end h, List.append_nil]
        rfl
      · rw [next_marker h, emitted, List.map_append]
        rfl
    · rw [next_header h]
      refine ⟨none, ?_, (List.append_nil _).symm⟩
      show Deframe.next ⟨.header2 (Octet.val hi.1), blocks.flatMap Block.segs ++ [], false⟩ x = _
      rw [Deframe.next_chunk h]
      rfl
  | part header payload lt =>
    have hnext : (Layout.deframe ⟨parcels, blocks, .part header payload lt⟩).next x
        = (.owing (header.size - payload.length - 1)
            (addByte (!payload.isEmpty && !x.2) (blocks.flatMap Block.segs ++ pieces payload) x.1),
          none) := Deframe.next_payload _ _ _ _
    have hlen : (payload ++ [x]).length = payload.length + 1 := by
      rw [List.length_append, List.length_singleton]
    refine ⟨none, ?_, ?_⟩
    · rw [hnext, pending_snoc, Deframe.owing]
      by_cases h : (payload ++ [x]).length = header.size
      · rw [next_last h, if_pos (by omega)]
        simp [deframe, Tail.phase, pending, Tail.segs, Tail.opn, Block.segs]
      · obtain ⟨lt', hmore⟩ := next_payload parcels blocks h
        have hsub : header.size - payload.length - 1 = header.size - (payload ++ [x]).length := by
          omega
        have hopn : true = !(payload ++ [x]).isEmpty := by simp
        rw [hmore, if_neg (by omega), hsub, hopn]
        rfl
    · by_cases h : (payload ++ [x]).length = header.size
      · rw [next_last h]
        exact (List.append_nil _).symm
      · obtain ⟨lt', hmore⟩ := next_payload parcels blocks h
        rw [hmore]
        exact (List.append_nil _).symm

/-- **A whole stream**: the deframer emits and holds what the layout says. -/
theorem layout_run (maxSize maxSegs : Nat) (xs : List (β × Bool)) :
    (deframer maxSize maxSegs).run .start xs = ((layout xs).deframe, (layout xs).emitted) := by
  induction xs using List.reverseRecOn with
  | nil => rfl
  | append_singleton xs x ih =>
    obtain ⟨o, hnext, hemit⟩ := (layout xs).next_deframe x
    have hstep : (deframer maxSize maxSegs).next (layout xs).deframe x = _ := hnext
    rw [Scanner.run_snoc, ih, layout_snoc, hstep, hemit]

/-! ## payloads -/

theorem Block.payload_stretch (b : Block β) : b.payload <:+: b.symbols :=
  (List.suffix_append b.header.symbols b.payload).isInfix

theorem stretch_blocks {blocks : List (Block β)} {p : List (β × Bool)}
    (h : p ∈ blocks.map Block.payload) : p <:+: blocks.flatMap Block.symbols := by
  obtain ⟨b, hb, rfl⟩ := List.mem_map.mp h
  exact stretch_flatMap hb b.payload_stretch

theorem Tail.payload_stretch {t : Tail β} {p : List (β × Bool)} (h : p ∈ t.payloads) :
    p <:+: t.symbols := by
  cases t with
  | done => cases h
  | held hi => cases h
  | part header payload lt =>
    obtain rfl := List.mem_singleton.mp h
    exact (List.suffix_append header.symbols p).isInfix

/-- the payload of a chunk is a stretch of the stream -/
theorem Layout.payload_stretch {L : Layout β} {p : List (β × Bool)} (h : p ∈ L.payloads) :
    p <:+: L.symbols := by
  rcases List.mem_append.mp h with h | h
  · rcases List.mem_append.mp h with h | h
    · obtain ⟨parcel, hparcel, hp⟩ := List.mem_flatMap.mp h
      have hin : p <:+: parcel.symbols :=
        (stretch_blocks hp).trans (List.prefix_append _ parcel.marker.symbols).isInfix
      exact (stretch_flatMap hparcel hin).trans
        ((List.prefix_append _ _).trans (List.prefix_append _ _)).isInfix
    · exact (stretch_blocks h).trans ⟨L.parcels.flatMap Parcel.symbols, L.tail.symbols, rfl⟩
  · exact (Tail.payload_stretch h).trans (List.suffix_append _ _).isInfix

/-- no byte is in two payloads -/
theorem Layout.payloads_sublist (L : Layout β) : L.payloads.flatten.Sublist L.symbols := by
  have hblock (b : Block β) : b.payload.Sublist b.symbols := b.payload_stretch.sublist
  have hblocks (blocks : List (Block β)) :
      (blocks.map Block.payload).flatten.Sublist (blocks.flatMap Block.symbols) :=
    List.Sublist.flatMap_right blocks fun b _ => hblock b
  have hparcel (p : Parcel β) : p.payloads.flatten.Sublist p.symbols :=
    (hblocks p.blocks).trans (List.sublist_append_left _ _)
  have hparcels : (L.parcels.flatMap Parcel.payloads).flatten.Sublist
      (L.parcels.flatMap Parcel.symbols) := by
    rw [← List.flatMap_id, List.flatMap_assoc]
    refine List.Sublist.flatMap_right L.parcels fun p _ => ?_
    rw [List.flatMap_id]
    exact hparcel p
  have htail : L.tail.payloads.flatten.Sublist L.tail.symbols := by
    cases L.tail with
    | done => exact .slnil
    | held hi => exact List.nil_sublist _
    | part header payload lt =>
      show (payload ++ []).Sublist _
      rw [List.append_nil]
      exact List.sublist_append_right _ _
  unfold payloads symbols
  rw [List.flatten_append, List.flatten_append]
  exact (hparcels.append (hblocks L.blocks)).append htail

theorem mem_blocks_segs {blocks : List (Block β)} {s : List β} (h : s ∈ blocks.flatMap Block.segs) :
    ∃ p ∈ blocks.map Block.payload, s ∈ pieces p := by
  obtain ⟨b, hb, hs⟩ := List.mem_flatMap.mp h
  exact ⟨b.payload, List.mem_map.mpr ⟨b, hb, rfl⟩, hs⟩

theorem Tail.mem_segs {t : Tail β} {s : List β} (h : s ∈ t.segs) :
    ∃ p ∈ t.payloads, s ∈ pieces p := by
  cases t with
  | done => cases h
  | held hi => cases h
  | part header payload lt => exact ⟨payload, List.mem_cons_self, h⟩

/-- every segment, emitted or not, is one of a chunk -/
theorem Layout.mem_segs {L : Layout β} {s : List β}
    (h : (∃ segs ∈ L.emitted, s ∈ segs) ∨ s ∈ L.pending) : ∃ p ∈ L.payloads, s ∈ pieces p := by
  unfold payloads
  rcases h with ⟨segs, hsegs, hs⟩ | hs
  · obtain ⟨parcel, hparcel, rfl⟩ := List.mem_map.mp hsegs
    obtain ⟨p, hp, hs⟩ := mem_blocks_segs hs
    have hin : p ∈ L.parcels.flatMap Parcel.payloads := List.mem_flatMap.mpr ⟨parcel, hparcel, hp⟩
    exact ⟨p, List.mem_append_left _ (List.mem_append_left _ hin), hs⟩
  · rcases List.mem_append.mp hs with hs | hs
    · obtain ⟨p, hp, hs⟩ := mem_blocks_segs hs
      exact ⟨p, List.mem_append_left _ (List.mem_append_right _ hp), hs⟩
    · obtain ⟨p, hp, hs⟩ := Tail.mem_segs hs
      exact ⟨p, List.mem_append_right _ hp, hs⟩

end
end Bolt
