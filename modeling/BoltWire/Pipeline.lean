import BoltWire.Dechunk
import BoltWire.Safety
import BoltWire.Value

/-!
# From the writer of one side to the reader of the other

Trees are written, the bytes of each message are cut into chunks, framed, sent in any feeds,
de-chunked and read.

* `written`        the bytes of a message in the writer;
* `feeds_whole`    a decoder that is fed whole messages emits them;
* `ReadsBack`      what reading a received message gives;
* `feeds_pipeline` every message that was written is received and read.
-/

set_option linter.unusedSectionVars false

namespace Bolt
open Rust Rust.Call

/-- the calls that write the trees of a message, one after the other -/
def treeCalls (vs : List Value) : List WriteCall := vs.flatMap Value.calls

/-- what the writer holds after them -/
def written [BytesCrate] (vs : List Value) : Bytes := (writes (treeCalls vs) []).2

/-- the reads that match the calls return what was written, a client of the reader builds the trees,
and either way the message is used up -/
structure ReadsBack [BytesCrate] (vs : List Value) (m : MessageBuf UInt8) : Prop where
  reads : (session ((treeCalls vs).map WriteCall.op) m).1.map Prod.fst
    = (treeCalls vs).map fun c => .ok c.val
  reads_all : Buf.remaining (session ((treeCalls vs).map WriteCall.op) m).2 = 0
  trees : (PackStreamReader.readValues vs.length m).1 = .ok vs
  trees_all : Buf.remaining (PackStreamReader.readValues vs.length m).2 = 0

section
variable [BytesCrate]

theorem treeCalls_fit {vs : List Value} (h : ∀ v ∈ vs, v.Fits) :
    ∀ c ∈ treeCalls vs, ¬ c.TooLong := by
  intro c hc
  obtain ⟨v, hv, hc⟩ := List.mem_flatMap.mp hc
  exact Value.calls_fit (h v hv) c hc

theorem written_eq (vs : List Value) : written vs = (treeCalls vs).flatMap WriteCall.encode := by
  rw [written, writes_run, List.nil_append]

theorem written_trees (vs : List Value) : written vs = vs.flatMap Value.encode := by
  rw [written_eq, treeCalls, List.flatMap_assoc]
  rfl

theorem readsBack {vs : List Value} (h : ∀ v ∈ vs, v.Fits) {m : MessageBuf UInt8}
    (hm : LawfulBuf.Inv m) (hpay : m.payload = written vs) : ReadsBack vs m := by
  have hsame : Same m (written vs) := ⟨hm, hpay⟩
  obtain ⟨hsession, hrest⟩ := session_same ((treeCalls vs).map WriteCall.op) hsame
  obtain ⟨hvalues, hrest'⟩ := PackStreamReader.sim_readValues vs.length m (written vs) hsame
  obtain ⟨hflat, hflat'⟩ := session_reads (treeCalls vs) (treeCalls_fit h) []
  rw [List.append_nil, ← written_eq] at hflat hflat'
  have htrees := PackStreamReader.readValues_takes h []
  rw [List.append_nil, ← written_trees] at htrees
  refine ⟨?_, ?_, ?_, ?_⟩
  · rw [hsession, hflat]
  · rw [hrest.remaining, hflat']
    rfl
  · rw [hvalues, htrees]
  · rw [hrest'.remaining, htrees]
    rfl

end

/-! ## whole messages -/

theorem withinLimits_snoc {maxSize maxSegs : Nat} (msgs : List Message) : ∀ {idx : List Nat},
    WithinLimits maxSize maxSegs idx msgs →
    WithinLimits maxSize maxSegs idx (msgs ++ [[]]) := by
  induction msgs with
  | nil => exact fun _ => ⟨⟨Nat.zero_le _, Nat.zero_le _⟩, trivial⟩
  | cons m msgs ih => exact fun h => ⟨h.1, ih h.2⟩

theorem forall₂_of_map_eq {α β γ : Type} {f : α → γ} {g : β → γ} {R : α → β → Prop} (as : List α) :
    ∀ bs : List β, as.map f = bs.map g → (∀ a ∈ as, ∀ b ∈ bs, f a = g b → R a b) →
    List.Forall₂ R as bs := by
  induction as with
  | nil =>
    intro bs h _
    rw [List.map_eq_nil_iff.mp h.symm]
    exact .nil
  | cons a as ih =>
    intro bs h hR
    cases bs with
    | nil => cases h
    | cons b bs =>
      obtain ⟨hab, hrest⟩ := List.cons.inj h
      refine .cons (hR a List.mem_cons_self b List.mem_cons_self hab) (ih bs hrest ?_)
      exact fun a ha b hb => hR a (List.mem_cons_of_mem _ ha) b (List.mem_cons_of_mem _ hb)

namespace ChunkDecoder
variable {maxSize maxSegs : Usize}

/-- a decoder that is fed whole messages emits them, in order, and in the shape of the invariant -/
theorem feeds_whole {msgs : List Message} {fs : List Bytes} (hfs : fs.flatten = wire msgs)
    (hlim : WithinLimits maxSize.val maxSegs.val (feedOf fs) msgs) :
    ∃ outs : List (List (MessageBuf UInt8)),
      (feeds fs (fresh maxSize maxSegs)).1 = outs.map Res.ok ∧
      outs.flatten.map MessageBuf.payload = msgs.map Message.payload ∧
      ∀ m ∈ outs.flatten, LawfulBuf.Inv m := by
  have hst := Stamped.marks fs
  have hx : (marks fs).map Prod.fst = wire msgs ++ (Message.frame []).take 0 := by
    rw [marks_fst, hfs, List.take_zero, List.append_nil]
  have hclean : (scanner maxSize maxSegs).Clean .start (marks fs) :=
    Deframe.clean_wire msgs [] 0 hst hx (withinLimits_snoc msgs hlim)
  obtain ⟨-, -, hall⟩ := run_stream maxSize.val maxSegs.val msgs [] Nat.two_pos hst hx
  have hruns := feeds_clean fs Deframe.Inv.start hclean
  rw [fresh_eq_decoderOf]
  refine ⟨_, by rw [hruns]; exact map_emitted _, ?_, ?_⟩
  · rw [batches_payloads, hall]
  · intro m hm
    obtain ⟨messages, hmessages, hm⟩ := List.mem_flatten.mp hm
    have hok : Res.ok messages ∈ (feeds fs (decoderOf maxSize maxSegs .start)).1 := by
      rw [hruns, map_emitted]
      exact List.mem_map_of_mem hmessages
    obtain ⟨segs, hsegs, rfl⟩ := feeds_emitted Deframe.Inv.start fs messages hok m hm
    exact bounded_inv (fromChunks_bounded hsegs).2

/-- **What is written arrives.**  Trees that the format can express are written without a panic;
however the bytes of their messages are cut into chunks and the framed stream into feeds, within the
limits every feed returns, the messages come out one for one, and reading them gives the trees. -/
theorem feeds_pipeline [BytesCrate] (maxSize maxSegs : Usize) (trees : List (List Value))
    (hfit : ∀ vs ∈ trees, ∀ v ∈ vs, v.Fits) (msgs : List Message)
    (hcut : msgs.map Message.payload = trees.map written) (fs : List Bytes)
    (hfs : fs.flatten = wire msgs)
    (hlim : WithinLimits maxSize.val maxSegs.val (feedOf fs) msgs) :
    (∀ vs ∈ trees, ∀ r ∈ (writes (treeCalls vs) []).1, r = .ok ()) ∧
    ∃ outs : List (List (MessageBuf UInt8)),
      (feeds fs (fresh maxSize maxSegs)).1 = outs.map Res.ok ∧
      List.Forall₂ ReadsBack trees outs.flatten := by
  constructor
  · intro vs hvs r hr
    rw [writes_run] at hr
    obtain ⟨c, hc, rfl⟩ := List.mem_map.mp hr
    exact if_neg (treeCalls_fit (hfit vs hvs) c hc)
  · obtain ⟨outs, hok, hpay, hinv⟩ := feeds_whole hfs hlim
    refine ⟨outs, hok, ?_⟩
    refine forall₂_of_map_eq trees outs.flatten (hpay.trans hcut).symm fun vs hvs m hm e => ?_
    exact readsBack (hfit vs hvs) (hinv m hm) e.symm

/-- a nested value cut inside its number, in two chunks and six feeds, and an empty message -/
theorem feeds_pipeline_two :
    letI := BytesCrate.copying
    ∃ outs : List (List (MessageBuf UInt8)),
      (feeds [[0], [7, 0xB1, 0x70, 0xA1], [0x81, 0x61, 0x92, 0xC9, 0, 3, 1], [0x2C], [],
        [0xC0, 0, 0, 0, 0]] (fresh 16 5)).1 = outs.map Res.ok ∧
      List.Forall₂ ReadsBack
        [[.struct 0x70 [.map [(⟨[0x61], by decide⟩, .list [.int 300, .null])]]], []]
        outs.flatten := by
  let _ := BytesCrate.copying
  refine (feeds_pipeline 16 5 _ ?_ [[⟨[0xB1, 0x70, 0xA1, 0x81, 0x61, 0x92, 0xC9], by decide,
    by decide⟩, ⟨[1, 0x2C, 0xC0], by decide, by decide⟩], []] ?_ _ ?_ ?_).2
  · simp [Value.Fits, Value.ItemsFit, Value.EntriesFit]
  · decide +kernel
  · decide
  · decide

end ChunkDecoder
end Bolt
