import BoltWire.Lib.Refinement
import BoltWire.Tape

/-!
# One writer for many messages

A writer is cleared between messages, or its bytes are moved out and a new one goes on.  It holds the
calls since then that did not panic, and what is taken of it are these calls.

* `WriterOp`, `WriterOp.run`   the methods of a writer in use;
* `WriterOp.note`        the same on a list of calls; `history_notes` the writer refines it;
* `taken`, `drafts`      what is taken of a writer, and the calls it stands for;
* `feeds_drafts`         whoever receives what was taken reads the drafts.
-/

set_option linter.unusedSectionVars false

namespace Bolt
open Rust Rust.Call

inductive WriterOp where
  | write (c : WriteCall)
  | clear
  | asBytes
  | intoBytes
  deriving DecidableEq, Repr

/-- `into_bytes` takes the writer, so that the next call is on a new one -/
def WriterOp.run [BytesCrate] : WriterOp → Writer (Option Bytes)
  | .write c => do
    c.run
    pure none
  | .clear => do
    PackStreamWriter.clear
    pure none
  | .asBytes => do
    let buf ← PackStreamWriter.asBytes
    pure (some buf)
  | .intoBytes => do
    let buf ← PackStreamWriter.intoBytes
    set PackStreamWriter.new
    pure (some buf)

/-- a writer that keeps the calls themselves -/
def WriterOp.note : WriterOp → Call (List WriteCall) Empty (Option (List WriteCall))
  | .write c => do
    let calls ← get
    if c.TooLong then panic
    else do
      set (calls ++ [c])
      pure none
  | .clear => do
    set []
    pure none
  | .asBytes => do
    let calls ← get
    pure (some calls)
  | .intoBytes => do
    let calls ← get
    set []
    pure (some calls)

/-- what a history of calls has returned -/
def taken {α : Type} (rs : List (Res Empty (Option α))) : List α :=
  rs.filterMap fun
    | .ok v => v
    | _ => none

/-- the calls that are in what is taken of a new writer -/
def drafts (ops : List WriterOp) : List (List WriteCall) := taken (history WriterOp.note ops []).1

def bytesOf [BytesCrate] (calls : List WriteCall) : Bytes := calls.flatMap WriteCall.encode

/-! ## the writer stands for its calls -/

section
variable [BytesCrate]

theorem run_note (op : WriterOp) (calls : List WriteCall) : op.run (bytesOf calls)
    = (Res.map (Option.map bytesOf) (op.note calls).1, bytesOf (op.note calls).2) := by
  cases op with
  | write c =>
    by_cases h : c.TooLong
    · have hnote : (WriterOp.write c).note calls = (.panic, calls) := by
        rw [WriterOp.note, get_bind_run, if_pos h]
        rfl
      rw [hnote, WriterOp.run, bind_run, call_panics h]
      rfl
    · have hnote : (WriterOp.write c).note calls = (.ok none, calls ++ [c]) := by
        rw [WriterOp.note, get_bind_run, if_neg h]
        rfl
      have hrun : c.run (bytesOf calls) = (.ok (), bytesOf calls ++ c.encode) := (call_code h).2.1 _
      rw [hnote, WriterOp.run, bind_ok hrun]
      simp [Res.map, bytesOf]
  | clear => rfl
  | asBytes => rfl
  | intoBytes => rfl

/-- **The writer refines the list of its calls.** -/
theorem history_notes (ops : List WriterOp) : history WriterOp.run ops PackStreamWriter.new
    = ((history WriterOp.note ops []).1.map (Res.map (Option.map bytesOf)),
      bytesOf (history WriterOp.note ops []).2) := history_image run_note ops []

theorem taken_map {α γ : Type} (f : α → γ) (rs : List (Res Empty (Option α))) :
    taken (rs.map (Res.map (Option.map f))) = (taken rs).map f := by
  show (rs.map _).filterMap _ = (rs.filterMap _).map f
  rw [List.filterMap_map, List.map_filterMap]
  congr 1
  funext r
  cases r <;> rfl

theorem taken_drafts (ops : List WriterOp) :
    taken (history WriterOp.run ops PackStreamWriter.new).1 = (drafts ops).map bytesOf := by
  rw [history_notes, taken_map]
  rfl

end

/-! ## what is in a draft -/

theorem mem_taken {α : Type} {rs : List (Res Empty (Option α))} {a : α} (h : a ∈ taken rs) :
    Res.ok (some a) ∈ rs := by
  obtain ⟨r, hr, hval⟩ := List.mem_filterMap.mp h
  cases r with
  | ok v =>
    obtain rfl : v = some a := hval
    exact hr
  | err e => cases hval
  | panic => cases hval
  | spin => cases hval

theorem note_fits (op : WriterOp) {calls : List WriteCall} (h : ∀ c ∈ calls, ¬ c.TooLong) :
    (∀ c ∈ (op.note calls).2, ¬ c.TooLong) ∧
    ∀ draft, (op.note calls).1 = .ok (some draft) → draft = calls := by
  cases op with
  | write c =>
    rw [WriterOp.note, get_bind_run]
    split
    · exact ⟨h, nofun⟩
    · rename_i hc
      refine ⟨fun d hd => ?_, nofun⟩
      rcases List.mem_append.mp hd with hd | hd
      · exact h d hd
      · rwa [List.mem_singleton.mp hd]
  | clear => exact ⟨fun c hc => absurd hc List.not_mem_nil, nofun⟩
  | asBytes => exact ⟨h, fun draft e => (Option.some.inj (Res.ok.inj e)).symm⟩
  | intoBytes =>
    exact ⟨fun c hc => absurd hc List.not_mem_nil, fun draft e => (Option.some.inj (Res.ok.inj e)).symm⟩

theorem history_fits (ops : List WriterOp) : ∀ {calls : List WriteCall},
    (∀ c ∈ calls, ¬ c.TooLong) → ∀ draft, .ok (some draft) ∈ (history WriterOp.note ops calls).1 →
    ∀ c ∈ draft, ¬ c.TooLong := by
  induction ops with
  | nil => exact fun _ draft hd => absurd hd List.not_mem_nil
  | cons op ops ih =>
    intro calls h draft hd
    obtain ⟨hfits, hdraft⟩ := note_fits op h
    rcases List.mem_cons.mp hd with e | hd
    · rwa [hdraft draft e.symm]
    · exact ih hfits draft hd

theorem drafts_fit (ops : List WriterOp) : ∀ draft ∈ drafts ops, ∀ c ∈ draft, ¬ c.TooLong :=
  fun draft hd => history_fits ops (fun _ hc => absurd hc List.not_mem_nil) draft (mem_taken hd)

/-- a call panics on its own account only -/
theorem note_panics (op : WriterOp) (calls : List WriteCall) :
    (op.note calls).1 = .panic ↔ ∃ c, op = .write c ∧ c.TooLong := by
  cases op with
  | write c =>
    rw [WriterOp.note, get_bind_run]
    split
    · rename_i hc
      exact ⟨fun _ => ⟨c, rfl, hc⟩, fun _ => rfl⟩
    · rename_i hc
      exact ⟨nofun, fun ⟨d, e, hd⟩ => absurd (WriterOp.write.inj e ▸ hd) hc⟩
  | clear => exact ⟨nofun, nofun⟩
  | asBytes => exact ⟨nofun, nofun⟩
  | intoBytes => exact ⟨nofun, nofun⟩

theorem history_panics (ops : List WriterOp) : ∀ (calls : List WriteCall) (i : Nat),
    (history WriterOp.note ops calls).1[i]? = some .panic ↔
      ∃ c, ops[i]? = some (.write c) ∧ c.TooLong := by
  induction ops with
  | nil => exact fun _ _ => ⟨nofun, nofun⟩
  | cons op ops ih =>
    intro calls i
    cases i with
    | zero =>
      show some (op.note calls).1 = some .panic ↔ ∃ c, some op = some (.write c) ∧ c.TooLong
      simp only [Option.some.injEq]
      exact note_panics op calls
    | succ i => exact ih (op.note calls).2 i

namespace ChunkDecoder

/-- **One writer, many messages.**  A writer is used in any way: written to, also with what is too
long for the format, cleared, looked at and moved out.  What was taken of it is sent, in any chunks
and feeds, and received under any limits, whether or not the connection fails or breaks off.  Then
every delivered message below 1 GiB is read like the calls that did not panic since the writer was
last cleared or begun, up to a read of the wrong type that tears a call; all messages are delivered
where no feed fails; and a call panics only on what it is given itself. -/
theorem feeds_drafts [BytesCrate] (maxSize maxSegs : Usize) (ops : List WriterOp) (fs : List Bytes)
    (msgs : List Message) (hc : Completes fs.flatten msgs) (hsent : msgs.map Message.payload
      <+: taken (history WriterOp.run ops PackStreamWriter.new).1) :
    (∀ (i : Nat) (m : MessageBuf UInt8), (delivered (feeds fs (fresh maxSize maxSegs)).1)[i]? = some m →
      Buf.remaining m < 2 ^ 30 → ∃ calls, (drafts ops)[i]? = some calls ∧ ReadsLike calls m) ∧
    (AllOk maxSize maxSegs fs →
      (delivered (feeds fs (fresh maxSize maxSegs)).1).length = msgs.length) ∧
    ∀ i : Nat, (history WriterOp.run ops PackStreamWriter.new).1[i]? = some .panic ↔
      ∃ c, ops[i]? = some (.write c) ∧ c.TooLong := by
  refine ⟨fun i m hm hlen => ?_, fun hok => ?_, fun i => ?_⟩
  · obtain ⟨payload, hi, hsame⟩ := delivered_same hc hm
    obtain ⟨more, hmore⟩ := hsent
    have hi' : ((drafts ops).map bytesOf)[i]? = some payload := by
      rw [← taken_drafts, ← hmore, List.getElem?_append_left (List.getElem?_eq_some_iff.mp hi).1]
      exact hi
    rw [List.getElem?_map] at hi'
    obtain ⟨calls, hcalls, rfl⟩ := Option.map_eq_some_iff.mp hi'
    have hkept : kept calls = calls := List.filter_eq_self.mpr fun c hc => by
      simpa using drafts_fit ops calls (List.mem_of_getElem? hcalls) c hc
    have hwrites : (writes calls []).2 = bytesOf calls := congrArg Prod.snd (writes_run calls [])
    have hread := readsLike_kept calls (hwrites ▸ hsame) hlen
    rw [hkept] at hread
    exact ⟨calls, hcalls, hread⟩
  · have hlen := congrArg List.length (delivered_completes hok hc)
    rwa [List.length_map, List.length_map] at hlen
  · rw [history_notes, List.getElem?_map, ← history_panics ops [] i]
    cases (history WriterOp.note ops []).1[i]? with
    | none => exact ⟨nofun, nofun⟩
    | some r =>
      cases r with
      | ok v => exact ⟨nofun, nofun⟩
      | err e => exact e.elim
      | panic => exact ⟨fun _ => rfl, fun _ => rfl⟩
      | spin => exact ⟨nofun, nofun⟩

/-- a list with a struct header that panics, and after a clear a number, which arrives in two chunks;
the connection fails later -/
theorem feeds_drafts_two :
    letI := BytesCrate.copying
    ((Client.script [.int, .null]).talk (⟨[[0xC9], [1, 44]], 3⟩ : MessageBuf UInt8)).1
      = [(.ok (.int 300), 0), (.err .unexpectedEof, 0)] := by
  let _ := BytesCrate.copying
  obtain ⟨calls, hcalls, hread⟩ := (feeds_drafts 3 3 [.write (.listHeader 1),
    .write (.structHeader 0x4E 70000), .write .null, .asBytes, .clear, .write (.int 300), .intoBytes]
    [[0, 2, 0x91, 0xC0, 0, 0, 0], [1, 0xC9, 0, 2, 1, 44, 0, 0], [0, 4]]
    [[⟨[0x91, 0xC0], by decide, by decide⟩],
      [⟨[0xC9], by decide, by decide⟩, ⟨[1, 44], by decide, by decide⟩]]
    ⟨[⟨[0, 0, 0, 0], by decide, by decide⟩], 2, by decide, by decide⟩ (by decide +kernel)).1 1
    (⟨[[0xC9], [1, 44]], 3⟩ : MessageBuf UInt8) (by decide +kernel) (by decide)
  obtain rfl : [.int 300] = calls := Option.some.inj ((by decide +kernel : _ = _).trans hcalls)
  have htape : (Client.script [.int, .null]).follow (.whole [.int 300])
      = ([(.ok (.int 300), 0), (.err .unexpectedEof, 0)], .whole []) := by decide
  have hwhole := hread (Client.script [.int, .null])
  rw [htape] at hwhole
  exact (hwhole.2 rfl).1

end ChunkDecoder
end Bolt
