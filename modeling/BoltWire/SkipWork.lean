import BoltWire.Lib.Iterations
import BoltWire.Arity

/-!
# The work of `skip_value`

The counter of the loop may grow by billions in one iteration, and still the loop ends: what
every iteration lowers is the number of unread bytes.

* `skipLoop`      the loop of `skipValue` with an iteration bound of one's own;
* `declared`      how many children the value at the front of a buffer announces;
* `skipStep_ok`   what an iteration does to the buffer and to the counter;
* `skipValue_work`   the iterations are bounded by the bytes and counted by the declarations.
-/

set_option linter.unusedSectionVars false

namespace Bolt
open Rust Rust.Call

namespace PackStreamReader
section
variable [BytesCrate] {B : Type} [Buf B]

def skipLoop (n : Nat) : Reader B Nat :=
  whileLoop (fun remaining => decide (0 < remaining)) skipStep n 1

/-- iterations of the loop from its start -/
abbrev SkipRun (b : B) (its : List (Nat × B)) (remaining : Nat) (c : B) : Prop :=
  Iterations (fun remaining => decide (0 < remaining)) skipStep 1 b its remaining c

/-- the children that go with a marker: elements, keys and values, or fields -/
def markerCount (marker : Marker) : Reader B Nat :=
  match marker with
  | .tinyList _ | .list8 | .list16 | .list32 => do
    let len ← listLen marker
    pure len.toNat
  | .tinyMap _ | .map8 | .map16 | .map32 => do
    let len ← mapLen marker
    pure (2 * len.toNat)
  | .tinyStruct _ | .struct8 | .struct16 => do
    let numFields ← structLen marker
    pure numFields.toNat
  | _ => pure 0

def childCount : Reader B Nat := do
  let marker ← readMarker
  markerCount marker

def declared (b : B) : Nat :=
  match (childCount b).1 with
  | .ok count => count
  | _ => 0

/-! ## on bytes -/

theorem markerHead_count {marker : Marker} {data rest : Bytes} {m : Nat}
    (h : markerHead marker data = (.ok m, rest)) : ∃ c, markerCount marker data = (.ok m, c) := by
  cases marker with
  | null | true | false | tinyInt | tinyList | list8 | list16 | list32 | tinyMap | map8 | map16 | map32 =>
    exact ⟨rest, h⟩
  | int8 | int16 | int32 | int64 | float64 =>
    obtain ⟨_, mid, -, h⟩ := ok_of_bind h
    cases h
    exact ⟨data, rfl⟩
  | tinyString | string8 | string16 | string32 | bytes8 | bytes16 | bytes32 =>
    obtain ⟨len, mid, -, h⟩ := ok_of_bind h
    obtain ⟨_, mid', -, h⟩ := ok_of_bind h
    cases h
    exact ⟨data, rfl⟩
  | tinyStruct | struct8 | struct16 =>
    obtain ⟨numFields, mid, hlen, h⟩ := ok_of_bind h
    obtain ⟨_, mid', -, h⟩ := ok_of_bind h
    cases h
    exact ⟨mid, bind_ok hlen _⟩

theorem declared_head {data rest : Bytes} {m : Nat} (h : valueHead data = (.ok m, rest)) :
    declared data = m := by
  obtain ⟨marker, mid, hm, hhead⟩ := ok_of_bind h
  obtain ⟨c, hc⟩ := markerHead_count hhead
  have hrun : childCount data = (.ok m, c) := (bind_ok hm _).trans hc
  rw [declared, hrun]

theorem skipStep_bytes {k k' : Nat} (hk : k < 2 ^ 64) {data rest : Bytes}
    (h : skipStep k data = (.ok k', rest)) :
    k' < 2 ^ 64 ∧ rest.length < data.length ∧ k' + 1 = k + declared data := by
  cases k with
  | zero => cases h
  | succ k =>
    rw [skipStep_eq hk (decide_eq_true (Nat.succ_pos k))] at h
    obtain ⟨m, mid, hhead, h⟩ := ok_of_bind h
    have hlt := valueHead_consumes data m mid hhead
    rw [declared_head hhead]
    unfold bounded at h
    split at h
    · cases h
      exact ⟨by assumption, hlt, by omega⟩
    · cases h

/-! ## on any buffer -/

variable [LawfulBuf B]

theorem sim_markerCount (marker : Marker) :
    Sim Same (markerCount marker : Reader B Nat) (markerCount marker) := by
  cases marker with
  | tinyList | list8 | list16 | list32 | tinyMap | map8 | map16 | map32 | tinyStruct | struct8
  | struct16 => exact (sim_sizeLen _ _ _ _ _ _).bind fun _ => Sim.pure _
  | _ => exact Sim.pure 0

theorem declared_same {b : B} {data : Bytes} (h : Same b data) : declared b = declared data := by
  obtain ⟨hrun, -⟩ := (sim_readMarker.bind sim_markerCount) b data h
  have hrun : (childCount b).1 = (childCount data).1 := hrun
  rw [declared, declared, hrun]

/-- **One iteration** that comes back has taken bytes, and the counter has lost one and gained the
children of the value that was read. -/
theorem skipStep_ok {k k' : Nat} {b c : B} (hb : LawfulBuf.Inv b) (hk : k < 2 ^ 64)
    (h : skipStep k b = (.ok k', c)) :
    LawfulBuf.Inv c ∧ k' < 2 ^ 64 ∧ Buf.remaining c < Buf.remaining b ∧
      k' + 1 = k + declared b := by
  have hs : Same b (LawfulBuf.bytes b) := ⟨hb, rfl⟩
  obtain ⟨hres, hs'⟩ := sim_skipStep k b (LawfulBuf.bytes b) hs
  rw [h] at hres hs'
  rcases hflat : skipStep k (LawfulBuf.bytes b) with ⟨r, rest⟩
  rw [hflat] at hres hs'
  subst hres
  obtain ⟨hk', hlt, hcount⟩ := skipStep_bytes hk hflat
  rw [hs.remaining, hs'.remaining, declared_same hs]
  exact ⟨hs'.1, hk', hlt, hcount⟩

/-! ## runs -/

theorem SkipRun.length_le {b c : B} {its : List (Nat × B)} {k : Nat} (h : SkipRun b its k c)
    (hb : LawfulBuf.Inv b) : its.length + Buf.remaining c ≤ Buf.remaining b := by
  refine h.descends (fun k c => k < 2 ^ 64 ∧ LawfulBuf.Inv c) Buf.remaining ?_ ⟨by decide, hb⟩
  rintro k c k' c' ⟨hk, hc⟩ hrun
  obtain ⟨hc', hk', hlt, -⟩ := skipStep_ok hc hk hrun
  exact ⟨⟨hk', hc'⟩, hlt⟩

theorem SkipRun.count {b c : B} {its : List (Nat × B)} {k : Nat} (h : SkipRun b its k c)
    (hb : LawfulBuf.Inv b) : k + its.length = 1 + (its.map fun i => declared i.2).sum := by
  refine h.balance (fun k c => k < 2 ^ 64 ∧ LawfulBuf.Inv c) id declared ?_ ⟨by decide, hb⟩
  rintro k c k' c' ⟨hk, hc⟩ hrun
  obtain ⟨hc', hk', -, hcount⟩ := skipStep_ok hc hk hrun
  exact ⟨⟨hk', hc'⟩, hcount⟩

/-- the bound of `skipValue` is as good as any larger one -/
theorem skipLoop_fuel {b : B} (hb : LawfulBuf.Inv b) {n : Nat} (hn : Buf.remaining b < n) :
    skipLoop n b = skipLoop (Buf.remaining b + 1) b := by
  refine whileLoop_fuel _ skipStep (fun k c => k < 2 ^ 64 ∧ LawfulBuf.Inv c) Buf.remaining ?_ n _ 1 b
    ⟨by decide, hb⟩ hn (Nat.lt_succ_self _)
  rintro k c k' c' ⟨hk, hc⟩ - hrun
  obtain ⟨hc', hk', hlt, -⟩ := skipStep_ok hc hk hrun
  exact ⟨⟨hk', hc'⟩, hlt⟩

theorem skipValue_loop {b : B} (hb : LawfulBuf.Inv b) {n : Nat} (hn : Buf.remaining b < n) :
    skipValue b = (skipLoop n >>= fun _ => pure ()) b := by
  show (skipLoop (Buf.remaining b + 1) >>= fun _ => pure ()) b = _
  rw [bind_run, ← skipLoop_fuel hb hn, ← bind_run]

theorem skipValue_returns {b : B} (hb : LawfulBuf.Inv b) : (skipValue b).1.Returns := by
  rw [(sim_skipValue b (LawfulBuf.bytes b) ⟨hb, rfl⟩).1]
  exact (skipValue_safe (LawfulBuf.bytes b)).1.returns

theorem skipLoop_returns {b : B} (hb : LawfulBuf.Inv b) {n : Nat} (hn : Buf.remaining b < n) :
    (skipLoop n b).1.Returns := by
  have h := skipValue_returns hb
  rw [skipValue_loop hb hn, bind_run] at h
  rcases hrun : skipLoop n b with ⟨(k | e | _ | _), c⟩
  · trivial
  · trivial
  all_goals rw [hrun] at h; exact h

/-- the loop comes to its end when the counter is 0 -/
theorem skipValue_ok_iff {b c : B} (hb : LawfulBuf.Inv b) :
    skipValue b = (.ok (), c) ↔ ∃ its, SkipRun b its 0 c := by
  have hloop : ∀ k, skipLoop (Buf.remaining b + 1) b = (.ok k, c) ↔
      ∃ its, SkipRun b its k c ∧ decide (0 < k) = false := fun k =>
    whileLoop_ok_iff fun its k c h => by have := SkipRun.length_le h hb; omega
  constructor
  · intro h
    rw [skipValue_loop hb (Nat.lt_succ_self _)] at h
    obtain ⟨k, mid, hrun, h⟩ := ok_of_bind h
    cases h
    obtain ⟨its, hits, hstop⟩ := (hloop k).mp hrun
    obtain rfl : k = 0 := Nat.eq_zero_of_not_pos (of_decide_eq_false hstop)
    exact ⟨its, hits⟩
  · rintro ⟨its, hits⟩
    rw [skipValue_loop hb (Nat.lt_succ_self _)]
    exact bind_ok ((hloop 0).mpr ⟨its, hits, rfl⟩) _

/-- a map header may announce more than `2 ^ 33` values at once -/
theorem skipStep_grows {k : Nat} (hpos : 0 < k) (hk : k + 2 ^ 33 ≤ 2 ^ 64) (rest : Bytes) :
    skipStep k ((WriteCall.mapHeader 0xFFFFFFFF).encode ++ rest) = (.ok (k + 2 ^ 33 - 3), rest) := by
  have htake := call_head (c := .mapHeader 0xFFFFFFFF) (by decide) rest
  rw [skipStep_eq (by omega) (decide_eq_true hpos), countStep, bind_ok htake,
    bounded_run _ (by show k - 1 + 8589934590 < _; omega), pure_run]
  show (Res.ok (k - 1 + 8589934590), rest) = _
  rw [show k - 1 + 8589934590 = k + 2 ^ 33 - 3 by omega]

/-- **The work of a skip.**  Every iteration that comes back takes bytes, so the loop returns within
`remaining + 1` iterations whatever the input declares, although one iteration may add more than
`2 ^ 32` to its counter; and it succeeds only after one iteration and one for every declared
child. -/
theorem skipValue_work (b : B) (hb : LawfulBuf.Inv b) :
    (∀ k (c : B) k' c', LawfulBuf.Inv c → k < 2 ^ 64 → skipStep k c = (.ok k', c') →
      Buf.remaining c' < Buf.remaining c) ∧
    (∀ its k c, SkipRun b its k c → its.length + Buf.remaining c ≤ Buf.remaining b) ∧
    (∀ n, Buf.remaining b < n → (skipLoop n b).1.Returns ∧
      skipValue b = (skipLoop n >>= fun _ => pure ()) b) ∧
    (∀ c, skipValue b = (.ok (), c) → ∃ its, SkipRun b its 0 c ∧
      its.length = 1 + (its.map fun i => declared i.2).sum) ∧
    (∀ k, 0 < k → k + 2 ^ 33 ≤ 2 ^ 64 → ∃ (data rest : Bytes) (k' : Nat),
      skipStep k data = (.ok k', rest) ∧ k + 2 ^ 32 < k') := by
  refine ⟨fun k c k' c' hc hk h => (skipStep_ok hc hk h).2.2.1,
    fun its k c h => SkipRun.length_le h hb,
    fun n hn => ⟨skipLoop_returns hb hn, skipValue_loop hb hn⟩, fun c h => ?_, fun k hpos hk => ?_⟩
  · obtain ⟨its, hits⟩ := (skipValue_ok_iff hb).mp h
    refine ⟨its, hits, ?_⟩
    rw [← SkipRun.count hits hb, Nat.zero_add]
  · exact ⟨_, [], _, skipStep_grows hpos hk [], by omega⟩

end

/-- a list of an empty string and a number, cut into segments -/
theorem skipValue_work_list :
    letI := BytesCrate.copying
    ∃ its, SkipRun (MessageBuf.fromChunks ([[0x92, 0x80], [0xC9], [1, 2]] : List Bytes)) its 0 ⟨[], 0⟩ ∧
      its.length = 1 + (its.map fun i => declared i.2).sum := by
  let _ := BytesCrate.copying
  have hwork := skipValue_work (MessageBuf.fromChunks ([[0x92, 0x80], [0xC9], [1, 2]] : List Bytes))
    (MessageBuf.fromChunks_wf (by decide))
  exact hwork.2.2.2.1 ⟨[], 0⟩ rfl

end PackStreamReader
end Bolt
