import BoltWire.Refine

/-!
# The first error of a connection

* `AllOk`      every feed returns messages;
* `FailsAt`    the first error is `e`, and it is the byte at place `i` of the stream that brings it
               about: without this byte the feed still succeeds, with it the feed fails whatever
               follows, and later feeds return `Defunct`;
* `allOk_iff`, `failsAt_iff`   both in the terms of the deframer;
* `allOk_or_failsAt`, `allOk_iff_not_failsAt`   exactly one of the two holds;
* `FailsAt.unique`     at one byte, with one error.
-/

set_option linter.unusedSectionVars false

namespace Bolt
open Rust

section
variable {β : Type}

theorem mark_take (data : List β) (j : Nat) : (mark data).take j = mark (data.take j) := by
  cases data with
  | nil => simp [mark]
  | cons b t =>
    cases j with
    | zero => rfl
    | succ j =>
      show (b, true) :: (t.map fun b => (b, false)).take j = (b, true) :: _
      rw [← List.map_take]

theorem marks_length (fs : List (List β)) : (marks fs).length = fs.flatten.length := by
  rw [← marks_fst, List.length_map]

theorem marks_snoc (fs : List (List β)) (data : List β) :
    marks (fs ++ [data]) = marks fs ++ mark data := by
  rw [marks_append, marks_cons]
  show marks fs ++ (mark data ++ []) = _
  rw [List.append_nil]

end

namespace ChunkDecoder
variable {β : Type} [Octet β] {maxSize maxSegs : Usize}

def AllOk (maxSize maxSegs : Usize) (fs : List (List β)) : Prop :=
  ∃ outs : List (List (MessageBuf β)), (feeds fs (fresh maxSize maxSegs)).1 = outs.map Res.ok

def FailsAt (maxSize maxSegs : Usize) (fs : List (List β)) (i : Nat) (e : ChunkError) : Prop :=
  ∃ (done : List (List β)) (data : List β) (todo : List (List β)) (j : Nat)
    (outs : List (List (MessageBuf β))),
    fs = done ++ data :: todo ∧ j < data.length ∧ i = done.flatten.length + j ∧
    AllOk maxSize maxSegs (done ++ [data.take j]) ∧
    (feeds (done ++ [data.take (j + 1)]) (fresh maxSize maxSegs)).1
      = outs.map Res.ok ++ [.err e] ∧
    (feeds fs (fresh maxSize maxSegs)).1
      = outs.map Res.ok ++ .err e :: todo.map fun _ => .err .defunct

theorem allOk_iff (fs : List (List β)) :
    AllOk maxSize maxSegs fs ↔ (scanner maxSize maxSegs).Clean .start (marks fs) := by
  unfold AllOk
  rw [fresh_eq_decoderOf]
  constructor
  · rintro ⟨outs, houts⟩
    rcases feeds_cases maxSize maxSegs .start fs with
      h | ⟨done, data, todo, pre, x, post, e, rfl, hdata, hc, hx⟩
    · exact h
    · rw [feeds_bad Deframe.Inv.start done data todo hdata hc hx] at houts
      have hmem : (.err e : Res ChunkError (List (MessageBuf β))) ∈ outs.map Res.ok := by
        rw [← houts]
        simp
      obtain ⟨o, -, ho⟩ := List.mem_map.mp hmem
      cases ho
  · intro hc
    rw [feeds_clean fs Deframe.Inv.start hc]
    exact ⟨((scanner maxSize maxSegs).batches .start (fs.map mark)).map fun outs =>
      outs.map MessageBuf.fromChunks, map_emitted _⟩

theorem failsAt_of_badAt {fs : List (List β)} {i : Nat} {e : ChunkError}
    (h : (scanner maxSize maxSegs).BadAt .start (marks fs) i e) : FailsAt maxSize maxSegs fs i e := by
  rcases feeds_cases maxSize maxSegs .start fs with
    hc | ⟨done, data, todo, pre, x, post, e', rfl, hdata, hc, hx⟩
  · exact absurd hc h.not_clean
  · have hhere : (scanner maxSize maxSegs).BadAt .start (marks (done ++ data :: todo))
        (marks done ++ pre).length e' := by
      refine ⟨marks done ++ pre, x, post ++ marks todo, ?_, rfl, hc, hx⟩
      rw [marks_append, marks_cons, hdata, List.append_assoc, List.append_assoc, List.cons_append]
    obtain ⟨rfl, rfl⟩ := h.unique hhere
    have hpre : mark (data.take pre.length) = pre := by
      rw [← mark_take, hdata, List.take_left]
    have hcut : mark (data.take (pre.length + 1)) = pre ++ x :: [] := by
      rw [← mark_take, hdata, List.take_length_add_append]
      rfl
    have hlen : pre.length < data.length := by
      rw [← mark_length data, hdata, List.length_append, List.length_cons]
      omega
    refine ⟨done, data, todo, pre.length, ((scanner maxSize maxSegs).batches .start
      (done.map mark)).map fun outs => outs.map MessageBuf.fromChunks, rfl, hlen, ?_, ?_, ?_, ?_⟩
    · rw [List.length_append, marks_length]
    · rw [allOk_iff, marks_snoc, hpre]
      exact hc
    · rw [fresh_eq_decoderOf, feeds_bad Deframe.Inv.start done _ [] hcut hc hx, map_emitted]
      rfl
    · rw [fresh_eq_decoderOf, feeds_bad Deframe.Inv.start done data todo hdata hc hx, map_emitted]

/-- the first error among the results of some calls -/
theorem first_err_eq {α : Type} {a b : List α} {e e' : ChunkError} {s t : List (Res ChunkError α)}
    (h : a.map Res.ok ++ .err e :: s = b.map Res.ok ++ .err e' :: t) : e = e' := by
  induction a generalizing b with
  | nil =>
    cases b with
    | nil =>
      cases h
      rfl
    | cons y b => cases h
  | cons x a ih =>
    cases b with
    | nil => cases h
    | cons y b => exact ih (List.cons.inj h).2

theorem failsAt_iff (fs : List (List β)) (i : Nat) (e : ChunkError) :
    FailsAt maxSize maxSegs fs i e ↔
      (scanner maxSize maxSegs).BadAt .start (marks fs) i e := by
  refine ⟨?_, failsAt_of_badAt⟩
  rintro ⟨done, data, todo, j, outs, rfl, hj, rfl, hok, herr, hres⟩
  rw [allOk_iff, marks_snoc, ← mark_take] at hok
  have hlen : j < (mark data).length := by
    rw [mark_length]
    exact hj
  have hsplit : mark data = (mark data).take j ++ (mark data)[j] :: (mark data).drop (j + 1) := by
    rw [List.getElem_cons_drop, List.take_append_drop]
  have hcut : marks (done ++ [data.take (j + 1)])
      = marks done ++ (mark data).take j ++ [(mark data)[j]] := by
    rw [marks_snoc, ← mark_take, List.take_succ_eq_append_getElem hlen, List.append_assoc]
  have hnot : ¬ AllOk maxSize maxSegs (done ++ [data.take (j + 1)]) := by
    rintro ⟨outs', hc⟩
    rw [herr] at hc
    have hmem : (.err e : Res ChunkError (List (MessageBuf β))) ∈ outs'.map Res.ok := by
      rw [← hc]
      simp
    obtain ⟨o, -, ho⟩ := List.mem_map.mp hmem
    cases ho
  rw [allOk_iff, hcut, Scanner.clean_snoc] at hnot
  cases hbad : (scanner maxSize maxSegs).bad ((scanner maxSize maxSegs).run .start
    (marks done ++ (mark data).take j)).1 (mark data)[j] with
  | none => exact absurd ⟨hok, hbad⟩ hnot
  | some e' =>
    have hhere : (scanner maxSize maxSegs).BadAt .start (marks (done ++ data :: todo))
        (done.flatten.length + j) e' := by
      refine ⟨_, _, (mark data).drop (j + 1) ++ marks todo, ?_, ?_, hok, hbad⟩
      · rw [marks_append, marks_cons]
        conv_lhs => rw [hsplit]
        rw [List.append_assoc, List.append_assoc, List.cons_append]
      · rw [List.length_append, marks_length, List.length_take]
        omega
    -- the error of the run is the one of the refused byte
    obtain ⟨_, _, _, _, _, _, _, _, _, _, hres'⟩ := failsAt_of_badAt hhere
    rw [hres] at hres'
    rw [first_err_eq hres']
    exact hhere

theorem allOk_or_failsAt (maxSize maxSegs : Usize) (fs : List (List β)) :
    AllOk maxSize maxSegs fs ∨ ∃ i e, FailsAt maxSize maxSegs fs i e := by
  rcases Scanner.clean_or_badAt (scanner maxSize maxSegs) .start (marks fs) with h | ⟨i, e, h⟩
  · exact .inl ((allOk_iff fs).mpr h)
  · exact .inr ⟨i, e, (failsAt_iff fs i e).mpr h⟩

theorem AllOk.not_failsAt {fs : List (List β)} (h : AllOk maxSize maxSegs fs) (i : Nat)
    (e : ChunkError) : ¬ FailsAt maxSize maxSegs fs i e := fun hf =>
  ((failsAt_iff fs i e).mp hf).not_clean ((allOk_iff fs).mp h)

theorem allOk_iff_not_failsAt (fs : List (List β)) :
    AllOk maxSize maxSegs fs ↔ ∀ i e, ¬ FailsAt maxSize maxSegs fs i e := by
  refine ⟨AllOk.not_failsAt, fun h => ?_⟩
  rcases allOk_or_failsAt maxSize maxSegs fs with hok | ⟨i, e, hf⟩
  · exact hok
  · exact absurd hf (h i e)

theorem FailsAt.unique {fs : List (List β)} {i j : Nat} {e e' : ChunkError}
    (h : FailsAt maxSize maxSegs fs i e) (h' : FailsAt maxSize maxSegs fs j e') : i = j ∧ e = e' :=
  ((failsAt_iff fs i e).mp h).unique ((failsAt_iff fs j e').mp h')

end ChunkDecoder
end Bolt
