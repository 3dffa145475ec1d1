import BoltWire.Lib.PrefixCode
import BoltWire.Trees
import BoltWire.Pipeline

/-!
# Messages that break off

* `call_short`, `value_short`   a proper beginning of a call or of a tree makes its reading ask for more;
* `session_cut`, `values_cut`   what is whole is read, and at the cut it stops;
* `reads_cut`         a message that breaks off is never taken for another one.
-/

set_option linter.unusedSectionVars false

namespace Bolt
open Rust Rust.Call PrefixCode

namespace PackStreamReader
variable [BytesCrate]

/-! ## beginnings of what was written -/

theorem call_short {c : WriteCall} (h : ¬ c.TooLong) :
    Short .unexpectedEof (c.op.run : Reader Bytes ReadVal) c.encode :=
  (typed_online c.op_typed).breaks (call_code h).2.2

/-- **A tree that breaks off is asked for**, whatever it is and wherever it does. -/
theorem value_short {v : Value} {depth : Nat} (hd : v.calls.length ≤ depth) (h : v.Fits) :
    Short .unexpectedEof (readValue depth) v.encode :=
  (readValue_settled depth).short (readValue_takes hd h)

end PackStreamReader

/-! ## messages -/

section
variable [BytesCrate] {B : Type} [Buf B] [LawfulBuf B] {b : B} {part : Bytes}

theorem session_append (ops ops' : List ReadOp) (b : B) : (session (ops ++ ops') b).1
    = (session ops b).1 ++ (session ops' (session ops b).2).1 := by
  induction ops generalizing b with
  | nil => rfl
  | cons op ops ih => rw [List.cons_append, session, ih, session, List.cons_append]

/-- the matching reads go through to the call that was cut, and that one asks for more -/
theorem session_cut {calls : List WriteCall} (h : ∀ c ∈ calls, ¬ c.TooLong)
    (hpre : part <+: calls.flatMap WriteCall.encode) (hne : part ≠ calls.flatMap WriteCall.encode) :
    ∃ done c todo, calls = done ++ c :: todo ∧
      (session ((done ++ [c]).map WriteCall.op) part).1.map Prod.fst
        = done.map (fun c => .ok c.val) ++ [.err .unexpectedEof] := by
  obtain ⟨done, c, todo, t, rfl, rfl, hcut, htne⟩ := exists_cut hpre hne
  have hc := h c (List.mem_append_right _ List.mem_cons_self)
  obtain ⟨hreads, hrest⟩ := session_reads done (fun d hd => h d (List.mem_append_left _ hd)) t
  refine ⟨done, c, todo, rfl, ?_⟩
  rw [List.map_append, session_append, List.map_append, hreads, hrest]
  exact congrArg (done.map (fun c => .ok c.val) ++ [·])
    (PackStreamReader.call_short hc t hcut htne)

/-- so do the readings of trees, with any depth that the input cannot exceed -/
theorem values_cut {vs : List Value} (h : ∀ v ∈ vs, v.Fits) (hpre : part <+: written vs)
    (hne : part ≠ written vs) : ∃ done v todo, vs = done ++ v :: todo ∧ ∀ depth, part.length < depth →
      (gather (PackStreamReader.readValue depth) done.length part).1 = .ok done ∧
      ∀ n, done.length < n →
        (gather (PackStreamReader.readValue depth) n part).1 = .err .unexpectedEof := by
  rw [written_trees] at hpre hne
  obtain ⟨done, v, todo, t, rfl, rfl, hcut, htne⟩ := exists_cut hpre hne
  refine ⟨done, v, todo, rfl, fun depth hdepth => ?_⟩
  have hfit : ∀ w ∈ done, w.Fits := fun w hw => h w (List.mem_append_left _ hw)
  have hv : v.Fits := h v (List.mem_append_right _ List.mem_cons_self)
  -- a depth that is enough for the trees themselves
  obtain ⟨deep, hle, hdeep, hvdeep⟩ : ∃ deep, depth ≤ deep ∧
      (∀ w ∈ done, w.calls.length ≤ deep) ∧ v.calls.length ≤ deep := by
    refine ⟨depth + (done.flatMap Value.calls).length + v.calls.length, by omega, fun w hw => ?_,
      by omega⟩
    have hw' := PackStreamReader.length_le_of_mem (f := Value.calls) hw
    omega
  have htakes : ∀ w ∈ done, Takes (PackStreamReader.readValue deep) w.encode w := fun w hw =>
    PackStreamReader.readValue_takes (hdeep w hw) (hfit w hw)
  have halike : ∀ n, gather (PackStreamReader.readValue depth) n (done.flatMap Value.encode ++ t)
      = gather (PackStreamReader.readValue deep) n (done.flatMap Value.encode ++ t) := fun n =>
    (PackStreamReader.readValue_alike depth hle).gather
      (PackStreamReader.readValue_shrinks depth) n _ hdepth
  refine ⟨?_, fun n hn => ?_⟩
  · rw [halike, Takes.gather done htakes t]
  · obtain ⟨k, rfl⟩ := Nat.exists_eq_add_of_lt hn
    rw [halike]
    exact gather_stops (PackStreamReader.value_short hvdeep hv t hcut htne) k done htakes

/-- **A message that breaks off is never taken for another one.**  A buffer holds a proper beginning
of what a writer has written.  The matching reads return what was written as far as it is whole, and
the read at the cut asks for more; a client that reads trees gets the whole ones and asks for more at
the one that is cut, whatever depth it allows beyond the bytes there are. -/
theorem reads_cut (hb : Same b part) :
    (∀ calls : List WriteCall, part <+: (writes calls []).2 → part ≠ (writes calls []).2 →
      ∃ done c todo, kept calls = done ++ c :: todo ∧
        (session ((done ++ [c]).map WriteCall.op) b).1.map Prod.fst
          = done.map (fun c => .ok c.val) ++ [.err .unexpectedEof]) ∧
    ∀ vs : List Value, (∀ v ∈ vs, v.Fits) → part <+: written vs → part ≠ written vs →
      ∃ done v todo, vs = done ++ v :: todo ∧ ∀ depth, Buf.remaining b < depth →
        (gather (PackStreamReader.readValue depth) done.length b).1 = .ok done ∧
        ∀ n, done.length < n →
          (gather (PackStreamReader.readValue depth) n b).1 = .err .unexpectedEof := by
  have hgather : ∀ depth n, (gather (PackStreamReader.readValue depth) n b).1
      = (gather (PackStreamReader.readValue depth) n part).1 := fun depth n =>
    (((PackStreamReader.sim_readValue depth).gather n) b part hb).1
  constructor
  · intro calls hpre hne
    rw [writes_run, List.nil_append, ← flatMap_kept] at hpre hne
    obtain ⟨done, c, todo, hcalls, hcut⟩ := session_cut (fun c hc => mem_kept hc) hpre hne
    refine ⟨done, c, todo, hcalls, ?_⟩
    rw [(session_same _ hb).1]
    exact hcut
  · intro vs hfit hpre hne
    obtain ⟨done, v, todo, hvs, hcut⟩ := values_cut hfit hpre hne
    refine ⟨done, v, todo, hvs, fun depth hdepth => ?_⟩
    rw [hb.remaining] at hdepth
    obtain ⟨hwhole, hmore⟩ := hcut depth hdepth
    exact ⟨(hgather depth _).trans hwhole, fun n hn => (hgather depth n).trans (hmore n hn)⟩

end

/-- a list and the beginning of a number, in two segments -/
theorem reads_cut_two :
    letI := BytesCrate.copying
    ∃ done v todo, [.list [.null], .int 300] = done ++ v :: todo ∧ ∀ depth, 3 < depth →
      (gather (PackStreamReader.readValue depth) done.length
        (⟨[[0x91], [0xC0, 0xC9]], 3⟩ : MessageBuf UInt8)).1 = .ok done ∧
      ∀ n, done.length < n → (gather (PackStreamReader.readValue depth) n
        (⟨[[0x91], [0xC0, 0xC9]], 3⟩ : MessageBuf UInt8)).1 = .err .unexpectedEof := by
  let _ := BytesCrate.copying
  have hb : Same (⟨[[0x91], [0xC0, 0xC9]], 3⟩ : MessageBuf UInt8) [0x91, 0xC0, 0xC9] :=
    ⟨⟨by decide, rfl⟩, rfl⟩
  refine (reads_cut hb).2 [.list [.null], .int 300] ?_ ⟨[1, 44], rfl⟩ (by decide)
  simp [Value.Fits, Value.ItemsFit]

end Bolt
