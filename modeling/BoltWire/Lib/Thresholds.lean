import BoltWire.Lib.Scanner

/-!
# Scanners with limits

Scanners that move alike and differ in what they refuse.

* `Laxer S T`        `T` moves like `S` and refuses no more;
* `Laxer.clean`, `Laxer.badAt`   it accepts what `S` accepts, and fails no earlier;
* `peak`             the greatest demand of a stream;
* `clean_iff_peak`   a scanner that refuses what exceeds two limits accepts a stream exactly when
                     neither peak exceeds its own;
* `Held`             batches that come with a parameter each are accepted, each under its own;
* `held_iff_peaks`   they are exactly when no batch asks for more than its own limit.
-/

namespace Scanner
variable {σ ι ο ε : Type} {S T : Scanner σ ι ο ε}

structure Laxer (S T : Scanner σ ι ο ε) : Prop where
  next : T.next = S.next
  bad : ∀ s x, S.bad s x = none → T.bad s x = none

theorem run_of_next (h : T.next = S.next) (s : σ) (xs : List ι) : T.run s xs = S.run s xs := by
  induction xs generalizing s with
  | nil => rfl
  | cons x xs ih => rw [run_cons, run_cons, h, ih]

theorem batches_of_next (h : T.next = S.next) (s : σ) (bs : List (List ι)) :
    T.batches s bs = S.batches s bs := by
  induction bs generalizing s with
  | nil => rfl
  | cons b bs ih => rw [batches_cons, batches_cons, run_of_next h, ih]

theorem batches_length (S : Scanner σ ι ο ε) (s : σ) (bs : List (List ι)) :
    (S.batches s bs).length = bs.length := by
  induction bs generalizing s with
  | nil => rfl
  | cons b bs ih => rw [batches_cons, List.length_cons, ih, List.length_cons]

namespace Laxer

theorem clean (h : Laxer S T) {s : σ} {xs : List ι} (hc : S.Clean s xs) : T.Clean s xs := by
  induction xs generalizing s with
  | nil => trivial
  | cons x xs ih =>
    refine ⟨h.bad s x hc.1, ?_⟩
    rw [h.next]
    exact ih hc.2

theorem badAt (h : Laxer S T) {s : σ} {xs : List ι} {i : Nat} {e : ε} (hb : T.BadAt s xs i e) :
    ∃ j e', S.BadAt s xs j e' ∧ j ≤ i := by
  rcases clean_or_badAt S s xs with hc | ⟨j, e', hb'⟩
  · exact absurd (h.clean hc) hb.not_clean
  · refine ⟨j, e', hb', ?_⟩
    obtain ⟨pre, x, post, rfl, rfl, -, hx⟩ := hb
    rw [run_of_next h.next] at hx
    cases hS : S.bad (S.run s pre).1 x with
    | some e'' => exact hb'.le ⟨pre, x, post, rfl, rfl, hS⟩
    | none =>
      rw [h.bad _ _ hS] at hx
      cases hx

end Laxer

/-! ## peaks -/

variable (S)

def peak (f : σ → ι → Nat) : σ → List ι → Nat
  | _, [] => 0
  | s, x :: xs => max (f s x) (peak f (S.next s x).1 xs)

theorem peak_of_next {S : Scanner σ ι ο ε} (h : T.next = S.next) (f : σ → ι → Nat) (s : σ)
    (xs : List ι) : T.peak f s xs = S.peak f s xs := by
  induction xs generalizing s with
  | nil => rfl
  | cons x xs ih => rw [peak, peak, h, ih]

/-- **Two limits, two peaks**: what is accepted is known from the greatest demands of the stream. -/
theorem clean_iff_peak {f g : σ → ι → Nat} {m n : Nat}
    (h : ∀ s x, S.bad s x = none ↔ f s x ≤ m ∧ g s x ≤ n) (s : σ) (xs : List ι) :
    S.Clean s xs ↔ S.peak f s xs ≤ m ∧ S.peak g s xs ≤ n := by
  induction xs generalizing s with
  | nil => exact ⟨fun _ => ⟨Nat.zero_le m, Nat.zero_le n⟩, fun _ => trivial⟩
  | cons x xs ih =>
    rw [clean_cons, h, ih, peak, peak, Nat.max_le, Nat.max_le]
    exact and_and_and_comm

/-! ## limits that change from batch to batch -/

section
variable {κ : Type}

def peaks (f : σ → ι → Nat) : σ → List (List ι) → List Nat
  | _, [] => []
  | s, b :: bs => S.peak f s b :: peaks f (S.run s b).1 bs

/-- every batch is accepted by the scanner of the parameter that it comes with -/
def Held (S : κ → Scanner σ ι ο ε) : σ → List (κ × List ι) → Prop
  | _, [] => True
  | s, p :: ps => (S p.1).Clean s p.2 ∧ Held S ((S p.1).run s p.2).1 ps

variable {S : κ → Scanner σ ι ο ε} {T : Scanner σ ι ο ε}

theorem Held.left {s : σ} {ps qs : List (κ × List ι)} (h : Held S s (ps ++ qs)) : Held S s ps := by
  induction ps generalizing s with
  | nil => trivial
  | cons p ps ih => exact ⟨h.1, ih h.2⟩

/-- a scanner that refuses no more than each of them accepts what they accept -/
theorem Held.clean {s : σ} {ps : List (κ × List ι)} (hlax : ∀ p ∈ ps, Laxer (S p.1) T)
    (h : Held S s ps) : T.Clean s (ps.map Prod.snd).flatten := by
  induction ps generalizing s with
  | nil => trivial
  | cons p ps ih =>
    have hp := hlax p List.mem_cons_self
    rw [List.map_cons, List.flatten_cons, clean_append, run_of_next hp.next]
    exact ⟨hp.clean h.1, ih (fun q hq => hlax q (List.mem_cons_of_mem p hq)) h.2⟩

/-- **A limit for every batch**: it is asked only for what its own batch demands. -/
theorem held_iff_peaks (hnext : ∀ k, (S k).next = T.next) {f g : σ → ι → Nat} {m : Nat}
    {limit : κ → Nat} (h : ∀ k s x, (S k).bad s x = none ↔ f s x ≤ m ∧ g s x ≤ limit k) (s : σ)
    (ps : List (κ × List ι)) :
    Held S s ps ↔ (∀ n ∈ T.peaks f s (ps.map Prod.snd), n ≤ m) ∧
      List.Forall₂ (fun n k => n ≤ limit k) (T.peaks g s (ps.map Prod.snd)) (ps.map Prod.fst) := by
  induction ps generalizing s with
  | nil => exact ⟨fun _ => ⟨fun n hn => absurd hn List.not_mem_nil, .nil⟩, fun _ => trivial⟩
  | cons p ps ih =>
    rw [Held, clean_iff_peak _ (h p.1), peak_of_next (hnext p.1), peak_of_next (hnext p.1),
      run_of_next (hnext p.1), ih, List.map_cons, List.map_cons, peaks, peaks, List.forall_mem_cons,
      List.forall₂_cons]
    exact and_and_and_comm

end
end Scanner
