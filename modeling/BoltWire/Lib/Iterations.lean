import BoltWire.Lib.Call
import Mathlib.Algebra.GroupWithZero.Nat

/-!
# What a loop does, iteration by iteration

* `Iterations`            iterations that came back, each with the locals and the state it began in;
* `whileLoop_iterations`  a loop that returns is such a list, shorter than its bound;
* `Iterations.descends`   a measure that every iteration lowers bounds their number;
* `Iterations.balance`    what the iterations add to a counter, summed up.
-/

namespace Rust.Call
variable {σ τ ε : Type}

inductive Iterations (cond : τ → Bool) (body : τ → Call σ ε τ) :
    τ → σ → List (τ × σ) → τ → σ → Prop where
  | nil (t : τ) (s : σ) : Iterations cond body t s [] t s
  | cons {t t' t'' : τ} {s s' s'' : σ} {its : List (τ × σ)} (goes : cond t = true)
      (runs : body t s = (.ok t', s')) (rest : Iterations cond body t' s' its t'' s'') :
      Iterations cond body t s ((t, s) :: its) t'' s''

variable {cond : τ → Bool} {body : τ → Call σ ε τ} {t t' : τ} {s s' : σ} {its : List (τ × σ)}

/-- the loop behind its first iterations -/
theorem Iterations.whileLoop (h : Iterations cond body t s its t' s') (n : Nat) :
    whileLoop cond body (its.length + n) t s = Call.whileLoop cond body n t' s' := by
  induction h with
  | nil t s => rw [List.length_nil, Nat.zero_add]
  | cons goes runs rest ih => rw [List.length_cons, Nat.succ_add, whileLoop_next goes runs, ih]

theorem whileLoop_iterations (n : Nat) : ∀ {t : τ} {s : σ},
    whileLoop cond body n t s = (.ok t', s') →
    ∃ its, Iterations cond body t s its t' s' ∧ cond t' = false ∧ its.length < n := by
  induction n with
  | zero => intro t s h; cases h
  | succ n ih =>
    intro t s h
    cases hc : cond t with
    | false =>
      rw [whileLoop_stop hc] at h
      cases h
      exact ⟨[], .nil t' s', hc, Nat.succ_pos n⟩
    | true =>
      have hrun : whileLoop cond body (n + 1) t s = (body t >>= whileLoop cond body n) s :=
        congrFun (if_pos hc) s
      rw [hrun] at h
      obtain ⟨t₁, s₁, hb, h⟩ := ok_of_bind h
      obtain ⟨its, hits, hstop, hlen⟩ := ih h
      exact ⟨(t, s) :: its, .cons hc hb hits, hstop, Nat.succ_lt_succ hlen⟩

/-- the loop returns with exactly the iterations after which its condition fails -/
theorem whileLoop_ok_iff {n : Nat} (hn : ∀ its t' s', Iterations cond body t s its t' s' →
    its.length < n) :
    whileLoop cond body n t s = (.ok t', s') ↔
      ∃ its, Iterations cond body t s its t' s' ∧ cond t' = false := by
  constructor
  · intro h
    obtain ⟨its, hits, hstop, -⟩ := whileLoop_iterations n h
    exact ⟨its, hits, hstop⟩
  · rintro ⟨its, hits, hstop⟩
    obtain ⟨m, rfl⟩ := Nat.exists_eq_add_of_lt (hn its t' s' hits)
    rw [Nat.add_assoc, hits.whileLoop, whileLoop_stop hstop]

/-- every iteration lowers the measure, so there are no more of them than it was lowered by -/
theorem Iterations.descends (I : τ → σ → Prop) (μ : σ → Nat)
    (step : ∀ t s t' s', I t s → body t s = (.ok t', s') → I t' s' ∧ μ s' < μ s)
    (h : Iterations cond body t s its t' s') (hI : I t s) : its.length + μ s' ≤ μ s := by
  induction h with
  | nil t s => exact Nat.le_of_eq (Nat.zero_add _)
  | cons goes runs rest ih =>
    obtain ⟨hI', hlt⟩ := step _ _ _ _ hI runs
    have hrest := ih hI'
    rw [List.length_cons]
    omega

/-- every iteration takes one from the counter and adds what it found -/
theorem Iterations.balance (I : τ → σ → Prop) (counter : τ → Nat) (adds : σ → Nat)
    (step : ∀ t s t' s', I t s → body t s = (.ok t', s') →
      I t' s' ∧ counter t' + 1 = counter t + adds s)
    (h : Iterations cond body t s its t' s') (hI : I t s) :
    counter t' + its.length = counter t + (its.map fun i => adds i.2).sum := by
  induction h with
  | nil t s => rfl
  | cons goes runs rest ih =>
    obtain ⟨hI', heq⟩ := step _ _ _ _ hI runs
    have hrest := ih hI'
    simp only [List.length_cons, List.map_cons, List.sum_cons]
    omega

end Rust.Call
