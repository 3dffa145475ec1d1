import BoltWire.Lib.Codec

/-!
# Fields of a fixed size

A field is read whole or not at all.  A reader made of fields is not: where it fails, the fields
before have been taken.

* `Field e k x`     `x` takes `k` symbols, or leaves the input as it is and fails with `e`;
* `Field.pure`, `Field.map`   fields in the small;
* `Field.bind_left`  what is left behind two fields in a row when either fails.
-/

namespace Rust.Call
variable {β ε α γ : Type} {e : ε} {k : Nat}

structure Field (e : ε) (k : Nat) (x : Call (List β) ε α) : Prop where
  short : ∀ data, data.length < k → x data = (.err e, data)
  enough : ∀ data, k ≤ data.length → ∃ a, x data = (.ok a, data.drop k)

theorem Field.pure (a : α) : Field e 0 (pure a : Call (List β) ε α) :=
  ⟨fun _ h => absurd h (Nat.not_lt_zero _), fun _ _ => ⟨a, rfl⟩⟩

theorem Field.map {x : Call (List β) ε α} (hx : Field e k x) (f : α → γ) :
    Field e k (x >>= fun a => Pure.pure (f a)) := by
  refine ⟨fun data h => bind_err (hx.short data h) _, fun data h => ?_⟩
  obtain ⟨a, ha⟩ := hx.enough data h
  exact ⟨f a, bind_ok ha _⟩

/-- what a failing field leaves is what was there -/
theorem Field.left {x : Call (List β) ε α} (hx : Field e k x) {data left : List β} {e' : ε}
    (h : x data = (.err e', left)) : e' = e ∧ left = data ∧ data.length < k := by
  by_cases hlt : data.length < k
  · rw [hx.short data hlt] at h
    cases h
    exact ⟨rfl, rfl, hlt⟩
  · obtain ⟨a, ha⟩ := hx.enough data (Nat.le_of_not_lt hlt)
    rw [ha] at h
    cases h

/-- either the first field is cut and nothing is taken, or it is taken and the second one is not -/
theorem Field.bind_left {x : Call (List β) ε α} {f : α → Call (List β) ε γ} {n : α → Nat}
    (hx : Field e k x) (hf : ∀ a, Field e (n a) (f a)) {data left : List β} {e' : ε}
    (h : (x >>= f) data = (.err e', left)) :
    e' = e ∧ left = if data.length < k then data else data.drop k := by
  by_cases hlt : data.length < k
  · rw [bind_err (hx.short data hlt)] at h
    cases h
    exact ⟨rfl, (if_pos hlt).symm⟩
  · obtain ⟨a, ha⟩ := hx.enough data (Nat.le_of_not_lt hlt)
    rw [bind_ok ha] at h
    obtain ⟨rfl, rfl, -⟩ := (hf a).left h
    exact ⟨rfl, (if_neg hlt).symm⟩

end Rust.Call
