import BoltWire.Lib.Online

/-!
# Prefix notation and the counter

Words over operators, each followed by as many operands as its arity says.

* `Terms arity k ws`   `ws` is `k` terms in a row;
* `after arity k ws`   what is left behind the first `k` terms, found by counting;
* `after_eq_some_iff`  the two agree;
* `count_words`        the loop over nested values, on the encodings of operators, is this count.
-/

namespace Polish
variable {γ : Type} {arity : γ → Nat}

inductive Terms (arity : γ → Nat) : Nat → List γ → Prop where
  | nil : Terms arity 0 []
  | cons (c : γ) {cs cs' : List γ} {k : Nat} (operands : Terms arity (arity c) cs)
      (rest : Terms arity k cs') : Terms arity (k + 1) (c :: (cs ++ cs'))

/-- the counter is the number of terms that are still to come -/
def after (arity : γ → Nat) : Nat → List γ → Option (List γ)
  | 0, ws => some ws
  | _ + 1, [] => none
  | k + 1, c :: ws => after arity (k + arity c) ws

theorem after_zero (ws : List γ) : after arity 0 ws = some ws := by
  cases ws <;> rfl

theorem after_cons (k : Nat) (c : γ) (ws : List γ) :
    after arity (k + 1) (c :: ws) = after arity (k + arity c) ws := rfl

/-- the terms may be counted in two parts -/
theorem after_add (m : Nat) (ws : List γ) : ∀ k,
    after arity (k + m) ws = (after arity k ws).bind (after arity m) := by
  induction ws with
  | nil =>
    intro k
    cases k with
    | zero => rw [Nat.zero_add, after_zero, Option.bind_some]
    | succ k =>
      rw [Nat.succ_add]
      rfl
  | cons c ws ih =>
    intro k
    cases k with
    | zero => rw [Nat.zero_add, after_zero, Option.bind_some]
    | succ k => rw [Nat.succ_add, after_cons, after_cons, Nat.add_right_comm, ih]

/-- what is counted off does not depend on what follows -/
theorem Terms.after {k : Nat} {ws : List γ} (h : Terms arity k ws) : ∀ rest,
    after arity k (ws ++ rest) = some rest := by
  induction h with
  | nil => exact after_zero
  | cons c operands rest ih ih' =>
    intro tail
    rw [List.cons_append, after_cons, Nat.add_comm, after_add, List.append_assoc, ih,
      Option.bind_some, ih']

/-- terms in a row can be cut between any two of them -/
theorem Terms.split (k : Nat) : ∀ (m : Nat) {ws : List γ}, Terms arity (m + k) ws →
    ∃ us vs, ws = us ++ vs ∧ Terms arity m us ∧ Terms arity k vs := by
  intro m
  induction m with
  | zero =>
    intro ws h
    rw [Nat.zero_add] at h
    exact ⟨[], ws, rfl, .nil, h⟩
  | succ m ih =>
    intro ws h
    rw [Nat.succ_add] at h
    cases h with
    | cons c operands rest =>
      obtain ⟨us, vs, rfl, hus, hvs⟩ := ih rest
      refine ⟨c :: (_ ++ us), vs, ?_, .cons c operands hus, hvs⟩
      rw [List.cons_append, List.append_assoc]

theorem terms_of_after (ws : List γ) : ∀ {k : Nat} {rest : List γ},
    after arity k ws = some rest → ∃ us, ws = us ++ rest ∧ Terms arity k us := by
  induction ws with
  | nil =>
    intro k rest h
    cases k with
    | zero =>
      cases h
      exact ⟨[], rfl, .nil⟩
    | succ k => cases h
  | cons c ws ih =>
    intro k rest h
    cases k with
    | zero =>
      cases h
      exact ⟨[], rfl, .nil⟩
    | succ k =>
      rw [after_cons, Nat.add_comm] at h
      obtain ⟨us, rfl, hus⟩ := ih h
      obtain ⟨vs, vs', rfl, hvs, hvs'⟩ := Terms.split k (arity c) hus
      exact ⟨c :: (vs ++ vs'), rfl, .cons c hvs hvs'⟩

/-- **Counting is parsing.** -/
theorem after_eq_some_iff {k : Nat} {ws rest : List γ} :
    after arity k ws = some rest ↔ ∃ us, ws = us ++ rest ∧ Terms arity k us := by
  constructor
  · exact terms_of_after ws
  · rintro ⟨us, rfl, h⟩
    exact h.after rest

theorem after_nil_iff {k : Nat} {ws : List γ} :
    after arity k ws = some [] ↔ Terms arity k ws := by
  rw [after_eq_some_iff]
  constructor
  · rintro ⟨us, rfl, h⟩
    rw [List.append_nil]
    exact h
  · exact fun h => ⟨ws, (List.append_nil ws).symm, h⟩

/-! ## encoded operators -/

open Rust Rust.Call
variable {β ε : Type} {head : Call (List β) ε Nat} {enc : γ → List β} {e : ε}

/-- the loop on whole operators, which runs out of input only between two of them -/
theorem count_words (hc : Consumes head) (hnil : head [] = (.err e, [])) (ws : List γ) :
    (∀ c ∈ ws, Takes head (enc c) (arity c)) → ∀ k n, (ws.flatMap enc).length < n →
    whileLoop owed (countStep unbounded head) n k (ws.flatMap enc)
      = match after arity k ws with
        | some rest => (.ok 0, rest.flatMap enc)
        | none => (.err e, []) := by
  induction ws with
  | nil =>
    intro _ k n hn
    obtain ⟨n, rfl⟩ := Nat.exists_eq_succ_of_ne_zero (Nat.ne_zero_of_lt hn)
    cases k with
    | zero => exact count_stop unbounded n _
    | succ k =>
      rw [count_next]
      exact bind_err hnil _
  | cons c ws ih =>
    intro h k n hn
    obtain ⟨n, rfl⟩ := Nat.exists_eq_succ_of_ne_zero (Nat.ne_zero_of_lt hn)
    cases k with
    | zero => exact count_stop unbounded n _
    | succ k =>
      have htake := h c List.mem_cons_self (ws.flatMap enc)
      have hlt := hc _ _ _ htake
      rw [List.flatMap_cons] at hn ⊢
      rw [count_next, bind_ok htake, after_cons]
      exact ih (fun c' hc' => h c' (List.mem_cons_of_mem _ hc')) (k + arity c) n (by omega)

variable (arity enc) in
theorem countOne_words (hc : Consumes head) (hnil : head [] = (.err e, [])) {ws : List γ}
    (h : ∀ c ∈ ws, Takes head (enc c) (arity c)) :
    countOne unbounded head (ws.flatMap enc) = match after arity 1 ws with
      | some rest => (.ok (), rest.flatMap enc)
      | none => (.err e, []) := by
  unfold countOne
  rw [bind_run, count_words hc hnil ws h 1 _ (Nat.lt_succ_self _)]
  cases after arity 1 ws <;> rfl

end Polish
