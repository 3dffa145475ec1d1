import BoltWire.Lib.Call

/-!
# What a loop costs

* `rounds`         how often a loop runs its body, the round that fails included;
* `rounds_enough`  with that many rounds, and one test more, the loop ends as it does;
* `rounds_le`      a measure that every round lowers bounds them, however the loop ends;
* `rounds_gain`    a loop that returns is paid for by a potential that every round raises.
-/

namespace Rust.Call
variable {σ τ ε : Type}

def rounds (cond : τ → Bool) (body : τ → Call σ ε τ) : Nat → τ → σ → Nat
  | 0, _, _ => 0
  | n + 1, t, s =>
    if cond t then
      match body t s with
      | (.ok t', s') => rounds cond body n t' s' + 1
      | _ => 1
    else 0

variable {cond : τ → Bool} {body : τ → Call σ ε τ} {n : Nat} {t t' : τ} {s s' : σ}

theorem rounds_stop (h : cond t = false) : rounds cond body n t s = 0 := by
  cases n with
  | zero => rfl
  | succ n => simp [rounds, h]

theorem rounds_next (h : cond t = true) (hb : body t s = (.ok t', s')) :
    rounds cond body (n + 1) t s = rounds cond body n t' s' + 1 := by
  simp [rounds, h, hb]

theorem rounds_last (h : cond t = true) (hb : ∀ t', (body t s).1 ≠ .ok t') :
    rounds cond body (n + 1) t s = 1 := by
  rw [rounds, if_pos h]
  rcases hr : body t s with ⟨t' | e | _ | _, s'⟩
  · exact absurd (congrArg Prod.fst hr) (hb t')
  · rfl
  · rfl
  · rfl

/-- any bound above the rounds will do -/
theorem rounds_enough (n : Nat) : ∀ {m : Nat} {t : τ} {s : σ}, rounds cond body n t s < n →
    rounds cond body n t s < m → whileLoop cond body m t s = whileLoop cond body n t s := by
  induction n with
  | zero => exact fun h => absurd h (Nat.not_lt_zero _)
  | succ n ih =>
    intro m t s hn hm
    obtain ⟨m, rfl⟩ := Nat.exists_eq_succ_of_ne_zero (Nat.ne_zero_of_lt hm)
    cases hc : cond t with
    | false => rw [whileLoop_stop hc, whileLoop_stop hc]
    | true =>
      have hrun : ∀ k, whileLoop cond body (k + 1) t s = (body t >>= whileLoop cond body k) s :=
        fun k => congrFun (if_pos hc) s
      rw [hrun, hrun, bind_run, bind_run]
      rcases hr : body t s with ⟨t' | e | _ | _, s'⟩
      · rw [rounds_next hc hr] at hn hm
        exact ih (Nat.lt_of_succ_lt_succ hn) (Nat.lt_of_succ_lt_succ hm)
      all_goals rfl

/-- a round either lowers the measure or is the last one, at a measure that is not yet zero -/
theorem rounds_le (I : τ → σ → Prop) (μ : τ → σ → Nat)
    (step : ∀ t s, I t s → cond t = true → 0 < μ t s ∧
      ∀ t' s', body t s = (.ok t', s') → I t' s' ∧ μ t' s' < μ t s)
    (n : Nat) : ∀ {t : τ} {s : σ}, I t s → rounds cond body n t s ≤ μ t s := by
  induction n with
  | zero => exact fun _ => Nat.zero_le _
  | succ n ih =>
    intro t s hI
    cases hc : cond t with
    | false =>
      rw [rounds_stop hc]
      exact Nat.zero_le _
    | true =>
      obtain ⟨hpos, hnext⟩ := step t s hI hc
      rcases hr : body t s with ⟨t' | e | _ | _, s'⟩
      · obtain ⟨hI', hlt⟩ := hnext t' s' hr
        have hrest := ih hI'
        rw [rounds_next hc hr]
        omega
      all_goals
        rw [rounds_last hc (by simp [hr])]
        exact hpos

/-- **The potential method** for a loop that returns. -/
theorem rounds_gain (I : τ → σ → Prop) (Φ : τ → σ → Nat)
    (step : ∀ t s t' s', I t s → cond t = true → body t s = (.ok t', s') →
      I t' s' ∧ Φ t s + 1 ≤ Φ t' s')
    (n : Nat) : ∀ {t : τ} {s : σ}, I t s → whileLoop cond body n t s = (.ok t', s') →
    I t' s' ∧ rounds cond body n t s + Φ t s ≤ Φ t' s' := by
  induction n with
  | zero => intro t s _ h; cases h
  | succ n ih =>
    intro t s hI h
    cases hc : cond t with
    | false =>
      rw [whileLoop_stop hc] at h
      cases h
      rw [rounds_stop hc, Nat.zero_add]
      exact ⟨hI, Nat.le_refl _⟩
    | true =>
      have hrun : whileLoop cond body (n + 1) t s = (body t >>= whileLoop cond body n) s :=
        congrFun (if_pos hc) s
      rw [hrun] at h
      obtain ⟨t₁, s₁, hb, h⟩ := ok_of_bind h
      obtain ⟨hI₁, hgain⟩ := step t s t₁ s₁ hI hc hb
      obtain ⟨hI', hrest⟩ := ih hI₁ h
      rw [rounds_next hc hb]
      exact ⟨hI', by omega⟩

end Rust.Call
