import Mathlib.Tactic.Common

/-!
# Calls: stateful computations that return, fail, panic or spin

A method `fn m(&mut self, ..) -> Result<α, ε>` is a `Call σ ε α`: a function of the state `σ` of
`self` that gives the way the call ends (`Res`) together with the state it leaves behind.  The
state is there also after an error, so a caller may go on using the value after a failed call.

* `Res`              a value, an error, a panic, or a loop that used up its bound;
* `Call`             the monad (`?` is `bind`, `return Err(e)` is `err e`, `assert!` is `assert`);
* `gather`           the results of `n` calls;
* `whileLoop`        a `while` loop over local variables `τ` with an explicit iteration bound;
* `whileLoop_rule`   total correctness of such a loop from an invariant and a measure;
* `whileLoop_fuel`, `whileLoop_fails`   the bound beyond the measure; where an error comes from;
* `Sim`              two calls on different states that return the same and keep a relation,
                     closed under everything a method body is made of (`Sim.bind`, `Sim.whileLoop`).
-/

set_option linter.unusedSectionVars false

namespace Rust

/-- how a call ends -/
inductive Res (ε α : Type) where
  | ok (a : α)
  | err (e : ε)
  | panic
  | spin
  deriving DecidableEq, Repr

/-- the call came back to its caller, with a value or with an error -/
def Res.Returns {ε α : Type} : Res ε α → Prop
  | .ok _ => True
  | .err _ => True
  | .panic => False
  | .spin => False

def Res.map {ε α β : Type} (f : α → β) : Res ε α → Res ε β
  | .ok a => .ok (f a)
  | .err e => .err e
  | .panic => .panic
  | .spin => .spin

def Call (σ ε α : Type) : Type := σ → Res ε α × σ

namespace Call
variable {σ σ' τ ε α β : Type}

protected def pure (a : α) : Call σ ε α := fun s => (.ok a, s)

protected def bind (x : Call σ ε α) (f : α → Call σ ε β) : Call σ ε β := fun s =>
  match x s with
  | (.ok a, s') => f a s'
  | (.err e, s') => (.err e, s')
  | (.panic, s') => (.panic, s')
  | (.spin, s') => (.spin, s')

instance : Monad (Call σ ε) where
  pure := Call.pure
  bind := Call.bind

def err (e : ε) : Call σ ε α := fun s => (.err e, s)
def panic : Call σ ε α := fun s => (.panic, s)
def spin : Call σ ε α := fun s => (.spin, s)
def get : Call σ ε σ := fun s => (.ok s, s)
def set (s : σ) : Call σ ε Unit := fun _ => (.ok (), s)
def assert (p : Prop) [Decidable p] : Call σ ε Unit := if p then pure () else panic

@[simp] theorem pure_run (a : α) (s : σ) : (pure a : Call σ ε α) s = (.ok a, s) := rfl
@[simp] theorem err_run (e : ε) (s : σ) : (err e : Call σ ε α) s = (.err e, s) := rfl
@[simp] theorem panic_run (s : σ) : (panic : Call σ ε α) s = (.panic, s) := rfl
@[simp] theorem set_run (s s' : σ) : (set s' : Call σ ε Unit) s = (.ok (), s') := rfl

theorem assert_pos {p : Prop} [Decidable p] (h : p) (s : σ) :
    (assert p : Call σ ε Unit) s = (.ok (), s) := by
  unfold assert
  rw [if_pos h, pure_run]

/-! ## what a sequence of calls does -/

theorem bind_run (x : Call σ ε α) (f : α → Call σ ε β) (s : σ) :
    (x >>= f) s = match x s with
      | (.ok a, s') => f a s'
      | (.err e, s') => (.err e, s')
      | (.panic, s') => (.panic, s')
      | (.spin, s') => (.spin, s') := rfl

theorem bind_ok {x : Call σ ε α} {s s' : σ} {a : α} (h : x s = (.ok a, s'))
    (f : α → Call σ ε β) : (x >>= f) s = f a s' := by
  rw [bind_run, h]

theorem bind_err {x : Call σ ε α} {s s' : σ} {e : ε} (h : x s = (.err e, s'))
    (f : α → Call σ ε β) : (x >>= f) s = (.err e, s') := by
  rw [bind_run, h]

/-- the same where the state after the error does not matter -/
theorem bind_fails {x : Call σ ε α} {s : σ} {e : ε} (h : (x s).1 = .err e) (f : α → Call σ ε β) :
    ((x >>= f) s).1 = .err e := congrArg Prod.fst (bind_err (Prod.ext h rfl) f)

@[simp] theorem pure_bind_run (a : α) (f : α → Call σ ε β) (s : σ) :
    ((pure a : Call σ ε α) >>= f) s = f a s := rfl
@[simp] theorem get_bind_run (f : σ → Call σ ε β) (s : σ) :
    ((get : Call σ ε σ) >>= f) s = f s s := rfl
@[simp] theorem set_bind_run (s s' : σ) (f : Unit → Call σ ε β) :
    ((set s' : Call σ ε Unit) >>= f) s = f () s' := rfl

theorem assert_bind_pos {p : Prop} [Decidable p] (h : p) (f : Unit → Call σ ε β) (s : σ) :
    ((assert p : Call σ ε Unit) >>= f) s = f () s := bind_ok (assert_pos h s) f

theorem bind_assoc_run {γ : Type} (x : Call σ ε α) (f : α → Call σ ε β) (g : β → Call σ ε γ) :
    x >>= f >>= g = x >>= fun a => f a >>= g := by
  funext s
  rw [bind_run, bind_run, bind_run]
  rcases x s with ⟨(_ | _ | _ | _), s'⟩ <;> rfl

theorem bind_pure_run (x : Call σ ε α) : (x >>= fun a => pure a) = x := by
  funext s
  rw [bind_run]
  rcases x s with ⟨(_ | _ | _ | _), s'⟩ <;> rfl

theorem bind_unit (x : Call σ ε Unit) : (x >>= fun _ => pure ()) = x := bind_pure_run x

/-- what comes after `x` matters only for what `x` can return -/
theorem bind_congr_run {x : Call σ ε α} {f g : α → Call σ ε β} {s : σ}
    (h : ∀ a s', x s = (.ok a, s') → f a s' = g a s') : (x >>= f) s = (x >>= g) s := by
  rw [bind_run, bind_run]
  rcases hx : x s with ⟨(a | e | _ | _), s'⟩
  · exact h a s' hx
  all_goals rfl

theorem ok_of_bind {x : Call σ ε α} {f : α → Call σ ε β} {s s' : σ} {b : β}
    (h : (x >>= f) s = (.ok b, s')) : ∃ a mid, x s = (.ok a, mid) ∧ f a mid = (.ok b, s') := by
  rw [bind_run] at h
  rcases hx : x s with ⟨(a | e | _ | _), mid⟩
  · rw [hx] at h
    exact ⟨a, mid, rfl, h⟩
  all_goals rw [hx] at h; cases h

/-- the results of `n` calls in a row -/
def gather (x : Call σ ε α) : Nat → Call σ ε (List α)
  | 0 => pure []
  | n + 1 => do
    let a ← x
    let as ← gather x n
    pure (a :: as)

/-! ## loops -/

/-- `while cond { body }` over the local variables `τ`, for at most the given number of
iterations; a loop that needs more spins -/
def whileLoop (cond : τ → Bool) (body : τ → Call σ ε τ) : Nat → τ → Call σ ε τ
  | 0, _ => spin
  | n + 1, t => if cond t then body t >>= whileLoop cond body n else pure t

theorem whileLoop_stop {cond : τ → Bool} {t : τ} (h : cond t = false)
    (body : τ → Call σ ε τ) (n : Nat) (s : σ) :
    whileLoop cond body (n + 1) t s = (.ok t, s) := by
  show (if cond t = true then body t >>= whileLoop cond body n else pure t) s = _
  rw [h, if_neg Bool.false_ne_true, pure_run]

theorem whileLoop_next {cond : τ → Bool} {body : τ → Call σ ε τ} {t t' : τ} {s s' : σ}
    (h : cond t = true) (hb : body t s = (.ok t', s')) (n : Nat) :
    whileLoop cond body (n + 1) t s = whileLoop cond body n t' s' := by
  show (if cond t = true then body t >>= whileLoop cond body n else pure t) s = _
  rw [if_pos h, bind_ok hb]

theorem whileLoop_err {cond : τ → Bool} {body : τ → Call σ ε τ} {t : τ} {s s' : σ} {e : ε}
    (h : cond t = true) (hb : body t s = (.err e, s')) (n : Nat) :
    whileLoop cond body (n + 1) t s = (.err e, s') := by
  show (if cond t = true then body t >>= whileLoop cond body n else pure t) s = _
  rw [if_pos h, bind_err hb]

/-- two bodies that agree where the loop can come -/
theorem whileLoop_congr {cond : τ → Bool} {body body' : τ → Call σ ε τ} (I : τ → Prop)
    (h : ∀ t, I t → cond t = true → body t = body' t)
    (hI : ∀ t s t' s', body' t s = (.ok t', s') → I t') (n : Nat) :
    ∀ t s, I t → whileLoop cond body n t s = whileLoop cond body' n t s := by
  induction n with
  | zero => intro t s _; rfl
  | succ n ih =>
    intro t s ht
    show (if cond t = true then body t >>= whileLoop cond body n else pure t : Call σ ε τ) s
      = (if cond t = true then body' t >>= whileLoop cond body' n else pure t : Call σ ε τ) s
    by_cases hc : cond t = true
    · rw [if_pos hc, if_pos hc, h t ht hc]
      exact bind_congr_run fun t' s' hb => ih t' s' (hI t s t' s' hb)
    · rw [if_neg hc, if_neg hc]

/-- **Total correctness of a loop.**  Every iteration from a state of the invariant `I` goes on
in `I` with a smaller measure or leaves with an error that `Q` accepts; a bound above the
measure is then never used up. -/
theorem whileLoop_rule (cond : τ → Bool) (body : τ → Call σ ε τ) (I : τ → σ → Prop)
    (Q : Res ε τ → σ → Prop) (μ : τ → σ → Nat)
    (stop : ∀ t s, I t s → cond t = false → Q (.ok t) s)
    (step : ∀ t s, I t s → cond t = true →
      (∃ t' s', body t s = (.ok t', s') ∧ I t' s' ∧ μ t' s' < μ t s) ∨
      (∃ e s', body t s = (.err e, s') ∧ Q (.err e) s')) (n : Nat) :
    ∀ t s, I t s → μ t s < n → Q (whileLoop cond body n t s).1 (whileLoop cond body n t s).2 := by
  induction n with
  | zero => intro t s _ h; omega
  | succ n ih =>
    intro t s hI hμ
    cases hc : cond t with
    | false =>
      rw [whileLoop_stop hc]
      exact stop t s hI hc
    | true =>
      rcases step t s hI hc with ⟨t', s', hb, hI', hlt⟩ | ⟨e, s', hb, hQ⟩
      · rw [whileLoop_next hc hb]
        exact ih t' s' hI' (by omega)
      · rw [whileLoop_err hc hb]
        exact hQ

/-- a bound above the measure is as good as any other -/
theorem whileLoop_fuel (cond : τ → Bool) (body : τ → Call σ ε τ) (I : τ → σ → Prop) (μ : σ → Nat)
    (step : ∀ t s t' s', I t s → cond t = true → body t s = (.ok t', s') → I t' s' ∧ μ s' < μ s)
    (n : Nat) : ∀ m t s, I t s → μ s < n → μ s < m →
    whileLoop cond body n t s = whileLoop cond body m t s := by
  induction n with
  | zero => intro m t s _ h; omega
  | succ n ih =>
    intro m t s hI hn hm
    obtain ⟨m, rfl⟩ := Nat.exists_eq_succ_of_ne_zero (Nat.ne_zero_of_lt hm)
    show (if cond t = true then body t >>= whileLoop cond body n else pure t : Call σ ε τ) s
      = (if cond t = true then body t >>= whileLoop cond body m else pure t : Call σ ε τ) s
    by_cases hc : cond t = true
    · rw [if_pos hc, if_pos hc]
      refine bind_congr_run fun t' s' hb => ?_
      obtain ⟨hI', hlt⟩ := step t s t' s' hI hc hb
      exact ih m t' s' hI' (by omega) (by omega)
    · rw [if_neg hc, if_neg hc]

/-- a loop that fails does so in one of its iterations -/
theorem whileLoop_fails {cond : τ → Bool} {body : τ → Call σ ε τ} (I : τ → σ → Prop)
    (step : ∀ t s t' s', I t s → body t s = (.ok t', s') → I t' s') {e : ε} (n : Nat) :
    ∀ {t s s'}, I t s → whileLoop cond body n t s = (.err e, s') →
    ∃ t₀ s₀, I t₀ s₀ ∧ body t₀ s₀ = (.err e, s') := by
  induction n with
  | zero => intro t s s' _ h; cases h
  | succ n ih =>
    intro t s s' hI h
    cases hc : cond t with
    | false =>
      rw [whileLoop_stop hc] at h
      cases h
    | true =>
      rcases hb : body t s with ⟨(t' | e' | _ | _), mid⟩
      · rw [whileLoop_next hc hb] at h
        exact ih (step t s t' mid hI hb) h
      · rw [whileLoop_err hc hb] at h
        cases h
        exact ⟨t, s, hI, hb⟩
      all_goals
        have hrun : whileLoop cond body (n + 1) t s = (body t >>= whileLoop cond body n) s :=
          congrFun (if_pos hc) s
        rw [hrun, bind_run, hb] at h
        cases h

/-! ## simulation -/

/-- from related states the two calls end the same way, in related states -/
def Sim (R : σ → σ' → Prop) (x : Call σ ε α) (y : Call σ' ε α) : Prop :=
  ∀ s t, R s t → (x s).1 = (y t).1 ∧ R (x s).2 (y t).2

section
variable {R : σ → σ' → Prop}

theorem Sim.pure (a : α) : Sim R (pure a : Call σ ε α) (pure a) := fun _ _ h => ⟨rfl, h⟩
theorem Sim.err (e : ε) : Sim R (err e : Call σ ε α) (Call.err e) := fun _ _ h => ⟨rfl, h⟩
theorem Sim.panic : Sim R (panic : Call σ ε α) Call.panic := fun _ _ h => ⟨rfl, h⟩
theorem Sim.spin : Sim R (spin : Call σ ε α) Call.spin := fun _ _ h => ⟨rfl, h⟩

theorem Sim.bind {x : Call σ ε α} {y : Call σ' ε α} {f : α → Call σ ε β} {g : α → Call σ' ε β}
    (hx : Sim R x y) (hf : ∀ a, Sim R (f a) (g a)) : Sim R (x >>= f) (y >>= g) := by
  intro s t h
  obtain ⟨h1, h2⟩ := hx s t h
  rw [bind_run, bind_run]
  rcases hxs : x s with ⟨r, s'⟩
  rcases hyt : y t with ⟨r', t'⟩
  rw [hxs, hyt] at h1 h2
  cases h1
  cases r with
  | ok a => exact hf a s' t' h2
  | err e => exact ⟨rfl, h2⟩
  | panic => exact ⟨rfl, h2⟩
  | spin => exact ⟨rfl, h2⟩

theorem Sim.ite {p : Prop} [Decidable p] {x x' : Call σ ε α} {y y' : Call σ' ε α}
    (hp : p → Sim R x y) (hn : ¬ p → Sim R x' y') :
    Sim R (if p then x else x') (if p then y else y') := by
  by_cases h : p
  · rw [if_pos h, if_pos h]
    exact hp h
  · rw [if_neg h, if_neg h]
    exact hn h

theorem Sim.gather {x : Call σ ε α} {y : Call σ' ε α} (h : Sim R x y) (n : Nat) :
    Sim R (gather x n) (Call.gather y n) := by
  induction n with
  | zero => exact Sim.pure []
  | succ n ih => exact h.bind fun a => ih.bind fun as => Sim.pure (a :: as)

theorem Sim.whileLoop {cond : τ → Bool} {body : τ → Call σ ε τ} {body' : τ → Call σ' ε τ}
    (hb : ∀ t, Sim R (body t) (body' t)) (n : Nat) :
    ∀ t, Sim R (whileLoop cond body n t) (Call.whileLoop cond body' n t) := by
  induction n with
  | zero => intro t; exact Sim.spin
  | succ n ih => intro t; exact Sim.ite (fun _ => (hb t).bind ih) (fun _ => Sim.pure t)

end

end Call
end Rust
