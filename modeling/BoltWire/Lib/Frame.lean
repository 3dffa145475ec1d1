import BoltWire.Lib.Call

/-!
# What a call leaves as it was

* `Keeps R x`      from every state, however it ends, `x` goes to a related one;
* `Keeps.bind`, `Keeps.whileLoop`   for relations that are reflexive and transitive;
* `Still x`        `x` only looks at the state;
* `Still.bind`     what is made of a look at the state begins in that state.
-/

namespace Rust.Call
variable {σ τ ε α β : Type} {R : σ → σ → Prop}

def Keeps (R : σ → σ → Prop) (x : Call σ ε α) : Prop := ∀ s, R s (x s).2

theorem Keeps.run {x : Call σ ε α} (h : Keeps R x) {s s' : σ} {r : Res ε α} (hrun : x s = (r, s')) :
    R s s' := by
  have hs := h s
  rwa [hrun] at hs

theorem Keeps.bind (ht : ∀ s t u, R s t → R t u → R s u) {x : Call σ ε α} {f : α → Call σ ε β}
    (hx : Keeps R x) (hf : ∀ a, Keeps R (f a)) : Keeps R (x >>= f) := by
  intro s
  have hs := hx s
  rw [bind_run]
  rcases hxs : x s with ⟨(a | e | _ | _), s'⟩
  · rw [hxs] at hs
    exact ht s s' _ hs (hf a s')
  all_goals rw [hxs] at hs; exact hs

/-- a call that begins by looking at the state need only be good for that state -/
theorem Keeps.get {f : σ → Call σ ε α} (h : ∀ s, R s (f s s).2) : Keeps R (get >>= f) := h

theorem Keeps.whileLoop (hr : ∀ s, R s s) (ht : ∀ s t u, R s t → R t u → R s u) {cond : τ → Bool}
    {body : τ → Call σ ε τ} (hb : ∀ t, Keeps R (body t)) (n : Nat) :
    ∀ t, Keeps R (whileLoop cond body n t) := by
  induction n with
  | zero => exact fun t s => hr s
  | succ n ih =>
    intro t
    unfold Call.whileLoop
    cases cond t with
    | true => exact Keeps.bind ht (hb t) ih
    | false => exact fun s => hr s

/-! ## calls that only look -/

def Still (x : Call σ ε α) : Prop := ∀ s, (x s).2 = s

theorem Still.pure (a : α) : Still (pure a : Call σ ε α) := fun _ => rfl

theorem Still.assert (p : Prop) [Decidable p] : Still (assert p : Call σ ε Unit) := by
  intro s
  unfold Call.assert
  by_cases h : p
  · rw [if_pos h]
    rfl
  · rw [if_neg h]
    rfl

theorem Still.bind {x : Call σ ε α} (hx : Still x) {f : α → Call σ ε β} {s : σ} {P : σ → Prop}
    (hs : P s) (hf : ∀ a, P (f a s).2) : P ((x >>= f) s).2 := by
  have hstate := hx s
  rw [bind_run]
  rcases hxs : x s with ⟨(a | e | _ | _), s'⟩
  · rw [hxs] at hstate
    obtain rfl : s' = s := hstate
    exact hf a
  all_goals rw [hxs] at hstate; exact hstate ▸ hs

theorem Still.seq {x : Call σ ε α} (hx : Still x) {f : α → Call σ ε β} (hf : ∀ a, Still (f a)) :
    Still (x >>= f) := fun s =>
  hx.bind (P := fun t => t = s) rfl fun a => hf a s

end Rust.Call
