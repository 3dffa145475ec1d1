import BoltWire.Lib.Codec

/-!
# Readers that agree on short inputs

The fuel of a recursive reader is a bound on the depth of its recursion; it does not matter as long
as it exceeds the length of the input.

* `Alike l x y`      `x` and `y` do the same on every input shorter than `l`;
* `Alike.bind`, `Alike.gather`   calls that never lengthen their input keep it short;
* `Alike.consume`    behind a call that takes something the input is shorter;
* `Ends l x`         `x` comes back from every input shorter than `l`, with the same rules.
-/

namespace Rust.Call
variable {β ε α γ : Type} {l : Nat}

def Alike (l : Nat) (x y : Call (List β) ε α) : Prop := ∀ data, data.length < l → x data = y data

theorem Alike.refl (l : Nat) (x : Call (List β) ε α) : Alike l x x := fun _ _ => rfl

theorem Alike.bind {x y : Call (List β) ε α} {f g : α → Call (List β) ε γ} (hx : Alike l x y)
    (hs : Shrinks x) (hf : ∀ a, Alike l (f a) (g a)) : Alike l (x >>= f) (y >>= g) := by
  intro data hl
  rw [bind_run y, ← hx data hl]
  exact bind_congr_run fun a rest hd => hf a rest (Nat.lt_of_le_of_lt (hs data a rest hd) hl)

theorem Alike.consume {x : Call (List β) ε α} {f g : α → Call (List β) ε γ} (hx : Consumes x)
    (hf : ∀ a, Alike l (f a) (g a)) : Alike (l + 1) (x >>= f) (x >>= g) := by
  intro data hl
  exact bind_congr_run fun a rest hd =>
    hf a rest (Nat.lt_of_lt_of_le (hx data a rest hd) (Nat.le_of_lt_succ hl))

theorem Shrinks.gather {x : Call (List β) ε α} (hx : Shrinks x) (n : Nat) : Shrinks (gather x n) := by
  induction n with
  | zero => exact Shrinks.pure []
  | succ n ih => exact hx.bind fun a => ih.bind fun as => Shrinks.pure (a :: as)

theorem Alike.gather {x y : Call (List β) ε α} (h : Alike l x y) (hs : Shrinks x) (n : Nat) :
    Alike l (gather x n) (gather y n) := by
  induction n with
  | zero => exact Alike.refl l _
  | succ n ih =>
    exact h.bind hs fun a => ih.bind (hs.gather n) fun as => Alike.refl l _

/-! ## calls that come back -/

def Ends (l : Nat) (x : Call (List β) ε α) : Prop :=
  ∀ data, data.length < l → (x data).1.Returns

theorem Safe.ends {Q : α → Prop} {x : Call (List β) ε α} (hx : Safe Q x) (l : Nat) : Ends l x :=
  fun data _ => (hx data).1.returns

theorem Ends.pure (a : α) : Ends l (pure a : Call (List β) ε α) := fun _ _ => trivial

/-- the second call is only made on what the first one has left -/
theorem ends_bind {x : Call (List β) ε α} {f : α → Call (List β) ε γ} {data : List β}
    (hx : (x data).1.Returns) (hf : ∀ a rest, x data = (.ok a, rest) → (f a rest).1.Returns) :
    ((x >>= f) data).1.Returns := by
  rw [bind_run]
  rcases hr : x data with ⟨a | e | _ | _, rest⟩
  · exact hf a rest hr
  · trivial
  all_goals
    rw [hr] at hx
    exact hx

theorem Ends.bind {x : Call (List β) ε α} {f : α → Call (List β) ε γ} (hx : Ends l x)
    (hs : Shrinks x) (hf : ∀ a, Ends l (f a)) : Ends l (x >>= f) := fun data hl =>
  ends_bind (hx data hl) fun a rest hr => hf a rest (Nat.lt_of_le_of_lt (hs data a rest hr) hl)

theorem Ends.consume {x : Call (List β) ε α} {f : α → Call (List β) ε γ} (hx : Ends (l + 1) x)
    (hc : Consumes x) (hf : ∀ a, Ends l (f a)) : Ends (l + 1) (x >>= f) := fun data hl =>
  ends_bind (hx data hl) fun a rest hr =>
    hf a rest (Nat.lt_of_lt_of_le (hc data a rest hr) (Nat.le_of_lt_succ hl))

theorem Ends.gather {x : Call (List β) ε α} (h : Ends l x) (hs : Shrinks x) (n : Nat) :
    Ends l (gather x n) := by
  induction n with
  | zero => exact Ends.pure []
  | succ n ih => exact h.bind hs fun a => ih.bind (hs.gather n) fun as => Ends.pure (a :: as)

end Rust.Call
