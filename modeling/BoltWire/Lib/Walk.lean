import BoltWire.Lib.Descent

/-!
# Walks over nested values

A reader of nested values need not treat them all alike: it may enter a value (read its head, and
then its children one after the other), or have it skipped in one call.

* `walk`             such a reader; `plan` says which values it enters, and names them by their paths;
* `walk_eq_descend`  where the skipping of one value is recursive descent, every walk is;
* `tolerate`         a caller that goes on after one kind of error;
* `UpTo`             a call that does what another one does, unless it stops with a certain error;
* `UpTo.walk`, `Sim.walk`, `Sim.tolerate`   walks in place of walks.
-/

set_option linter.unusedSectionVars false

namespace Rust.Call
variable {σ σ' β ε α γ : Type}

/-- `n` calls, numbered from `i` on -/
def inOrder (x : Nat → Call σ ε Unit) : Nat → Nat → Call σ ε Unit
  | 0, _ => pure ()
  | n + 1, i => x i >>= fun _ => inOrder x n (i + 1)

/-- the path of a value: its number among the children of its parent, and so on up to the root -/
def walk (enter : Call σ ε Nat) (skip : Call σ ε Unit) (plan : List Nat → Bool) :
    Nat → List Nat → Call σ ε Unit
  | 0, _ => spin
  | fuel + 1, path =>
    if plan path then
      enter >>= fun n => inOrder (fun i => walk enter skip plan fuel (i :: path)) n 0
    else skip

/-! ## walks and descent -/

section
variable {head : Call (List β) ε Nat}

theorem inOrder_eq_times {x : Nat → Call (List β) ε Unit} {y : Call (List β) ε Unit} {l : Nat}
    (hy : Shrinks y) (h : ∀ i data, data.length ≤ l → x i data = y data) (n : Nat) :
    ∀ i data, data.length ≤ l → inOrder x n i data = times n y data := by
  induction n with
  | zero => intro i data _; rfl
  | succ n ih =>
    intro i data hl
    show (x i >>= fun _ => inOrder x n (i + 1)) data = (y >>= fun _ => times n y) data
    rw [bind_run (x i), h i data hl]
    refine (bind_run y _ data).symm.trans (bind_congr_run fun a rest hyd => ?_)
    exact ih (i + 1) rest (Nat.le_trans (hy data a rest hyd) hl)

/-- **Every walk is the descent**, whatever it enters and whatever it skips: it takes the same bytes
and fails alike. -/
theorem walk_eq_descend (hc : Consumes head) {skip : Call (List β) ε Unit} {limit : Nat}
    (hs : ∀ data, data.length < limit → skip data = descend head (data.length + 1) data)
    (plan : List Nat → Bool) (fuel : Nat) : ∀ path data, data.length < fuel → data.length < limit →
    walk head skip plan fuel path data = descend head fuel data := by
  induction fuel with
  | zero => intro path data h; omega
  | succ fuel ih =>
    intro path data hf hl
    unfold walk
    cases plan path with
    | false =>
      rw [if_neg Bool.false_ne_true, hs data hl]
      exact descend_fuel hc _ _ data (Nat.lt_succ_self _) hf
    | true =>
      rw [if_pos rfl]
      refine bind_congr_run fun n rest hd => ?_
      have hlt := hc data n rest hd
      refine inOrder_eq_times (l := rest.length) (descend_consumes hc fuel).shrinks ?_ n 0 rest
        (Nat.le_refl _)
      intro i data' hl'
      exact ih (i :: path) data' (by omega) (by omega)

end

/-! ## errors that are put up with -/

section
variable [DecidableEq ε]

/-- the call, with `a` for its value where it fails with `e` -/
def tolerate (e : ε) (a : α) (x : Call σ ε α) : Call σ ε α := fun s =>
  match x s with
  | (.err e', s') => if e' = e then (.ok a, s') else (.err e', s')
  | r => r

theorem tolerate_ok (e : ε) (a : α) {x : Call σ ε α} {b : α} {s s' : σ} (h : x s = (.ok b, s')) :
    tolerate e a x s = (.ok b, s') := by
  unfold tolerate
  rw [h]

theorem tolerate_same (a : α) {x : Call σ ε α} {e : ε} {s s' : σ} (h : x s = (.err e, s')) :
    tolerate e a x s = (.ok a, s') := by
  unfold tolerate
  rw [h]
  exact if_pos rfl

theorem tolerate_other (a : α) {x : Call σ ε α} {e e' : ε} {s s' : σ} (h : x s = (.err e', s'))
    (hne : e' ≠ e) : tolerate e a x s = (.err e', s') := by
  unfold tolerate
  rw [h]
  exact if_neg hne

end

/-- `y` does what `x` does, unless it stops with `e` -/
def UpTo (e : ε) (x y : Call σ ε α) : Prop := ∀ s, y s = x s ∨ (y s).1 = .err e

theorem UpTo.refl (e : ε) (x : Call σ ε α) : UpTo e x x := fun _ => .inl rfl

theorem UpTo.bind {e : ε} {x y : Call σ ε α} {f g : α → Call σ ε γ} (hx : UpTo e x y)
    (hf : ∀ a, UpTo e (f a) (g a)) : UpTo e (x >>= f) (y >>= g) := by
  intro s
  rcases hx s with h | h
  · rw [bind_run, bind_run, h]
    rcases x s with ⟨(a | e' | _ | _), s'⟩
    · exact hf a s'
    all_goals exact .inl rfl
  · exact .inr (bind_fails h g)

theorem UpTo.inOrder {e : ε} {x y : Nat → Call σ ε Unit} (h : ∀ i, UpTo e (x i) (y i)) (n : Nat) :
    ∀ i, UpTo e (inOrder x n i) (Call.inOrder y n i) := by
  induction n with
  | zero => exact fun _ => UpTo.refl e _
  | succ n ih => exact fun i => (h i).bind fun _ => ih (i + 1)

theorem UpTo.walk {e : ε} {enter enter' : Call σ ε Nat} (h : UpTo e enter enter')
    (skip : Call σ ε Unit) (plan : List Nat → Bool) (fuel : Nat) :
    ∀ path, UpTo e (walk enter skip plan fuel path) (Call.walk enter' skip plan fuel path) := by
  induction fuel with
  | zero => exact fun _ => UpTo.refl e _
  | succ fuel ih =>
    intro path
    unfold Call.walk
    cases plan path with
    | false => exact UpTo.refl e skip
    | true => exact h.bind fun n => UpTo.inOrder (fun i => ih (i :: path)) n 0

theorem UpTo.tolerate [DecidableEq ε] (e : ε) (a : α) (x : Call σ ε α) :
    UpTo e (tolerate e a x) x := by
  intro s
  rcases h : x s with ⟨(b | e' | _ | _), s'⟩
  · exact .inl (tolerate_ok e a h).symm
  · by_cases he : e' = e
    · exact .inr (by rw [he])
    · exact .inl (tolerate_other a h he).symm
  all_goals
    unfold Call.tolerate
    rw [h]
    exact .inl rfl

/-! ## simulation -/

section
variable {R : σ → σ' → Prop}

theorem Sim.inOrder {x : Nat → Call σ ε Unit} {y : Nat → Call σ' ε Unit}
    (h : ∀ i, Sim R (x i) (y i)) (n : Nat) :
    ∀ i, Sim R (inOrder x n i) (Call.inOrder y n i) := by
  induction n with
  | zero => exact fun _ => Sim.pure ()
  | succ n ih => exact fun i => (h i).bind fun _ => ih (i + 1)

theorem Sim.walk {enter : Call σ ε Nat} {enter' : Call σ' ε Nat} {skip : Call σ ε Unit}
    {skip' : Call σ' ε Unit} (he : Sim R enter enter') (hs : Sim R skip skip')
    (plan : List Nat → Bool) (fuel : Nat) :
    ∀ path, Sim R (walk enter skip plan fuel path) (Call.walk enter' skip' plan fuel path) := by
  induction fuel with
  | zero => exact fun _ => Sim.spin
  | succ fuel ih =>
    intro path
    unfold Call.walk
    exact Sim.ite (fun _ => he.bind fun n => Sim.inOrder (fun i => ih (i :: path)) n 0) fun _ => hs

theorem Sim.tolerate [DecidableEq ε] {x : Call σ ε α} {y : Call σ' ε α} (e : ε) (a : α)
    (h : Sim R x y) : Sim R (tolerate e a x) (Call.tolerate e a y) := by
  intro s t hst
  obtain ⟨h1, h2⟩ := h s t hst
  unfold Call.tolerate
  rcases hx : x s with ⟨r, s'⟩
  rcases hy : y t with ⟨r', t'⟩
  rw [hx, hy] at h1 h2
  subst h1
  cases r with
  | err e' =>
    by_cases he : e' = e
    · simp only [if_pos he]
      exact ⟨trivial, h2⟩
    · simp only [if_neg he]
      exact ⟨trivial, h2⟩
  | _ => exact ⟨rfl, h2⟩

end

end Rust.Call
