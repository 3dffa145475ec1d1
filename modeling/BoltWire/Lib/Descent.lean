import BoltWire.Lib.Codec

/-!
# A counter instead of recursion

A format of nested values: a head says how many values follow it as its children.  A parser may
recur into the children, or loop with one counter of the values that are still owed.

* `times`, `descend`   the recursive parser (its fuel bounds the depth);
* `countStep`          one round of the loop, with a counter that may refuse to grow;
* `descend_fuel`       fuel above the length of the input changes nothing;
* `count_eq_descend`   a counter without a bound does what the recursion does;
* `count_of_bounded`, `bounded_of_count`   a bounded counter succeeds on the same inputs;
* `bounded_eq_count`   and never notices its bound if the input is short;
* `countOne`           the loop for one value, with the same four facts.
-/

namespace Rust.Call
variable {β ε : Type}

def times : Nat → Call (List β) ε Unit → Call (List β) ε Unit
  | 0, _ => pure ()
  | n + 1, x => x >>= fun _ => times n x

def descend (head : Call (List β) ε Nat) : Nat → Call (List β) ε Unit
  | 0 => spin
  | fuel + 1 => head >>= fun n => times n (descend head fuel)

def owed (k : Nat) : Bool := decide (0 < k)

/-- one of the `k` values that are owed; `add` adds its children to the others -/
def countStep (add : Nat → Nat → Call (List β) ε Nat) (head : Call (List β) ε Nat) (k : Nat) :
    Call (List β) ε Nat := head >>= fun n => add (k - 1) n

def unbounded (k n : Nat) : Call (List β) ε Nat := pure (k + n)

def bounded (limit : Nat) (e : ε) (k n : Nat) : Call (List β) ε Nat :=
  if k + n < limit then pure (k + n) else err e

variable {head : Call (List β) ε Nat}

theorem times_add (m n : Nat) (x : Call (List β) ε Unit) :
    times (m + n) x = times m x >>= fun _ => times n x := by
  induction m with
  | zero =>
    rw [Nat.zero_add]
    rfl
  | succ m ih =>
    rw [Nat.succ_add]
    show (x >>= fun _ => times (m + n) x) = (x >>= fun _ => times m x) >>= fun _ => times n x
    rw [ih, bind_assoc_run]

theorem times_shrinks {x : Call (List β) ε Unit} (hx : Shrinks x) (n : Nat) :
    Shrinks (times n x) := by
  induction n with
  | zero => exact Shrinks.pure ()
  | succ n ih => exact hx.bind fun _ => ih

theorem descend_consumes (hc : Consumes head) (fuel : Nat) : Consumes (descend head fuel) := by
  induction fuel with
  | zero => intro data a rest h; cases h
  | succ fuel ih => exact hc.bind fun n => times_shrinks ih.shrinks n

theorem times_congr {x y : Call (List β) ε Unit} {l : Nat} (hx : Shrinks x)
    (h : ∀ data, data.length ≤ l → x data = y data) (n : Nat) :
    ∀ data, data.length ≤ l → times n x data = times n y data := by
  induction n with
  | zero => intro data _; rfl
  | succ n ih =>
    intro data hl
    show (x >>= fun _ => times n x) data = (y >>= fun _ => times n y) data
    rw [bind_run y, ← h data hl]
    exact bind_congr_run fun a rest hxd => ih rest (Nat.le_trans (hx data a rest hxd) hl)

theorem descend_fuel (hc : Consumes head) (fuel : Nat) : ∀ fuel' data,
    data.length < fuel → data.length < fuel' → descend head fuel data = descend head fuel' data := by
  induction fuel with
  | zero => intro fuel' data h; omega
  | succ fuel ih =>
    intro fuel' data h h'
    obtain ⟨fuel', rfl⟩ := Nat.exists_eq_succ_of_ne_zero (Nat.ne_zero_of_lt h')
    refine bind_congr_run fun m rest hd => ?_
    have hlt := hc data m rest hd
    exact times_congr (l := rest.length) (descend_consumes hc fuel).shrinks
      (fun data' hl => ih fuel' data' (by omega) (by omega)) m rest (Nat.le_refl _)

/-- the children of a value may be read with the fuel of the value itself -/
theorem descend_run (hc : Consumes head) {fuel : Nat} {data : List β} (hf : data.length < fuel) :
    descend head fuel data = (head >>= fun m => times m (descend head fuel)) data := by
  obtain ⟨fuel, rfl⟩ := Nat.exists_eq_succ_of_ne_zero (Nat.ne_zero_of_lt hf)
  refine bind_congr_run fun m rest hd => ?_
  have hlt := hc data m rest hd
  exact times_congr (l := rest.length) (descend_consumes hc fuel).shrinks
    (fun data' hl => descend_fuel hc fuel _ data' (by omega) (by omega)) m rest (Nat.le_refl _)

/-! ## the loop -/

theorem count_stop (add : Nat → Nat → Call (List β) ε Nat) (n : Nat) (data : List β) :
    whileLoop owed (countStep add head) (n + 1) 0 data = (.ok 0, data) :=
  whileLoop_stop rfl _ n data

theorem count_next (add : Nat → Nat → Call (List β) ε Nat) (n k : Nat) (data : List β) :
    whileLoop owed (countStep add head) (n + 1) (k + 1) data
      = (head >>= fun m => add k m >>= whileLoop owed (countStep add head) n) data := by
  show (if owed (k + 1) = true then _ else _ : Call (List β) ε Nat) data = _
  rw [if_pos (show owed (k + 1) = true from decide_eq_true (Nat.succ_pos k)), countStep,
    Nat.add_sub_cancel, bind_assoc_run]

/-- **The loop is the recursion.**  A counter of `k` stands for `k` values in a row, whatever
containers they belong to. -/
theorem count_eq_descend (hc : Consumes head) (fuel n : Nat) : ∀ k data, data.length < n →
    data.length < fuel →
    whileLoop owed (countStep unbounded head) n k data
      = (times k (descend head fuel) >>= fun _ => pure 0) data := by
  induction n with
  | zero => intro k data h; omega
  | succ n ih =>
    intro k data hn hf
    cases k with
    | zero => rw [count_stop]; rfl
    | succ k =>
      show _ = ((descend head fuel >>= fun _ => times k (descend head fuel)) >>= fun _ => pure 0) data
      rw [count_next, bind_assoc_run, bind_run (descend head fuel), descend_run hc hf, ← bind_run,
        bind_assoc_run]
      refine bind_congr_run fun m rest hd => ?_
      have hlt := hc data m rest hd
      show whileLoop owed (countStep unbounded head) n (k + m) rest = _
      rw [ih (k + m) rest (by omega) (by omega), Nat.add_comm k m, times_add, bind_assoc_run]

/-! ## the bound of the counter -/

theorem bounded_run {limit : Nat} (e : ε) {k n : Nat} (h : k + n < limit) :
    (bounded limit e k n : Call (List β) ε Nat) = pure (k + n) := if_pos h

/-- the bound only refuses -/
theorem count_of_bounded (limit : Nat) (e : ε) (n : Nat) : ∀ k data t rest,
    whileLoop owed (countStep (bounded limit e) head) n k data = (.ok t, rest) →
    whileLoop owed (countStep unbounded head) n k data = (.ok t, rest) := by
  induction n with
  | zero => intro k data t rest h; cases h
  | succ n ih =>
    intro k data t rest h
    cases k with
    | zero => rw [count_stop] at h ⊢; exact h
    | succ k =>
      rw [count_next] at h ⊢
      obtain ⟨m, mid, hd, h⟩ := ok_of_bind h
      rw [bind_ok hd]
      by_cases hlt : k + m < limit
      · rw [bounded_run e hlt] at h
        exact ih (k + m) mid t rest h
      · rw [bounded, if_neg hlt] at h
        cases h

/-- a run that succeeds takes at least one element for every value it owed -/
theorem count_le (hc : Consumes head) (n : Nat) : ∀ k data t rest,
    whileLoop owed (countStep unbounded head) n k data = (.ok t, rest) → k ≤ data.length := by
  induction n with
  | zero => intro k data t rest h; cases h
  | succ n ih =>
    intro k data t rest h
    cases k with
    | zero => exact Nat.zero_le _
    | succ k =>
      rw [count_next] at h
      obtain ⟨m, mid, hd, h⟩ := ok_of_bind h
      have h1 := ih (k + m) mid t rest h
      have h2 := hc data m mid hd
      omega

theorem bounded_of_count (hc : Consumes head) {limit : Nat} (e : ε) (n : Nat) : ∀ k data t rest,
    data.length < limit →
    whileLoop owed (countStep unbounded head) n k data = (.ok t, rest) →
    whileLoop owed (countStep (bounded limit e) head) n k data = (.ok t, rest) := by
  induction n with
  | zero => intro k data t rest _ h; cases h
  | succ n ih =>
    intro k data t rest hl h
    cases k with
    | zero => rw [count_stop] at h ⊢; exact h
    | succ k =>
      rw [count_next] at h ⊢
      obtain ⟨m, mid, hd, h⟩ := ok_of_bind h
      have h1 : k + m ≤ mid.length := count_le hc n _ mid t rest h
      have h2 := hc data m mid hd
      rw [bind_ok hd, bounded_run e (by omega)]
      exact ih (k + m) mid t rest (by omega) h

/-- **A short input cannot overflow the counter**, whether it is well-formed or not: every value
that is owed was declared by a head, a head declares at most `w`, and heads take input. -/
theorem bounded_eq_count (hc : Consumes head) {w limit : Nat} (hw : Safe (· ≤ w) head) (e : ε)
    (n : Nat) : ∀ k data, k + w * data.length < limit →
    whileLoop owed (countStep (bounded limit e) head) n k data
      = whileLoop owed (countStep unbounded head) n k data := by
  induction n with
  | zero => intro k data _; rfl
  | succ n ih =>
    intro k data hl
    cases k with
    | zero => rw [count_stop, count_stop]
    | succ k =>
      rw [count_next, count_next]
      refine bind_congr_run fun m rest hd => ?_
      have hm : m ≤ w := by
        have h := (hw data).1
        rw [hd] at h
        exact h
      have hlt : w * (rest.length + 1) ≤ w * data.length := Nat.mul_le_mul_left w (hc data m rest hd)
      rw [Nat.mul_add, Nat.mul_one] at hlt
      rw [bounded_run e (by omega)]
      exact ih (k + m) rest (by omega)

/-! ## one value -/

/-- the loop for one value, with a bound that the input cannot use up -/
def countOne (add : Nat → Nat → Call (List β) ε Nat) (head : Call (List β) ε Nat) :
    Call (List β) ε Unit := fun data =>
  (whileLoop owed (countStep add head) (data.length + 1) 1 >>= fun _ => pure ()) data

/-- so any bound above the length of the input will do -/
theorem countOne_fuel {add : Nat → Nat → Call (List β) ε Nat} (hc : Consumes head)
    (ha : ∀ k m, Shrinks (add k m)) {n : Nat} {data : List β} (hn : data.length < n) :
    countOne add head data
      = (whileLoop owed (countStep add head) n 1 >>= fun _ => pure ()) data := by
  have hfuel := whileLoop_fuel owed (countStep add head) (fun _ _ => True) List.length
    (fun k s k' s' _ _ h => ⟨trivial, hc.bind (fun m => ha (k - 1) m) s k' s' h⟩) (data.length + 1) n
    1 data trivial (Nat.lt_succ_self _) hn
  unfold countOne
  rw [bind_run, hfuel, ← bind_run]

theorem countOne_safe {add : Nat → Nat → Call (List β) ε Nat} {Q : Nat → Prop} (hc : Consumes head)
    (hs : Safe Q head) (ha : ∀ k m, Safe (fun _ => True) (add k m)) :
    Safe (fun _ => True) (countOne add head) := by
  intro data
  obtain ⟨h1, h2⟩ := Safe.whileLoop owed (countStep add head) (I := fun _ => True)
    (fun k _ _ => hs.bind fun m _ => ha (k - 1) m)
    (fun k _ _ => hc.bind fun m => (ha (k - 1) m).shrinks) (data.length + 1) (t := 1) trivial data
    (Nat.lt_succ_self _)
  unfold countOne
  rw [bind_run]
  rcases hloop : whileLoop owed (countStep add head) (data.length + 1) 1 data with ⟨r, rest⟩
  rw [hloop] at h1 h2
  cases r with
  | ok k => exact ⟨trivial, h2⟩
  | err e => exact ⟨trivial, h2⟩
  | panic => exact h1.elim
  | spin => exact h1.elim

theorem countOne_descend (hc : Consumes head) (data : List β) :
    countOne unbounded head data = descend head (data.length + 1) data := by
  have hcount := count_eq_descend hc (data.length + 1) (data.length + 1) 1 data
    (Nat.lt_succ_self _) (Nat.lt_succ_self _)
  unfold countOne
  rw [bind_run, hcount, ← bind_run, bind_assoc_run]
  show ((descend head (data.length + 1) >>= fun _ => pure ()) >>= fun _ => pure ()) data = _
  rw [bind_unit, bind_unit]

theorem countOne_ok_iff (hc : Consumes head) {limit : Nat} (e : ε) {data : List β}
    (hl : data.length < limit) (rest : List β) :
    countOne (bounded limit e) head data = (.ok (), rest) ↔
      countOne unbounded head data = (.ok (), rest) := by
  constructor
  · intro h
    obtain ⟨k, mid, hloop, h⟩ := ok_of_bind h
    exact (bind_ok (count_of_bounded _ _ _ _ _ _ _ hloop) _).trans h
  · intro h
    obtain ⟨k, mid, hloop, h⟩ := ok_of_bind h
    exact (bind_ok (bounded_of_count hc _ _ _ _ _ _ hl hloop) _).trans h

theorem countOne_eq (hc : Consumes head) {w limit : Nat} (hw : Safe (· ≤ w) head) (e : ε)
    {data : List β} (hl : 1 + w * data.length < limit) :
    countOne (bounded limit e) head data = countOne unbounded head data := by
  unfold countOne
  rw [bind_run, bind_run, bounded_eq_count hc hw e _ 1 data hl]

end Rust.Call
