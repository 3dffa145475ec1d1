import BoltWire.Lib.Descent

/-!
# Readers that look no further than they need

A reader of an input of which more may come: it either ends, in a way that nothing after the part it
has taken can change, or asks for more with an error of its own.

* `Reads x enc r`   on input that begins with `enc`, `x` takes exactly `enc` and ends as `r`;
* `Online e x`      on every input `x` so ends after some beginning of it, or asks for more with `e`;
* `Online.short`    a proper part of what `x` takes makes it ask for more;
* `Viable e l x`    an input on which `x` asks for more goes on, by at most `l` elements, to one that
                    is accepted as a whole;
* `Hungry e l x`    all this, and there is no other error;
* `countOne_online`, `count_viable`   the loop over nested values; some value without children is to
                    fit in one element.
-/

namespace Rust.Call
variable {β ε α γ τ : Type} {e : ε}

def Reads (x : Call (List β) ε α) (enc : List β) (r : Res ε α) : Prop :=
  ∀ rest, x (enc ++ rest) = (r, rest)

def Online (e : ε) (x : Call (List β) ε α) : Prop :=
  ∀ data, (∃ enc r, enc <+: data ∧ r ≠ .err e ∧ Reads x enc r) ∨ (x data).1 = .err e

/-- an end that is no request for more is reached on what was taken -/
theorem Online.reads {x : Call (List β) ε α} (hx : Online e x) {data rest : List β} {r : Res ε α}
    (h : x data = (r, rest)) (hr : r ≠ .err e) : ∃ enc, data = enc ++ rest ∧ Reads x enc r := by
  rcases hx data with ⟨enc, r', ⟨t, rfl⟩, -, hreads⟩ | hmore
  · have h1 := hreads t
    rw [h] at h1
    cases h1
    exact ⟨enc, rfl, hreads⟩
  · rw [h] at hmore
    exact absurd hmore hr

theorem Online.short {x : Call (List β) ε α} (hx : Online e x) {enc part : List β} {r : Res ε α}
    (h : Reads x enc r) (hpart : part <+: enc) (hne : part ≠ enc) : (x part).1 = .err e := by
  rcases hx part with ⟨enc', r', ⟨s, rfl⟩, -, hreads⟩ | hmore
  · obtain ⟨t, rfl⟩ := hpart
    have h1 := h []
    rw [List.append_nil, List.append_assoc, hreads (s ++ t)] at h1
    have hst : s ++ t = [] := congrArg Prod.snd h1
    obtain ⟨-, rfl⟩ := List.append_eq_nil_iff.mp hst
    exact absurd (List.append_nil _).symm hne
  · exact hmore

theorem Online.pure (a : α) : Online e (pure a : Call (List β) ε α) := by
  intro data
  exact .inl ⟨[], .ok a, List.nil_prefix, nofun, fun rest => rfl⟩

theorem Online.err (e' : ε) : Online e (err e' : Call (List β) ε α) := by
  intro data
  by_cases h : e' = e
  · right
    rw [h]
    rfl
  · exact .inl ⟨[], .err e', List.nil_prefix, fun h' => h (Res.err.inj h'), fun rest => rfl⟩

theorem Online.spin : Online e (spin : Call (List β) ε α) := by
  intro data
  exact .inl ⟨[], .spin, List.nil_prefix, nofun, fun rest => rfl⟩

/-- what is taken by two calls in a row -/
theorem Reads.bind {x : Call (List β) ε α} {f : α → Call (List β) ε γ} {enc enc' : List β} {a : α}
    {r : Res ε γ} (hx : Reads x enc (.ok a)) (hf : Reads (f a) enc' r) :
    Reads (x >>= f) (enc ++ enc') r := by
  intro rest
  rw [List.append_assoc, bind_ok (hx _)]
  exact hf rest

/-- a value that a call returns on some input -/
def Gives (x : Call (List β) ε α) (a : α) : Prop := ∃ data rest, x data = (.ok a, rest)

theorem Online.bind {x : Call (List β) ε α} {f : α → Call (List β) ε γ} (hx : Online e x)
    (hf : ∀ a, Gives x a → Online e (f a)) : Online e (x >>= f) := by
  intro data
  rcases hx data with ⟨enc, r, ⟨mid, rfl⟩, hr, hreads⟩ | hmore
  · cases r with
    | ok a =>
      rcases hf a ⟨_, _, hreads mid⟩ mid with ⟨enc', r', hpre, hr', hreads'⟩ | hmore
      · exact .inl ⟨enc ++ enc', r', (List.prefix_append_right_inj enc).mpr hpre, hr',
          hreads.bind hreads'⟩
      · right
        rw [bind_ok (hreads mid)]
        exact hmore
    | err e' =>
      refine .inl ⟨enc, .err e', List.prefix_append enc mid, fun h => hr (by cases h; rfl), ?_⟩
      exact fun rest => bind_err (hreads rest) f
    | panic =>
      refine .inl ⟨enc, .panic, List.prefix_append enc mid, nofun, fun rest => ?_⟩
      rw [bind_run, hreads rest]
    | spin =>
      refine .inl ⟨enc, .spin, List.prefix_append enc mid, nofun, fun rest => ?_⟩
      rw [bind_run, hreads rest]
  · exact .inr (bind_fails hmore f)

theorem Online.ite {p : Prop} [Decidable p] {x y : Call (List β) ε α} (hx : p → Online e x)
    (hy : ¬ p → Online e y) : Online e (if p then x else y) := by
  by_cases h : p
  · rw [if_pos h]
    exact hx h
  · rw [if_neg h]
    exact hy h

theorem Online.whileLoop {cond : τ → Bool} {body : τ → Call (List β) ε τ}
    (hb : ∀ t, Online e (body t)) (n : Nat) : ∀ t, Online e (whileLoop cond body n t) := by
  induction n with
  | zero => exact fun t => Online.spin
  | succ n ih => exact fun t => Online.ite (fun _ => (hb t).bind fun t' _ => ih t') fun _ => Online.pure t

/-! ## inputs that can be completed -/

def Viable (e : ε) (l : Nat) (x : Call (List β) ε α) : Prop :=
  ∀ data, (x data).1 = .err e → ∃ t a, t.length ≤ l ∧ x (data ++ t) = (.ok a, [])

structure Hungry (e : ε) (l : Nat) (x : Call (List β) ε α) : Prop where
  online : Online e x
  ends : ∀ data, (∃ a, (x data).1 = .ok a) ∨ (x data).1 = .err e
  viable : Viable e l x

theorem Hungry.pure (a : α) : Hungry e 0 (pure a : Call (List β) ε α) where
  online := Online.pure a
  ends _ := .inl ⟨a, rfl⟩
  viable data h := by cases h

theorem Hungry.mono {x : Call (List β) ε α} {l l' : Nat} (hx : Hungry e l x) (h : l ≤ l') :
    Hungry e l' x where
  online := hx.online
  ends := hx.ends
  viable data hd := by
    obtain ⟨t, a, ht, hrun⟩ := hx.viable data hd
    exact ⟨t, a, Nat.le_trans ht h, hrun⟩

/-- on an empty input a hungry reader takes nothing, or can be given what it wants -/
theorem Hungry.start {x : Call (List β) ε α} {l : Nat} (hx : Hungry e l x) :
    ∃ t a, t.length ≤ l ∧ x t = (.ok a, []) := by
  rcases hx.ends [] with ⟨a, ha⟩ | hmore
  · rcases hd : x [] with ⟨r, rest⟩
    rw [hd] at ha
    obtain rfl : r = .ok a := ha
    obtain ⟨enc, henc, -⟩ := hx.online.reads hd nofun
    obtain ⟨-, rfl⟩ := List.append_eq_nil_iff.mp henc.symm
    exact ⟨[], a, Nat.zero_le l, hd⟩
  · exact hx.viable [] hmore

/-- the second call is made on what the first one leaves of the input -/
theorem Viable.bind {x : Call (List β) ε α} {f : α → Call (List β) ε γ} {l l' : Nat}
    (ho : Online e x) (hx : Viable e l x) (hf : ∀ a, Gives x a → Hungry e l' (f a)) :
    Viable e (l + l') (x >>= f) := by
  intro data hd
  rcases hxd : x data with ⟨r, mid⟩
  rw [bind_run, hxd] at hd
  cases r with
  | ok a =>
    obtain ⟨t, c, ht, hrun⟩ := (hf a ⟨data, mid, hxd⟩).viable mid hd
    obtain ⟨enc, rfl, hreads⟩ := ho.reads hxd nofun
    refine ⟨t, c, Nat.le_trans ht (Nat.le_add_left l' l), ?_⟩
    rw [List.append_assoc, bind_ok (hreads (mid ++ t)), hrun]
  | err e' =>
    obtain rfl : e' = e := Res.err.inj hd
    obtain ⟨t, a, ht, hrun⟩ := hx data (congrArg Prod.fst hxd)
    obtain ⟨t', c, ht', hrun'⟩ := (hf a ⟨_, _, hrun⟩).start
    obtain ⟨enc, henc, hreads⟩ := ho.reads hrun nofun
    rw [List.append_nil] at henc
    refine ⟨t ++ t', c, ?_, ?_⟩
    · rw [List.length_append]
      exact Nat.add_le_add ht ht'
    · rw [← List.append_assoc, henc, bind_ok (hreads t'), hrun']
  | panic => cases hd
  | spin => cases hd

theorem Hungry.bind {x : Call (List β) ε α} {f : α → Call (List β) ε γ} {l k : Nat}
    (hx : Hungry e l x) (hf : ∀ a, Gives x a → Hungry e k (f a)) :
    Hungry e (l + k) (x >>= f) where
  online := hx.online.bind fun a ha => (hf a ha).online
  ends data := by
    rcases hx.ends data with ⟨a, ha⟩ | hmore
    · have hxd : x data = (.ok a, (x data).2) := Prod.ext ha rfl
      rw [bind_ok hxd]
      exact (hf a ⟨data, _, hxd⟩).ends _
    · exact .inr (bind_fails hmore f)
  viable := Viable.bind hx.online hx.viable hf

/-- a last step that does not read -/
theorem Hungry.map {x : Call (List β) ε α} {l : Nat} (hx : Hungry e l x) (f : α → γ) :
    Hungry e l (x >>= fun a => Pure.pure (f a)) := hx.bind fun a _ => Hungry.pure (f a)

/-! ## nested values -/

section
variable {head : Call (List β) ε Nat}

/-- the bound of the loop for one value grows with the input, but it is never reached -/
theorem countOne_online {add : Nat → Nat → Call (List β) ε Nat} (hc : Consumes head)
    (ho : Online e head) (ha : ∀ k m, Shrinks (add k m)) (hoa : ∀ k m, Online e (add k m)) :
    Online e (countOne add head) := by
  have hloop : ∀ n, Online e (whileLoop owed (countStep add head) n 1 >>= fun _ => Pure.pure ()) :=
    fun n => (Online.whileLoop (fun k => ho.bind fun m _ => hoa (k - 1) m) n 1).bind fun _ _ =>
      Online.pure ()
  intro data
  by_cases hmore : (countOne add head data).1 = .err e
  · exact .inr hmore
  · obtain ⟨enc, henc, -⟩ := (hloop (data.length + 1)).reads (rfl : _ = countOne add head data) hmore
    refine .inl ⟨enc, (countOne add head data).1, ⟨_, henc.symm⟩, hmore, fun rest => ?_⟩
    have hlen : data.length < data.length + rest.length + 1 := by omega
    obtain ⟨enc', henc', hreads⟩ := (hloop (data.length + rest.length + 1)).reads
      (countOne_fuel hc ha hlen).symm hmore
    obtain rfl := List.append_cancel_right (henc.symm.trans henc')
    have hlen' : (enc ++ rest).length < data.length + rest.length + 1 := by
      have := congrArg List.length henc
      rw [List.length_append] at this ⊢
      omega
    rw [countOne_fuel hc ha hlen']
    exact hreads rest

/-- values without children -/
theorem count_units {u : β} (hu : Takes head [u] 0) : ∀ k n, k < n →
    whileLoop owed (countStep unbounded head) n k (List.replicate k u) = (.ok 0, []) := by
  intro k
  induction k with
  | zero =>
    intro n hn
    obtain ⟨n, rfl⟩ := Nat.exists_eq_succ_of_ne_zero (Nat.ne_zero_of_lt hn)
    exact count_stop unbounded n []
  | succ k ih =>
    intro n hn
    obtain ⟨n, rfl⟩ := Nat.exists_eq_succ_of_ne_zero (Nat.ne_zero_of_lt hn)
    have hu1 : head (u :: List.replicate k u) = (.ok 0, List.replicate k u) := hu _
    rw [count_next, List.replicate_succ, bind_ok hu1]
    exact ih n (Nat.lt_of_succ_lt_succ hn)

/-- **Values that are owed can be supplied**: the head that is cut gets its rest, and then each value
that is still owed is one without children. -/
theorem count_viable (ho : Online e head) {l w : Nat} (hv : Viable e l head) (hc : Consumes head)
    (hw : Safe (· ≤ w) head) {u : β} (hu : Takes head [u] 0) (n : Nat) : ∀ k data,
    data.length < n → (whileLoop owed (countStep unbounded head) n k data).1 = .err e →
    ∃ t, t.length ≤ l + k + w * (data.length + 1) ∧ ∀ n', (data ++ t).length < n' →
      whileLoop owed (countStep unbounded head) n' k (data ++ t) = (.ok 0, []) := by
  have hle : ∀ {data m rest}, head data = (.ok m, rest) → m ≤ w := by
    intro data m rest hd
    have h := (hw data).1
    rw [hd] at h
    exact h
  induction n with
  | zero => intro k data hn; omega
  | succ n ih =>
    intro k data hn hmore
    cases k with
    | zero =>
      rw [count_stop] at hmore
      cases hmore
    | succ k =>
      rw [count_next, bind_run] at hmore
      rcases hd : head data with ⟨r, rest⟩
      rw [hd] at hmore
      cases r with
      | ok m =>
        have hlt := hc data m rest hd
        have hm := hle hd
        obtain ⟨t, ht, hrun⟩ := ih (k + m) rest (by omega) hmore
        obtain ⟨enc, rfl, hreads⟩ := ho.reads hd nofun
        refine ⟨t, ?_, fun n' hn' => ?_⟩
        · have hmul : w * (rest.length + 1 + 1) ≤ w * ((enc ++ rest).length + 1) :=
            Nat.mul_le_mul_left w (Nat.succ_le_succ hlt)
          rw [Nat.mul_add, Nat.mul_one] at hmul
          omega
        · obtain ⟨n', rfl⟩ := Nat.exists_eq_succ_of_ne_zero (Nat.ne_zero_of_lt hn')
          rw [List.append_assoc] at hn' ⊢
          rw [count_next, bind_ok (hreads (rest ++ t))]
          refine hrun n' ?_
          rw [List.length_append] at hn' hlt
          omega
      | err e' =>
        obtain rfl : e' = e := Res.err.inj hmore
        obtain ⟨t, m, ht, hrun⟩ := hv data (congrArg Prod.fst hd)
        have hm := hle hrun
        obtain ⟨enc, henc, hreads⟩ := ho.reads hrun nofun
        rw [List.append_nil] at henc
        refine ⟨t ++ List.replicate (k + m) u, ?_, fun n' hn' => ?_⟩
        · rw [List.length_append, List.length_replicate, Nat.mul_add, Nat.mul_one]
          omega
        · obtain ⟨n', rfl⟩ := Nat.exists_eq_succ_of_ne_zero (Nat.ne_zero_of_lt hn')
          rw [← List.append_assoc] at hn' ⊢
          have hlt := hc _ m [] hrun
          have hlen : (data ++ t ++ List.replicate (k + m) u).length = (data ++ t).length + (k + m) := by
            rw [List.length_append, List.length_replicate]
          rw [hlen] at hn'
          rw [henc, count_next, bind_ok (hreads _)]
          exact count_units hu (k + m) n' (by omega)
      | panic => cases hmore
      | spin => cases hmore

end

end Rust.Call
