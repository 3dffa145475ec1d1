import BoltWire.Lib.Call

/-!
# Readers that take from the front, writers that append at the end

Calls whose state is a list: the unread input of a reader, the output of a writer so far.

* `Takes x enc a`   on input that begins with `enc`, `x` takes exactly `enc` and returns `a`;
* `Puts x enc`      `x` appends exactly `enc`;
* `Takes.bind`, `Puts.bind`   sequences of calls work on concatenated encodings;
* `Takes.cancel`    what a reader takes is determined by the input;
* `flatMap_cancel`  sequences of words that are told apart without a separator;
* `Safe Q x`        on every input `x` returns, drops a prefix of the input, and a value it
                    returns meets `Q`; `Safe.bind`, `Safe.whileLoop`;
* `Shrinks x`, `Consumes x`   the input does not grow, and gets shorter, when `x` returns a value.
-/

namespace Rust

/-- the call came back, and with a value only if it meets `Q` -/
def Res.Meets {ε α : Type} (Q : α → Prop) : Res ε α → Prop
  | .ok a => Q a
  | .err _ => True
  | .panic => False
  | .spin => False

theorem Res.Meets.returns {ε α : Type} {Q : α → Prop} {r : Res ε α} (h : r.Meets Q) :
    r.Returns := by
  cases r with
  | ok a => trivial
  | err e => trivial
  | panic => exact h
  | spin => exact h

namespace Call
variable {β ε α γ τ : Type}

/-! ## encodings -/

def Takes (x : Call (List β) ε α) (enc : List β) (a : α) : Prop :=
  ∀ rest, x (enc ++ rest) = (.ok a, rest)

def Puts (x : Call (List β) ε Unit) (enc : List β) : Prop :=
  ∀ buf, x buf = (.ok (), buf ++ enc)

theorem Takes.pure (a : α) : Takes (pure a : Call (List β) ε α) [] a := fun _ => rfl

theorem Takes.bind {x : Call (List β) ε α} {f : α → Call (List β) ε γ} {enc enc' : List β} {a : α}
    {c : γ} (hx : Takes x enc a) (hf : Takes (f a) enc' c) : Takes (x >>= f) (enc ++ enc') c := by
  intro rest
  rw [List.append_assoc, bind_ok (hx _)]
  exact hf rest

/-- a last step that does not read -/
theorem Takes.map {x : Call (List β) ε α} {enc : List β} {a : α} (hx : Takes x enc a)
    (f : α → γ) : Takes (x >>= fun a => Pure.pure (f a)) enc (f a) := by
  intro rest
  rw [bind_ok (hx rest), pure_run]

theorem Takes.gather {x : Call (List β) ε α} {enc : α → List β} (as : List α)
    (h : ∀ a ∈ as, Takes x (enc a) a) : Takes (gather x as.length) (as.flatMap enc) as := by
  induction as with
  | nil => exact Takes.pure []
  | cons a as ih =>
    have hrest := (ih fun c hc => h c (List.mem_cons_of_mem _ hc)).map (a :: ·)
    rw [List.flatMap_cons]
    exact (h a List.mem_cons_self).bind hrest

theorem Takes.cancel {x : Call (List β) ε α} {enc enc' rest rest' : List β} {a a' : α}
    (h : Takes x enc a) (h' : Takes x enc' a') (e : enc ++ rest = enc' ++ rest') :
    a = a' ∧ rest = rest' := by
  have h1 := h rest
  rw [e, h'] at h1
  cases h1
  exact ⟨rfl, rfl⟩

/-- words that are told apart without a separator make up a sequence in one way -/
theorem flatMap_cancel {enc : γ → List β} {p : γ → Prop}
    (h : ∀ a a' rest rest', p a → p a' → enc a ++ rest = enc a' ++ rest' → a = a' ∧ rest = rest')
    (hne : ∀ a, p a → enc a ≠ []) : ∀ as as' : List γ, (∀ a ∈ as, p a) → (∀ a ∈ as', p a) →
    as.flatMap enc = as'.flatMap enc → as = as' := by
  intro as
  induction as with
  | nil =>
    intro as' _ has' e
    cases as' with
    | nil => rfl
    | cons a' as' =>
      rw [List.flatMap_nil, List.flatMap_cons] at e
      exact absurd (List.append_eq_nil_iff.mp e.symm).1 (hne a' (has' a' List.mem_cons_self))
  | cons a as ih =>
    intro as' has has' e
    have ha := has a List.mem_cons_self
    cases as' with
    | nil =>
      rw [List.flatMap_nil, List.flatMap_cons] at e
      exact absurd (List.append_eq_nil_iff.mp e).1 (hne a ha)
    | cons a' as' =>
      rw [List.flatMap_cons, List.flatMap_cons] at e
      obtain ⟨rfl, hrest⟩ := h a a' _ _ ha (has' a' List.mem_cons_self) e
      rw [ih as' (fun c hc => has c (List.mem_cons_of_mem _ hc))
        (fun c hc => has' c (List.mem_cons_of_mem _ hc)) hrest]

theorem Puts.bind {x : Call (List β) ε Unit} {f : Unit → Call (List β) ε Unit}
    {enc enc' : List β} (hx : Puts x enc) (hf : Puts (f ()) enc') : Puts (x >>= f) (enc ++ enc') := by
  intro buf
  rw [bind_ok (hx buf), hf, List.append_assoc]

/-! ## readers that are safe on every input -/

def Safe (Q : α → Prop) (x : Call (List β) ε α) : Prop :=
  ∀ data, (x data).1.Meets Q ∧ (x data).2 <:+ data

variable {Q : α → Prop} {Q' : γ → Prop}

theorem Safe.pure {a : α} (h : Q a) : Safe Q (pure a : Call (List β) ε α) :=
  fun data => ⟨h, List.suffix_refl data⟩

theorem Safe.err (e : ε) : Safe Q (err e : Call (List β) ε α) :=
  fun data => ⟨trivial, List.suffix_refl data⟩

theorem Safe.bind {x : Call (List β) ε α} {f : α → Call (List β) ε γ} (hx : Safe Q x)
    (hf : ∀ a, Q a → Safe Q' (f a)) : Safe Q' (x >>= f) := by
  intro data
  obtain ⟨h1, h2⟩ := hx data
  rw [bind_run]
  rcases hxd : x data with ⟨r, rest⟩
  rw [hxd] at h1 h2
  cases r with
  | ok a =>
    obtain ⟨h3, h4⟩ := hf a h1 rest
    exact ⟨h3, h4.trans h2⟩
  | err e => exact ⟨trivial, h2⟩
  | panic => exact h1.elim
  | spin => exact h1.elim

theorem Safe.get {f : List β → Call (List β) ε α} (h : ∀ data, Safe Q (f data)) :
    Safe Q (get >>= f) := fun data => h data data

theorem Safe.ite {p : Prop} [Decidable p] {x y : Call (List β) ε α} (hx : p → Safe Q x)
    (hy : ¬ p → Safe Q y) : Safe Q (if p then x else y) := by
  by_cases h : p
  · rw [if_pos h]
    exact hx h
  · rw [if_neg h]
    exact hy h

/-- a call that never gives back more than it was given -/
def Shrinks (x : Call (List β) ε α) : Prop :=
  ∀ data a rest, x data = (.ok a, rest) → rest.length ≤ data.length

/-- a call that returns a value only after it has taken something -/
def Consumes (x : Call (List β) ε α) : Prop :=
  ∀ data a rest, x data = (.ok a, rest) → rest.length < data.length

theorem Consumes.shrinks {x : Call (List β) ε α} (hx : Consumes x) : Shrinks x :=
  fun data a rest h => Nat.le_of_lt (hx data a rest h)

theorem Shrinks.pure (a : α) : Shrinks (pure a : Call (List β) ε α) := by
  intro data a' rest h
  cases h
  exact Nat.le_refl _

theorem Shrinks.bind {x : Call (List β) ε α} {f : α → Call (List β) ε γ} (hx : Shrinks x)
    (hf : ∀ a, Shrinks (f a)) : Shrinks (x >>= f) := by
  intro data c rest h
  obtain ⟨a, mid, h1, h2⟩ := ok_of_bind h
  exact Nat.le_trans (hf a mid c rest h2) (hx data a mid h1)

theorem Consumes.bind {x : Call (List β) ε α} {f : α → Call (List β) ε γ} (hx : Consumes x)
    (hf : ∀ a, Shrinks (f a)) : Consumes (x >>= f) := by
  intro data c rest h
  obtain ⟨a, mid, h1, h2⟩ := ok_of_bind h
  exact Nat.lt_of_le_of_lt (hf a mid c rest h2) (hx data a mid h1)

theorem Safe.shrinks {x : Call (List β) ε α} (hx : Safe Q x) : Shrinks x := by
  intro data a rest h
  have h1 := (hx data).2
  rw [h] at h1
  exact h1.length_le

/-- the second call is only made on values that `Q` allows -/
theorem Consumes.bind_safe {x : Call (List β) ε α} {f : α → Call (List β) ε γ} (hx : Consumes x)
    (hs : Safe Q x) (hf : ∀ a, Q a → Shrinks (f a)) : Consumes (x >>= f) := by
  intro data c rest h
  obtain ⟨a, mid, h1, h2⟩ := ok_of_bind h
  have ha := (hs data).1
  rw [h1] at ha
  exact Nat.lt_of_le_of_lt (hf a ha mid c rest h2) (hx data a mid h1)

/-- a loop whose body consumes is safe with any bound above the length of the input -/
theorem Safe.whileLoop (cond : τ → Bool) (body : τ → Call (List β) ε τ) {I : τ → Prop}
    (hb : ∀ t, I t → cond t = true → Safe I (body t))
    (hc : ∀ t, I t → cond t = true → Consumes (body t)) (n : Nat) {t : τ} (ht : I t)
    (data : List β) (hn : data.length < n) :
    (whileLoop cond body n t data).1.Meets I ∧ (whileLoop cond body n t data).2 <:+ data := by
  refine whileLoop_rule cond body (fun t s => I t ∧ s <:+ data)
    (fun r s => r.Meets I ∧ s <:+ data) (fun _ s => s.length) ?_ ?_ n t data
    ⟨ht, List.suffix_refl data⟩ hn
  · intro t s hI _
    exact hI
  · rintro t s ⟨hI, hs⟩ hct
    obtain ⟨h1, h2⟩ := hb t hI hct s
    rcases hbs : body t s with ⟨r, s'⟩
    rw [hbs] at h1 h2
    cases r with
    | ok t' => exact .inl ⟨t', s', rfl, ⟨h1, h2.trans hs⟩, hc t hI hct s t' s' hbs⟩
    | err e => exact .inr ⟨e, s', rfl, trivial, h2.trans hs⟩
    | panic => exact h1.elim
    | spin => exact h1.elim

end Call
end Rust
