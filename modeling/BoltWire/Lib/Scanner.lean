import Mathlib.Tactic.Common
import Mathlib.Data.List.Forall2

/-!
# Scanners: machines that read a stream symbol by symbol and may refuse a symbol

A `Scanner` says what a symbol does to the state (`next`, with at most one output) and, separately,
which symbols are refused in which states (`bad`, with the reason).

* `run`     reads a stream and refuses nothing: the layout the scanner gives to the stream;
* `scan`    reads up to the first refused symbol; the outputs before it are kept;
* `Clean`   no symbol of the stream is refused;
* `clean_or_bad`, `scan_clean`, `scan_bad`   the two ways a scan can end; `BadAt` the second one;
* `batches`, `clean_or_bad_batch`   the same for a stream that comes in batches;
* `Clean.inv`, `Clean.out`   what every symbol keeps, a run keeps;
* `Follows`, `Follows.run`, `Follows.clean`, `Follows.badAt`   a second scanner that keeps step
  with the first one.
-/

set_option linter.unusedSectionVars false

structure Scanner (σ ι ο ε : Type) where
  next : σ → ι → σ × Option ο
  bad : σ → ι → Option ε

namespace Scanner
variable {σ ι ο ε : Type} (S : Scanner σ ι ο ε)

def run : σ → List ι → σ × List ο
  | s, [] => (s, [])
  | s, x :: xs =>
    let t := run (S.next s x).1 xs
    (t.1, (S.next s x).2.toList ++ t.2)

def scan : σ → List ι → List ο × Except ε σ
  | s, [] => ([], .ok s)
  | s, x :: xs =>
    match S.bad s x with
    | some e => ([], .error e)
    | none =>
      let t := scan (S.next s x).1 xs
      ((S.next s x).2.toList ++ t.1, t.2)

def Clean : σ → List ι → Prop
  | _, [] => True
  | s, x :: xs => S.bad s x = none ∧ Clean (S.next s x).1 xs

theorem run_nil (s : σ) : S.run s [] = (s, []) := rfl
theorem run_cons (s : σ) (x : ι) (xs : List ι) :
    S.run s (x :: xs) = ((S.run (S.next s x).1 xs).1,
      (S.next s x).2.toList ++ (S.run (S.next s x).1 xs).2) := rfl

theorem run_append (s : σ) (xs ys : List ι) :
    S.run s (xs ++ ys) = ((S.run (S.run s xs).1 ys).1,
      (S.run s xs).2 ++ (S.run (S.run s xs).1 ys).2) := by
  induction xs generalizing s with
  | nil => rfl
  | cons x xs ih => rw [List.cons_append, run_cons, ih, run_cons, List.append_assoc]

theorem run_snoc (s : σ) (xs : List ι) (x : ι) :
    S.run s (xs ++ [x]) = ((S.next (S.run s xs).1 x).1,
      (S.run s xs).2 ++ (S.next (S.run s xs).1 x).2.toList) := by
  rw [run_append, run_cons, run_nil, List.append_nil]

theorem clean_cons (s : σ) (x : ι) (xs : List ι) :
    S.Clean s (x :: xs) ↔ S.bad s x = none ∧ S.Clean (S.next s x).1 xs := Iff.rfl

theorem clean_append (s : σ) (xs ys : List ι) :
    S.Clean s (xs ++ ys) ↔ S.Clean s xs ∧ S.Clean (S.run s xs).1 ys := by
  induction xs generalizing s with
  | nil => exact ⟨fun h => ⟨trivial, h⟩, fun h => h.2⟩
  | cons x xs ih => rw [List.cons_append, clean_cons, ih, clean_cons, run_cons, and_assoc]

theorem clean_snoc (s : σ) (xs : List ι) (x : ι) :
    S.Clean s (xs ++ [x]) ↔ S.Clean s xs ∧ S.bad (S.run s xs).1 x = none := by
  rw [clean_append, clean_cons]
  exact and_congr_right fun _ => ⟨fun h => h.1, fun h => ⟨h, trivial⟩⟩

/-! ## how a scan ends -/

theorem scan_cons (s : σ) (x : ι) (xs : List ι) (h : S.bad s x = none) :
    S.scan s (x :: xs) = ((S.next s x).2.toList ++ (S.scan (S.next s x).1 xs).1,
      (S.scan (S.next s x).1 xs).2) := by
  simp only [scan, h]

theorem scan_append (s : σ) (xs ys : List ι) (h : S.Clean s xs) :
    S.scan s (xs ++ ys) = ((S.run s xs).2 ++ (S.scan (S.run s xs).1 ys).1,
      (S.scan (S.run s xs).1 ys).2) := by
  induction xs generalizing s with
  | nil => rfl
  | cons x xs ih =>
    rw [List.cons_append, scan_cons S s x _ h.1, ih _ h.2, run_cons, List.append_assoc]

theorem scan_clean (s : σ) (xs : List ι) (h : S.Clean s xs) :
    S.scan s xs = ((S.run s xs).2, .ok (S.run s xs).1) := by
  have e := scan_append S s xs [] h
  rw [List.append_nil] at e
  rw [e]
  show ((S.run s xs).2 ++ [], Except.ok (S.run s xs).1) = _
  rw [List.append_nil]

theorem scan_bad (s : σ) (pre : List ι) (x : ι) (post : List ι) (e : ε) (h : S.Clean s pre)
    (hx : S.bad (S.run s pre).1 x = some e) :
    S.scan s (pre ++ x :: post) = ((S.run s pre).2, .error e) := by
  have hb : S.scan (S.run s pre).1 (x :: post) = ([], .error e) := by
    simp only [scan, hx]
  rw [scan_append S s pre _ h, hb, List.append_nil]

theorem clean_or_bad (s : σ) (xs : List ι) :
    S.Clean s xs ∨ ∃ pre x post e, xs = pre ++ x :: post ∧ S.Clean s pre ∧
      S.bad (S.run s pre).1 x = some e := by
  induction xs generalizing s with
  | nil => exact .inl trivial
  | cons x xs ih =>
    cases hb : S.bad s x with
    | some e => exact .inr ⟨[], x, xs, e, rfl, trivial, hb⟩
    | none =>
      rcases ih (S.next s x).1 with h | ⟨pre, y, post, e, rfl, hp, hy⟩
      · exact .inl ⟨hb, h⟩
      · exact .inr ⟨x :: pre, y, post, e, rfl, ⟨hb, hp⟩, hy⟩

/-- the place of the first refused symbol is unique -/
theorem bad_unique (s : σ) {pre pre' post post' : List ι} {x x' : ι}
    (h : pre ++ x :: post = pre' ++ x' :: post') (hp : S.Clean s pre)
    (hx : S.bad (S.run s pre).1 x ≠ none) (hp' : S.Clean s pre')
    (hx' : S.bad (S.run s pre').1 x' ≠ none) : pre = pre' ∧ x = x' := by
  induction pre generalizing s pre' with
  | nil =>
    cases pre' with
    | nil => exact ⟨rfl, (List.cons.inj h).1⟩
    | cons y pre' =>
      have e : x = y := (List.cons.inj h).1
      exact absurd (e ▸ hp'.1) hx
  | cons y pre ih =>
    cases pre' with
    | nil =>
      have e : y = x' := (List.cons.inj h).1
      exact absurd (e ▸ hp.1) hx'
    | cons y' pre' =>
      obtain ⟨rfl, h2⟩ := List.cons.inj h
      obtain ⟨rfl, rfl⟩ := ih (S.next s y).1 h2 hp.2 hx hp'.2 hx'
      exact ⟨rfl, rfl⟩

/-- the first refused symbol of `xs` is the one at place `i`, for the reason `e` -/
def BadAt (s : σ) (xs : List ι) (i : Nat) (e : ε) : Prop :=
  ∃ pre x post, xs = pre ++ x :: post ∧ pre.length = i ∧ S.Clean s pre ∧
    S.bad (S.run s pre).1 x = some e

theorem clean_or_badAt (s : σ) (xs : List ι) : S.Clean s xs ∨ ∃ i e, S.BadAt s xs i e := by
  rcases clean_or_bad S s xs with h | ⟨pre, x, post, e, h, hc, hx⟩
  · exact .inl h
  · exact .inr ⟨pre.length, e, pre, x, post, h, rfl, hc, hx⟩

variable {S} in
theorem BadAt.unique {s : σ} {xs : List ι} {i j : Nat} {e e' : ε} (h : S.BadAt s xs i e)
    (h' : S.BadAt s xs j e') : i = j ∧ e = e' := by
  obtain ⟨pre, x, post, rfl, rfl, hc, hx⟩ := h
  obtain ⟨pre', x', post', hxs, rfl, hc', hx'⟩ := h'
  have hne : S.bad (S.run s pre).1 x ≠ none := by rw [hx]; exact Option.some_ne_none e
  have hne' : S.bad (S.run s pre').1 x' ≠ none := by rw [hx']; exact Option.some_ne_none e'
  obtain ⟨rfl, rfl⟩ := bad_unique S s hxs hc hne hc' hne'
  rw [hx] at hx'
  exact ⟨rfl, Option.some.inj hx'⟩

/-- the symbol at place `i` is refused; earlier ones may be refused too -/
def RefusedAt (s : σ) (xs : List ι) (i : Nat) (e : ε) : Prop :=
  ∃ pre x post, xs = pre ++ x :: post ∧ pre.length = i ∧ S.bad (S.run s pre).1 x = some e

variable {S} in
theorem BadAt.refused {s : σ} {xs : List ι} {i : Nat} {e : ε} (h : S.BadAt s xs i e) :
    S.RefusedAt s xs i e := by
  obtain ⟨pre, x, post, hxs, hi, -, hx⟩ := h
  exact ⟨pre, x, post, hxs, hi, hx⟩

variable {S} in
theorem RefusedAt.not_clean {s : σ} {xs : List ι} {i : Nat} {e : ε} (h : S.RefusedAt s xs i e) :
    ¬ S.Clean s xs := by
  obtain ⟨pre, x, post, rfl, -, hx⟩ := h
  intro hc
  have hb := ((clean_append S s pre (x :: post)).mp hc).2.1
  rw [hx] at hb
  cases hb

variable {S} in
theorem BadAt.not_clean {s : σ} {xs : List ι} {i : Nat} {e : ε} (h : S.BadAt s xs i e) :
    ¬ S.Clean s xs := h.refused.not_clean

variable {S} in
theorem RefusedAt.unique {s : σ} {xs : List ι} {i : Nat} {e e' : ε} (h : S.RefusedAt s xs i e)
    (h' : S.RefusedAt s xs i e') : e = e' := by
  obtain ⟨pre, x, post, rfl, rfl, hx⟩ := h
  obtain ⟨pre', x', post', hxs, hi, hx'⟩ := h'
  obtain ⟨rfl, ht⟩ := List.append_inj hxs hi.symm
  obtain ⟨rfl, rfl⟩ := List.cons.inj ht
  rw [hx] at hx'
  exact Option.some.inj hx'

variable {S} in
/-- nothing is refused before the first refused symbol -/
theorem BadAt.le {s : σ} {xs : List ι} {i j : Nat} {e e' : ε} (h : S.BadAt s xs i e)
    (h' : S.RefusedAt s xs j e') : i ≤ j := by
  by_contra hlt
  obtain ⟨pre, x, post, rfl, rfl, hc, -⟩ := h
  obtain ⟨pre', x', post', hxs, rfl, hx'⟩ := h'
  have e1 : pre = pre' ++ x' :: (pre.drop (pre'.length + 1)) := by
    have e2 := congrArg (List.take pre.length) hxs
    rw [List.take_left, List.take_append, List.take_of_length_le (by omega)] at e2
    obtain ⟨d, hd⟩ : ∃ d, pre.length - pre'.length = d + 1 := ⟨pre.length - pre'.length - 1, by omega⟩
    rw [hd, List.take_succ_cons] at e2
    have e3 : pre.drop (pre'.length + 1) = post'.take d := by
      rw [e2, ← List.drop_drop, List.drop_left]
      rfl
    rw [e3]
    exact e2
  refine RefusedAt.not_clean ⟨pre', x', _, e1, rfl, hx'⟩ hc

theorem badAt_head (s : σ) (x : ι) (xs : List ι) (e : ε) :
    S.BadAt s (x :: xs) 0 e ↔ S.bad s x = some e := by
  constructor
  · rintro ⟨pre, y, post, hxs, hlen, -, hy⟩
    obtain rfl := List.length_eq_zero_iff.mp hlen
    obtain ⟨rfl, rfl⟩ := List.cons.inj hxs
    exact hy
  · exact fun h => ⟨[], x, xs, rfl, rfl, trivial, h⟩

theorem badAt_tail (s : σ) (x : ι) (xs : List ι) (i : Nat) (e : ε) :
    S.BadAt s (x :: xs) (i + 1) e ↔ S.bad s x = none ∧ S.BadAt (S.next s x).1 xs i e := by
  constructor
  · rintro ⟨pre, y, post, hxs, hlen, hc, hy⟩
    cases pre with
    | nil => cases hlen
    | cons z pre =>
      obtain ⟨rfl, rfl⟩ := List.cons.inj hxs
      exact ⟨hc.1, pre, y, post, rfl, Nat.succ.inj hlen, hc.2, hy⟩
  · rintro ⟨h, pre, y, post, rfl, rfl, hc, hy⟩
    exact ⟨x :: pre, y, post, rfl, rfl, ⟨h, hc⟩, hy⟩

/-- a refused symbol behind a clean part of the stream -/
theorem badAt_append {s : σ} {xs : List ι} (hc : S.Clean s xs) (ys : List ι) (i : Nat) (e : ε) :
    S.BadAt s (xs ++ ys) (xs.length + i) e ↔ S.BadAt (S.run s xs).1 ys i e := by
  induction xs generalizing s with
  | nil => rw [List.length_nil, Nat.zero_add]; rfl
  | cons x xs ih =>
    rw [List.cons_append, List.length_cons, Nat.add_right_comm, badAt_tail, ih hc.2, run_cons]
    exact and_iff_right hc.1

/-! ## batches -/

/-- the outputs of a run, batch by batch -/
def batches : σ → List (List ι) → List (List ο)
  | _, [] => []
  | s, b :: bs => (S.run s b).2 :: batches (S.run s b).1 bs

theorem batches_cons (s : σ) (b : List ι) (bs : List (List ι)) :
    S.batches s (b :: bs) = (S.run s b).2 :: S.batches (S.run s b).1 bs := rfl

theorem batches_flatten (s : σ) (bs : List (List ι)) :
    (S.batches s bs).flatten = (S.run s bs.flatten).2 := by
  induction bs generalizing s with
  | nil => rfl
  | cons b bs ih => rw [batches_cons, List.flatten_cons, ih, List.flatten_cons, run_append]

theorem batches_take (s : σ) (bs : List (List ι)) (k : Nat) :
    (S.batches s bs).take k = S.batches s (bs.take k) := by
  induction bs generalizing s k with
  | nil => cases k <;> rfl
  | cons b bs ih =>
    cases k with
    | zero => rfl
    | succ k => rw [batches_cons, List.take_succ_cons, ih, List.take_succ_cons, batches_cons]

/-- a batched stream is clean, or some batch holds its first refused symbol -/
theorem clean_or_bad_batch (s : σ) (bs : List (List ι)) :
    S.Clean s bs.flatten ∨ ∃ done b todo pre x post e, bs = done ++ b :: todo ∧
      b = pre ++ x :: post ∧ S.Clean s (done.flatten ++ pre) ∧
      S.bad (S.run s (done.flatten ++ pre)).1 x = some e := by
  induction bs generalizing s with
  | nil => exact .inl trivial
  | cons b bs ih =>
    rcases clean_or_bad S s b with h | ⟨pre, x, post, e, hb, hc, hx⟩
    · rcases ih (S.run s b).1 with h' | ⟨done, b', todo, pre, x, post, e, rfl, hb, hc, hx⟩
      · left
        rw [List.flatten_cons, clean_append]
        exact ⟨h, h'⟩
      · right
        refine ⟨b :: done, b', todo, pre, x, post, e, rfl, hb, ?_, ?_⟩
        · rw [List.flatten_cons, List.append_assoc, clean_append]
          exact ⟨h, hc⟩
        · rw [List.flatten_cons, List.append_assoc, run_append]
          exact hx
    · exact .inr ⟨[], b, bs, pre, x, post, e, rfl, hb, hc, hx⟩

/-! ## invariants -/

section
variable {S} {I : σ → Prop}

theorem Clean.inv (step : ∀ s x, I s → S.bad s x = none → I (S.next s x).1) {s : σ}
    {xs : List ι} (h : S.Clean s xs) (hs : I s) : I (S.run s xs).1 := by
  induction xs generalizing s with
  | nil => exact hs
  | cons x xs ih => exact ih h.2 (step s x hs h.1)

/-- every output of a clean run has the property that each step gives its output -/
theorem Clean.out {P : ο → Prop} (step : ∀ s x, I s → S.bad s x = none → I (S.next s x).1)
    (emit : ∀ s x o, I s → S.bad s x = none → (S.next s x).2 = some o → P o) {s : σ}
    {xs : List ι} (h : S.Clean s xs) (hs : I s) : ∀ o ∈ (S.run s xs).2, P o := by
  induction xs generalizing s with
  | nil => intro o ho; cases ho
  | cons x xs ih =>
    intro o ho
    rw [run_cons] at ho
    rcases List.mem_append.mp ho with ho | ho
    · exact emit s x o hs h.1 (by rwa [Option.mem_toList] at ho)
    · exact ih h.2 (step s x hs h.1) o ho

end

/-! ## a second scanner that follows the first one -/

section
variable {σ' ι' ο' ε' : Type} (T : Scanner σ' ι' ο' ε')

/-- from related states, related symbols keep the states related and give related outputs -/
def Follows (R : σ → σ' → Prop) (E : ι → ι' → Prop) (O : ο → ο' → Prop) : Prop :=
  ∀ s t x y, R s t → E x y → R (S.next s x).1 (T.next t y).1 ∧
    Option.Rel O (S.next s x).2 (T.next t y).2

variable {S T} {R : σ → σ' → Prop} {E : ι → ι' → Prop} {O : ο → ο' → Prop}

theorem Follows.run (h : Follows S T R E O) {s : σ} {t : σ'} {xs : List ι} {ys : List ι'}
    (hs : R s t) (hx : List.Forall₂ E xs ys) :
    R (S.run s xs).1 (T.run t ys).1 ∧ List.Forall₂ O (S.run s xs).2 (T.run t ys).2 := by
  induction hx generalizing s t with
  | nil => exact ⟨hs, .nil⟩
  | @cons x y xs ys hxy _ ih =>
    obtain ⟨h1, h2⟩ := h s t x y hs hxy
    obtain ⟨h3, h4⟩ := ih h1
    refine ⟨h3, ?_⟩
    rw [run_cons, run_cons]
    revert h2
    rcases (S.next s x).2 with _ | o <;> rcases (T.next t y).2 with _ | o' <;> intro h2
    · exact h4
    · cases h2
    · cases h2
    · cases h2 with
      | some ho => exact .cons ho h4

/-- what the first scanner accepts the second one accepts, if this holds for one symbol -/
theorem Follows.clean (h : Follows S T R E O)
    (hb : ∀ s t x y, R s t → E x y → S.bad s x = none → T.bad t y = none) {s : σ} {t : σ'}
    {xs : List ι} {ys : List ι'} (hs : R s t) (hx : List.Forall₂ E xs ys) (hc : S.Clean s xs) :
    T.Clean t ys := by
  induction hx generalizing s t with
  | nil => trivial
  | @cons x y xs ys hxy _ ih => exact ⟨hb s t x y hs hxy hc.1, ih (h s t x y hs hxy).1 hc.2⟩

theorem forall₂_split {pre : List ι} {x : ι} {post : List ι} {ys : List ι'}
    (h : List.Forall₂ E (pre ++ x :: post) ys) :
    ∃ pre' y post', ys = pre' ++ y :: post' ∧ List.Forall₂ E pre pre' ∧ E x y := by
  induction pre generalizing ys with
  | nil =>
    cases h with
    | cons hxy ht => exact ⟨[], _, _, rfl, .nil, hxy⟩
  | cons a pre ih =>
    cases h with
    | cons hab ht =>
      obtain ⟨pre', y, post', rfl, hpre, hxy⟩ := ih ht
      exact ⟨_ :: pre', y, post', rfl, .cons hab hpre, hxy⟩

/-- if what the first scanner refuses for the reason `e` the second one refuses for `e'`, then so
do the runs, at the same place -/
theorem Follows.badAt (h : Follows S T R E O)
    (hb : ∀ s t x y, R s t → E x y → S.bad s x = none → T.bad t y = none) {e : ε} {e' : ε'}
    (he : ∀ s t x y, R s t → E x y → S.bad s x = some e → T.bad t y = some e') {s : σ} {t : σ'}
    {xs : List ι} {ys : List ι'} (hs : R s t) (hx : List.Forall₂ E xs ys) {i : Nat}
    (hbad : S.BadAt s xs i e) : T.BadAt t ys i e' := by
  obtain ⟨pre, x, post, rfl, rfl, hc, hbx⟩ := hbad
  obtain ⟨pre', y, post', rfl, hpre, hxy⟩ := forall₂_split hx
  exact ⟨pre', y, post', rfl, hpre.length_eq.symm, h.clean hb hs hpre hc,
    he _ _ x y (h.run hs hpre).1 hxy hbx⟩

end

end Scanner
