import BoltWire.Lib.Call

/-!
# Data refinement

An object with methods against a specification of what the methods may do to an abstract value.

* `history run ops s`   the calls `ops` on one object, also after errors and panics;
* `Trace spec ops a rs a'`   results that the specification allows, call after call;
* `Refines run spec`    an invariant and an abstraction that every single call respects;
* `Refines.history`     so do whole histories;
* `history_image`       the calls on one object are those on another, up to its encoding.
-/

namespace Rust.Call
variable {ι σ ε ο α : Type}

def history (run : ι → Call σ ε ο) : List ι → σ → List (Res ε ο) × σ
  | [], s => ([], s)
  | op :: ops, s =>
    let t := history run ops (run op s).2
    ((run op s).1 :: t.1, t.2)

inductive Trace (spec : ι → α → Res ε ο → α → Prop) : List ι → α → List (Res ε ο) → α → Prop where
  | nil (a : α) : Trace spec [] a [] a
  | cons {op : ι} {ops : List ι} {a mid a' : α} {r : Res ε ο} {rs : List (Res ε ο)}
      (head : spec op a r mid) (tail : Trace spec ops mid rs a') : Trace spec (op :: ops) a (r :: rs) a'

structure Refines (run : ι → Call σ ε ο) (spec : ι → α → Res ε ο → α → Prop) where
  inv : σ → Prop
  abs : σ → α
  step (op : ι) (s : σ) : inv s →
    inv (run op s).2 ∧ spec op (abs s) (run op s).1 (abs (run op s).2)

theorem Refines.history {run : ι → Call σ ε ο} {spec : ι → α → Res ε ο → α → Prop}
    (h : Refines run spec) (ops : List ι) : ∀ s, h.inv s →
    h.inv (history run ops s).2 ∧
      Trace spec ops (h.abs s) (history run ops s).1 (h.abs (history run ops s).2) := by
  induction ops with
  | nil => exact fun s hs => ⟨hs, .nil (h.abs s)⟩
  | cons op ops ih =>
    intro s hs
    obtain ⟨hinv, hspec⟩ := h.step op s hs
    obtain ⟨hinv', htrace⟩ := ih (run op s).2 hinv
    exact ⟨hinv', .cons hspec htrace⟩

/-! ## objects that stand for other ones -/

/-- `f a` is the object that stands for `a`, and `g` what its results stand for -/
theorem history_image {ο' : Type} {run : ι → Call σ ε ο'} {note : ι → Call α ε ο} {f : α → σ}
    {g : ο → ο'} (step : ∀ op a, run op (f a) = (Res.map g (note op a).1, f (note op a).2))
    (ops : List ι) : ∀ a, history run ops (f a)
      = ((history note ops a).1.map (Res.map g), f (history note ops a).2) := by
  induction ops with
  | nil => exact fun a => rfl
  | cons op ops ih =>
    intro a
    rw [history, history, step, ih, List.map_cons]

end Rust.Call
