import BoltWire.Lib.Scanner

/-!
# Images of a scanner on some of its runs

A map of states and symbols that a scanner commutes with only while the symbols suit the states in
which they come.

* `Along P s xs`     every symbol of the run suits the state that it comes in;
* `ImageAlong`       on suitable symbols `T` does to the images what `S` does;
* `ImageAlong.run`, `ImageAlong.clean`, `ImageAlong.batches`   so it does on suitable runs.
-/

namespace Scanner
variable {σ σ' ι ι' ο ο' ε : Type} (S : Scanner σ ι ο ε) {T : Scanner σ' ι' ο' ε}

def Along (P : σ → ι → Prop) : σ → List ι → Prop
  | _, [] => True
  | s, x :: xs => P s x ∧ Along P (S.next s x).1 xs

structure ImageAlong (S : Scanner σ ι ο ε) (T : Scanner σ' ι' ο' ε) (P : σ → ι → Prop) (f : σ → σ')
    (g : ι → ι') (h : ο → ο') : Prop where
  next : ∀ s x, P s x → T.next (f s) (g x) = (f (S.next s x).1, (S.next s x).2.map h)
  bad : ∀ s x, P s x → T.bad (f s) (g x) = S.bad s x

variable {S} {P : σ → ι → Prop} {f : σ → σ'} {g : ι → ι'} {h : ο → ο'}

theorem along_append {s : σ} {xs ys : List ι} :
    S.Along P s (xs ++ ys) ↔ S.Along P s xs ∧ S.Along P (S.run s xs).1 ys := by
  induction xs generalizing s with
  | nil => exact ⟨fun h => ⟨trivial, h⟩, fun h => h.2⟩
  | cons x xs ih =>
    rw [List.cons_append, Along, Along, ih, run_cons, and_assoc]

theorem along_of_forall (h : ∀ s x, P s x) (s : σ) (xs : List ι) : S.Along P s xs := by
  induction xs generalizing s with
  | nil => trivial
  | cons x xs ih => exact ⟨h s x, ih _⟩

namespace ImageAlong

theorem run (himg : ImageAlong S T P f g h) {s : σ} {xs : List ι} (hx : S.Along P s xs) :
    T.run (f s) (xs.map g) = (f (S.run s xs).1, (S.run s xs).2.map h) := by
  induction xs generalizing s with
  | nil => rfl
  | cons x xs ih =>
    rw [List.map_cons, run_cons, himg.next s x hx.1, ih hx.2, run_cons, List.map_append]
    cases (S.next s x).2 <;> rfl

theorem clean (himg : ImageAlong S T P f g h) {s : σ} {xs : List ι} (hx : S.Along P s xs) :
    T.Clean (f s) (xs.map g) ↔ S.Clean s xs := by
  induction xs generalizing s with
  | nil => exact Iff.rfl
  | cons x xs ih =>
    rw [List.map_cons, clean_cons, himg.bad s x hx.1, himg.next s x hx.1, ih hx.2, clean_cons]

theorem batches (himg : ImageAlong S T P f g h) {s : σ} {bs : List (List ι)}
    (hx : S.Along P s bs.flatten) :
    T.batches (f s) (bs.map fun b => b.map g) = (S.batches s bs).map fun outs => outs.map h := by
  induction bs generalizing s with
  | nil => rfl
  | cons b bs ih =>
    rw [List.flatten_cons, along_append] at hx
    rw [List.map_cons, batches_cons, himg.run hx.1, ih hx.2, batches_cons, List.map_cons]

end ImageAlong
end Scanner
