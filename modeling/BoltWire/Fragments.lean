import BoltWire.Refine
import Mathlib.Data.List.Dedup

/-!
# Fragments: how the feeds cut a payload

* `feedOf`          the number of the feed that each byte of the stream comes from;
* `Stamped`         a marked stream together with these numbers: they never fall, and a byte is
                    marked exactly where the number grows;
* `Stamped.pieces_length`   a payload is cut into as many segments as it has feed numbers.
-/

set_option linter.unusedSectionVars false

namespace Bolt

section
variable {β : Type}

def feedOfFrom : Nat → List (List β) → List Nat
  | _, [] => []
  | k, data :: fs => List.replicate data.length k ++ feedOfFrom (k + 1) fs

/-- for every byte of the stream the number of its feed, counted from one -/
def feedOf (fs : List (List β)) : List Nat := feedOfFrom 1 fs

/-- bytes that follow a byte of feed `k`, with their marks and feed numbers -/
inductive Stamped : Nat → List (β × Bool) → List Nat → Prop where
  | nil (k : Nat) : Stamped k [] []
  | same (b : β) {k : Nat} {xs : List (β × Bool)} {idx : List Nat} (h : Stamped k xs idx) :
      Stamped k ((b, false) :: xs) (k :: idx)
  | next (b : β) {k j : Nat} {xs : List (β × Bool)} {idx : List Nat} (hlt : k < j)
      (h : Stamped j xs idx) : Stamped k ((b, true) :: xs) (j :: idx)

namespace Stamped
variable {k : Nat} {xs ys : List (β × Bool)} {idx jdx : List Nat}

theorem length_eq (h : Stamped k xs idx) : xs.length = idx.length := by
  induction h with
  | nil k => rfl
  | same b h ih => rw [List.length_cons, ih, List.length_cons]
  | next b hlt h ih => rw [List.length_cons, ih, List.length_cons]

theorem le_of_mem (h : Stamped k xs idx) : ∀ j ∈ idx, k ≤ j := by
  induction h with
  | nil k => intro j hj; cases hj
  | same b h ih =>
    intro j hj
    rcases List.mem_cons.mp hj with rfl | hj
    · exact le_rfl
    · exact ih j hj
  | next b hlt h ih =>
    intro j hj
    rcases List.mem_cons.mp hj with rfl | hj
    · exact hlt.le
    · exact hlt.le.trans (ih j hj)

theorem take (h : Stamped k xs idx) (n : Nat) : Stamped k (xs.take n) (idx.take n) := by
  induction h generalizing n with
  | nil k => rw [List.take_nil, List.take_nil]; exact .nil k
  | same b h ih =>
    cases n with
    | zero => exact .nil _
    | succ n => exact .same b (ih n)
  | next b hlt h ih =>
    cases n with
    | zero => exact .nil _
    | succ n => exact .next b hlt (ih n)

theorem drop (h : Stamped k xs idx) (n : Nat) : ∃ j, Stamped j (xs.drop n) (idx.drop n) := by
  induction h generalizing n with
  | nil k => rw [List.drop_nil, List.drop_nil]; exact ⟨k, .nil k⟩
  | @same b k xs idx h ih =>
    cases n with
    | zero => exact ⟨k, .same b h⟩
    | succ n => exact ih n
  | @next b k j xs idx hlt h ih =>
    cases n with
    | zero => exact ⟨k, .next b hlt h⟩
    | succ n => exact ih n

theorem append_replicate {t : List β} (h : Stamped k ys jdx) :
    Stamped k ((t.map fun b => (b, false)) ++ ys) (List.replicate t.length k ++ jdx) := by
  induction t with
  | nil => exact h
  | cons b t ih => exact .same b ih

/-- the stream of a sequence of feeds, with its feed numbers -/
theorem marks_from (fs : List (List β)) :
    ∀ k j, k < j → Stamped k (marks fs) (feedOfFrom j fs) := by
  induction fs with
  | nil => intro k j _; exact .nil k
  | cons data fs ih =>
    intro k j hkj
    rw [marks_cons]
    cases data with
    | nil =>
      show Stamped k (marks fs) (feedOfFrom (j + 1) fs)
      exact ih k (j + 1) (by omega)
    | cons b t => exact .next b hkj (append_replicate (ih j (j + 1) (by omega)))

theorem marks (fs : List (List β)) : Stamped 0 (marks fs) (feedOf fs) :=
  marks_from fs 0 1 Nat.one_pos

/-- a growing segment is followed by one more for every further feed number -/
theorem extend_length (h : Stamped k xs idx) : ∀ {segs : List (List β)}, segs ≠ [] →
    (extend true segs xs).length + 1 = segs.length + (k :: idx).dedup.length := by
  induction h with
  | nil k => intro segs _; rfl
  | @same b k xs idx h ih =>
    intro segs hs
    have hj : (true && !false) = true → segs ≠ [] := fun _ => hs
    have hlen := addByte_length hj b
    show (extend true (addByte (true && !false) segs b) xs).length + 1 = _
    rw [ih (addByte_ne_nil _ _ _), List.dedup_cons_of_mem (a := k) List.mem_cons_self, hlen]
    rfl
  | @next b k j xs idx hlt h ih =>
    intro segs hs
    have hj : (true && !true) = true → segs ≠ [] := fun _ => hs
    have hlen := addByte_length hj b
    have hnot : k ∉ j :: idx := by
      intro hm
      rcases List.mem_cons.mp hm with rfl | hm
      · exact absurd hlt (lt_irrefl k)
      · exact absurd (h.le_of_mem k hm) (by omega)
    show (extend true (addByte (true && !true) segs b) xs).length + 1 = _
    rw [ih (addByte_ne_nil _ _ _), List.dedup_cons_of_notMem hnot, hlen, List.length_cons]
    show segs.length + 1 + _ = _
    omega

/-- **A payload is cut into as many segments as it has feed numbers.** -/
theorem pieces_length (h : Stamped k xs idx) : (pieces xs).length = idx.dedup.length := by
  cases h with
  | nil => rfl
  | @same b _ xs idx h =>
    have e := h.extend_length (List.cons_ne_nil [b] [])
    rw [List.length_singleton] at e
    show (extend true [[b]] xs).length = _
    omega
  | @next b _ j xs idx hlt h =>
    have e := h.extend_length (List.cons_ne_nil [b] [])
    rw [List.length_singleton] at e
    show (extend true [[b]] xs).length = _
    omega

end Stamped
end
end Bolt
