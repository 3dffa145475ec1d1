import Mathlib.Algebra.GroupWithZero.Nat
import Mathlib.Data.List.Basic

/-!
# Ranges that are packed one behind the other

A range is given by its start and its length.

* `Packed rs`       each range begins where the ones before it have ended, or later;
* `Packed.sum_le`   ranges that are packed below `n` have at most `n` elements;
* `SplitBy cuts r`  one of the cuts lies strictly inside the range;
* `Packed.length_le`   packed ranges that are all split are no more than the cuts.
-/

namespace Packing

def Packed (rs : List (Nat × Nat)) : Prop := rs.Pairwise fun r r' => r.1 + r.2 ≤ r'.1

def SplitBy (cuts : List Nat) (r : Nat × Nat) : Prop := ∃ c ∈ cuts, r.1 < c ∧ c < r.1 + r.2

variable {rs : List (Nat × Nat)} {n : Nat}

theorem Packed.snoc (h : Packed rs) {r : Nat × Nat} (hr : ∀ r' ∈ rs, r'.1 + r'.2 ≤ r.1) :
    Packed (rs ++ [r]) :=
  List.pairwise_append.mpr ⟨h, List.pairwise_singleton _ r, fun r' hr' _ hx =>
    List.mem_singleton.mp hx ▸ hr r' hr'⟩

theorem Packed.sum_between (h : Packed rs) : ∀ {m : Nat}, m ≤ n → (∀ r ∈ rs, m ≤ r.1) →
    (∀ r ∈ rs, r.1 + r.2 ≤ n) → m + (rs.map Prod.snd).sum ≤ n := by
  induction rs with
  | nil => exact fun hmn _ _ => hmn
  | cons r rs ih =>
    intro m hmn hm hn
    obtain ⟨hr, hrs⟩ := List.pairwise_cons.mp h
    have hrest := ih hrs (hn r List.mem_cons_self) hr fun r' hr' => hn r' (List.mem_cons_of_mem r hr')
    have hstart := hm r List.mem_cons_self
    rw [List.map_cons, List.sum_cons]
    omega

theorem Packed.sum_le (h : Packed rs) (hn : ∀ r ∈ rs, r.1 + r.2 ≤ n) :
    (rs.map Prod.snd).sum ≤ n := by
  have hsum := h.sum_between (Nat.zero_le n) (fun r _ => Nat.zero_le r.1) hn
  rwa [Nat.zero_add] at hsum

/-- the first range takes a cut that lies before all later ranges -/
theorem Packed.length_le (h : Packed rs) : ∀ {cuts : List Nat}, (∀ r ∈ rs, SplitBy cuts r) →
    rs.length ≤ cuts.length := by
  induction rs with
  | nil => exact fun _ => Nat.zero_le _
  | cons r rs ih =>
    intro cuts hcuts
    obtain ⟨hr, hrs⟩ := List.pairwise_cons.mp h
    obtain ⟨c, hc, -, hend⟩ := hcuts r List.mem_cons_self
    have hrest : rs.length ≤ (cuts.erase c).length := by
      refine ih hrs fun r' hr' => ?_
      obtain ⟨c', hc', hstart, hend'⟩ := hcuts r' (List.mem_cons_of_mem r hr')
      have hbehind := hr r' hr'
      exact ⟨c', (List.mem_erase_of_ne (by omega)).mpr hc', hstart, hend'⟩
    rw [List.length_erase_of_mem hc] at hrest
    have hpos : 0 < cuts.length := List.length_pos_of_mem hc
    rw [List.length_cons]
    omega

end Packing
