import Mathlib.Data.List.Chain
import Mathlib.Data.List.Flatten
import Mathlib.Tactic.Common

/-!
# Provenance: where the elements of a stream come from

A stream is supplied by a sequence of sources, one after the other.

* `Cell`, `label`      every element together with its source and its place in that source;
* `Next`, `label_chain`   how the cells of the stream follow each other; `Before` their order;
* `Slice`              a non-empty range of one source, and its cells;
* `Slice.snoc`         a slice grows by the cell that comes next;
* `Cuts`               a stretch of the stream, cut into slices of different sources;
* `Cuts.start`, `Cuts.join`   the two ways to cut one cell more;
* `Cuts.share`         every part is all that the stretch has of its source.
-/

set_option linter.unusedSectionVars false

namespace Provenance

structure Cell (α : Type) where
  val : α
  src : Nat
  pos : Nat
  deriving DecidableEq, Repr

section
variable {α : Type}

/-- the elements `l` of the source `src`, from the place `pos` on -/
def tag (src : Nat) : Nat → List α → List (Cell α)
  | _, [] => []
  | pos, a :: l => ⟨a, src, pos⟩ :: tag src (pos + 1) l

def labelFrom : Nat → List (List α) → List (List (Cell α))
  | _, [] => []
  | src, l :: ls => tag src 0 l :: labelFrom (src + 1) ls

/-- the sources with the origin of each element, counted from zero -/
def label (ls : List (List α)) : List (List (Cell α)) := labelFrom 0 ls

theorem tag_cons (src pos : Nat) (a : α) (l : List α) :
    tag src pos (a :: l) = ⟨a, src, pos⟩ :: tag src (pos + 1) l := rfl

theorem tag_append (src pos : Nat) (l l' : List α) :
    tag src pos (l ++ l') = tag src pos l ++ tag src (pos + l.length) l' := by
  induction l generalizing pos with
  | nil => rfl
  | cons a l ih =>
    have e : pos + 1 + l.length = pos + (a :: l).length := by rw [List.length_cons]; omega
    rw [List.cons_append, tag_cons, ih, e]
    rfl

theorem tag_snoc (src pos : Nat) (l : List α) (a : α) :
    tag src pos (l ++ [a]) = tag src pos l ++ [⟨a, src, pos + l.length⟩] := tag_append src pos l [a]

theorem tag_val (src pos : Nat) (l : List α) : (tag src pos l).map Cell.val = l := by
  induction l generalizing pos with
  | nil => rfl
  | cons a l ih => rw [tag_cons, List.map_cons, ih]

theorem tag_length (src pos : Nat) (l : List α) : (tag src pos l).length = l.length := by
  rw [← List.length_map (f := Cell.val), tag_val]

theorem mem_tag {src pos : Nat} {l : List α} {c : Cell α} (h : c ∈ tag src pos l) :
    c.src = src ∧ ∃ i, c.pos = pos + i ∧ l[i]? = some c.val := by
  induction l generalizing pos with
  | nil => cases h
  | cons a l ih =>
    rcases List.mem_cons.mp h with rfl | h
    · exact ⟨rfl, 0, rfl, rfl⟩
    · obtain ⟨hsrc, i, hpos, hval⟩ := ih h
      exact ⟨hsrc, i + 1, by omega, hval⟩

theorem labelFrom_val (src : Nat) (ls : List (List α)) :
    (labelFrom src ls).map (fun l => l.map Cell.val) = ls := by
  induction ls generalizing src with
  | nil => rfl
  | cons l ls ih =>
    show (tag src 0 l).map Cell.val :: (labelFrom (src + 1) ls).map _ = _
    rw [tag_val, ih]

theorem label_val (ls : List (List α)) : (label ls).map (fun l => l.map Cell.val) = ls :=
  labelFrom_val 0 ls

theorem mem_labelFrom {src : Nat} {ls : List (List α)} {c : Cell α}
    (h : c ∈ (labelFrom src ls).flatten) :
    ∃ i l, c.src = src + i ∧ ls[i]? = some l ∧ l[c.pos]? = some c.val := by
  induction ls generalizing src with
  | nil => cases h
  | cons l ls ih =>
    rcases List.mem_append.mp h with h | h
    · obtain ⟨hsrc, i, hpos, hval⟩ := mem_tag h
      have e : c.pos = i := by omega
      exact ⟨0, l, hsrc, rfl, e ▸ hval⟩
    · obtain ⟨i, l', hsrc, hl, hval⟩ := ih h
      exact ⟨i + 1, l', by omega, hl, hval⟩

theorem mem_label {ls : List (List α)} {c : Cell α} (h : c ∈ (label ls).flatten) :
    ∃ l, ls[c.src]? = some l ∧ l[c.pos]? = some c.val := by
  obtain ⟨i, l, hsrc, hl, hval⟩ := mem_labelFrom h
  have e : c.src = i := by omega
  exact ⟨l, e ▸ hl, hval⟩

/-! ## the order of the stream -/

/-- `b` comes right after `a`: in the same source, or first in a later one -/
def Next (a b : Cell α) : Prop :=
  b.src = a.src ∧ b.pos = a.pos + 1 ∨ a.src < b.src ∧ b.pos = 0

def Before (a b : Cell α) : Prop := a.src < b.src ∨ a.src = b.src ∧ a.pos < b.pos

instance : Trans (Before (α := α)) Before Before where
  trans {a b c} hab hbc := by
    unfold Before at *
    omega

theorem Next.before {a b : Cell α} (h : Next a b) : Before a b := by
  unfold Next at h
  unfold Before
  omega

theorem tag_chain (l : List α) : ∀ (src pos : Nat) (a : α) {rest : List (Cell α)},
    (∀ c : Cell α, c.src = src → (c :: rest).IsChain Next) →
    (⟨a, src, pos⟩ :: (tag src (pos + 1) l ++ rest)).IsChain Next := by
  induction l with
  | nil => intro src pos a rest h; exact h _ rfl
  | cons b l ih =>
    intro src pos a rest h
    exact .cons_cons (.inl ⟨rfl, rfl⟩) (ih src (pos + 1) b h)

theorem labelFrom_chain (ls : List (List α)) : ∀ (src : Nat) (c : Cell α), c.src < src →
    (c :: (labelFrom src ls).flatten).IsChain Next := by
  induction ls with
  | nil => intro src c _; exact .singleton c
  | cons l ls ih =>
    intro src c hc
    cases l with
    | nil => exact ih (src + 1) c (by omega)
    | cons a l => exact .cons_cons (.inr ⟨hc, rfl⟩) (tag_chain l src 0 a fun c hc => ih _ c (by omega))

theorem labelFrom_chain_start (ls : List (List α)) : ∀ src : Nat,
    (labelFrom src ls).flatten.IsChain Next := by
  induction ls with
  | nil => intro src; exact .nil
  | cons l ls ih =>
    intro src
    cases l with
    | nil => exact ih (src + 1)
    | cons a l => exact tag_chain l src 0 a fun c hc => labelFrom_chain ls (src + 1) c (by omega)

theorem label_chain (ls : List (List α)) : (label ls).flatten.IsChain Next :=
  labelFrom_chain_start ls 0

theorem chain_of_stretch {ls : List (List α)} {q : List (Cell α)} (h : q <:+: (label ls).flatten) :
    q.IsChain Next := by
  obtain ⟨s, t, hst⟩ := h
  have hchain := label_chain ls
  rw [← hst] at hchain
  exact hchain.left_of_append.right_of_append

theorem chain_before {q : List (Cell α)} (h : q.IsChain Next) : q.Pairwise Before :=
  List.isChain_iff_pairwise.mp (h.imp fun _ _ => Next.before)

/-- the first cell of a source is of a later source than all before it -/
theorem src_lt_of_first {q : List (Cell α)} {c : Cell α} (h : (q ++ [c]).IsChain Next)
    (hpos : c.pos = 0) : ∀ a ∈ q, a.src < c.src := by
  intro a ha
  have hab := (List.pairwise_append.mp (chain_before h)).2.2 a ha c List.mem_cons_self
  unfold Before at hab
  omega

/-- no cell occurs twice -/
theorem label_nodup (ls : List (List α)) : (label ls).flatten.Nodup := by
  refine (chain_before (label_chain ls)).imp fun {a b} h e => ?_
  subst e
  unfold Before at h
  omega

/-! ## slices -/

/-- a non-empty range of one source -/
structure Slice (ls : List (List α)) where
  src : Fin ls.length
  offset : Nat
  len : Nat
  pos : 0 < len
  le : offset + len ≤ (ls.get src).length

namespace Slice
variable {ls : List (List α)}

def vals (r : Slice ls) : List α := ((ls.get r.src).drop r.offset).take r.len
def cells (r : Slice ls) : List (Cell α) := tag r.src r.offset r.vals

theorem vals_length (r : Slice ls) : r.vals.length = r.len := by
  have hle := r.le
  unfold vals
  rw [List.length_take, List.length_drop]
  omega

theorem cells_length (r : Slice ls) : r.cells.length = r.len := by
  unfold cells
  rw [tag_length, vals_length]

theorem cells_ne_nil (r : Slice ls) : r.cells ≠ [] := by
  have hpos := r.pos
  rw [← r.cells_length] at hpos
  exact List.length_pos_iff.mp hpos

theorem src_of_mem {r : Slice ls} {c : Cell α} (h : c ∈ r.cells) : c.src = r.src := (mem_tag h).1

/-- the last cell is at the end of the range -/
theorem pos_of_last {r : Slice ls} {init : List (Cell α)} {a : Cell α} (h : r.cells = init ++ [a]) :
    a.pos + 1 = r.offset + r.len := by
  have hlen := congrArg List.length h
  rw [r.cells_length, List.length_append, List.length_singleton] at hlen
  have hvals : r.vals = init.map Cell.val ++ [a.val] := by
    have e := congrArg (List.map Cell.val) h
    rwa [cells, tag_val, List.map_append] at e
  rw [cells, hvals, tag_snoc, List.length_map] at h
  have e : a = ⟨a.val, r.src, r.offset + init.length⟩ :=
    (List.cons.inj (List.append_inj' h rfl).2).1.symm
  have hpos := congrArg Cell.pos e
  replace hpos : a.pos = r.offset + init.length := hpos
  omega

/-- the slice of a single cell -/
theorem single {c : Cell α} (h : c ∈ (label ls).flatten) : ∃ r : Slice ls, r.cells = [c] := by
  obtain ⟨l, hl, hval⟩ := mem_label h
  obtain ⟨hsrc, hget⟩ := List.getElem?_eq_some_iff.mp hl
  obtain ⟨hpos, hval⟩ := List.getElem?_eq_some_iff.mp hval
  subst hget
  refine ⟨⟨⟨c.src, hsrc⟩, c.pos, 1, Nat.one_pos, hpos⟩, ?_⟩
  show tag c.src c.pos ((ls[c.src].drop c.pos).take 1) = [c]
  rw [List.drop_eq_getElem_cons hpos, List.take_succ_cons, hval]
  rfl

/-- **A slice grows** by the cell that follows its last one in the same source. -/
theorem snoc {r : Slice ls} {init : List (Cell α)} {a c : Cell α} (hr : r.cells = init ++ [a])
    (hc : c ∈ (label ls).flatten) (hsrc : c.src = a.src) (hpos : c.pos = a.pos + 1) :
    ∃ r' : Slice ls, r'.src = r.src ∧ r'.cells = r.cells ++ [c] := by
  obtain ⟨l, hl, hval⟩ := mem_label hc
  obtain ⟨hsrc', hget⟩ := List.getElem?_eq_some_iff.mp hl
  obtain ⟨hlt, hval⟩ := List.getElem?_eq_some_iff.mp hval
  subst hget
  have ha : a.src = r.src := src_of_mem (hr ▸ List.mem_append_right init List.mem_cons_self)
  have hfin : (⟨c.src, hsrc'⟩ : Fin ls.length) = r.src := Fin.ext (hsrc.trans ha)
  have hend := pos_of_last hr
  have hplace : c.pos = r.offset + r.len := by omega
  have hlen : r.offset + r.len < (ls.get r.src).length := by
    rw [← hplace, ← hfin]
    exact hlt
  refine ⟨⟨r.src, r.offset, r.len + 1, Nat.succ_pos _, hlen⟩, rfl, ?_⟩
  have hnext : ((ls.get r.src).drop r.offset)[r.len]? = some c.val := by
    rw [List.getElem?_drop, ← hplace, ← hfin, ← hval]
    exact List.getElem?_eq_getElem hlt
  show tag r.src r.offset (((ls.get r.src).drop r.offset).take (r.len + 1)) = _
  rw [List.take_add_one, hnext]
  show tag r.src r.offset (r.vals ++ [c.val]) = r.cells ++ [c]
  have e : (⟨c.val, r.src, r.offset + r.len⟩ : Cell α) = c := by rw [← hplace, ← ha, ← hsrc]
  rw [tag_snoc, r.vals_length, e]
  rfl

end Slice

/-! ## cuts -/

/-- a stretch `q` of the stream, cut into slices; a later part is of a later source -/
structure Cuts (ls : List (List α)) (q : List (Cell α)) (parts : List (List (Cell α))) : Prop where
  flatten : parts.flatten = q
  slice : ∀ s ∈ parts, ∃ r : Slice ls, s = r.cells
  sorted : parts.Pairwise fun s t => ∀ a ∈ s, ∀ b ∈ t, a.src < b.src

namespace Cuts
variable {ls : List (List α)} {q : List (Cell α)} {parts : List (List (Cell α))} {c : Cell α}

theorem nil : Cuts ls [] [] where
  flatten := rfl
  slice s hs := by cases hs
  sorted := .nil

/-- a cell of a further source begins a part -/
theorem start (h : Cuts ls q parts) (hc : c ∈ (label ls).flatten) (hlt : ∀ a ∈ q, a.src < c.src) :
    Cuts ls (q ++ [c]) (parts ++ [[c]]) where
  flatten := by rw [List.flatten_append, h.flatten, List.flatten_singleton]
  slice s hs := by
    rcases List.mem_append.mp hs with hs | hs
    · exact h.slice s hs
    · obtain ⟨r, hr⟩ := Slice.single hc
      exact ⟨r, (List.mem_singleton.mp hs).trans hr.symm⟩
  sorted := by
    refine List.pairwise_append.mpr ⟨h.sorted, List.pairwise_singleton _ _, ?_⟩
    intro s hs t ht a ha b hb
    obtain rfl := List.mem_singleton.mp ht
    obtain rfl := List.mem_singleton.mp hb
    exact hlt a (h.flatten ▸ List.mem_flatten.mpr ⟨s, hs, ha⟩)

/-- any other cell joins the last part -/
theorem join {pre : List (List (Cell α))} {s : List (Cell α)} (h : Cuts ls q (pre ++ [s]))
    (hq : (q ++ [c]).IsChain Next) (hc : c ∈ (label ls).flatten) (hpos : c.pos ≠ 0) :
    Cuts ls (q ++ [c]) (pre ++ [s ++ [c]]) := by
  have hs : s ∈ pre ++ [s] := List.mem_append_right pre List.mem_cons_self
  obtain ⟨r, rfl⟩ := h.slice s hs
  obtain ⟨init, a, hr⟩ : ∃ init a, r.cells = init ++ [a] :=
    ⟨_, _, (List.dropLast_concat_getLast r.cells_ne_nil).symm⟩
  have hqa : q = (pre.flatten ++ init) ++ [a] := by
    rw [← h.flatten, List.flatten_append, List.flatten_singleton, hr, List.append_assoc]
  have hnext : c.src = a.src ∧ c.pos = a.pos + 1 := by
    rw [hqa, List.append_assoc] at hq
    have hac := (List.isChain_append_cons_cons.mp hq).2.1
    unfold Next at hac
    omega
  obtain ⟨r', -, hr'⟩ := r.snoc hr hc hnext.1 hnext.2
  obtain ⟨hpre, -, hlt⟩ := List.pairwise_append.mp h.sorted
  refine ⟨?_, ?_, List.pairwise_append.mpr ⟨hpre, List.pairwise_singleton _ _, ?_⟩⟩
  · rw [← h.flatten]
    simp
  · intro t ht
    rcases List.mem_append.mp ht with ht | ht
    · exact h.slice t (List.mem_append_left _ ht)
    · exact ⟨r', (List.mem_singleton.mp ht).trans hr'.symm⟩
  · intro t ht u hu x hx y hy
    obtain rfl := List.mem_singleton.mp hu
    rcases List.mem_append.mp hy with hy | hy
    · exact hlt t ht _ List.mem_cons_self x hx y hy
    · -- the new cell is of the source of the part
      obtain rfl := List.mem_singleton.mp hy
      have ha : a ∈ r.cells := hr ▸ List.mem_append_right init List.mem_cons_self
      rw [hnext.1]
      exact hlt t ht _ List.mem_cons_self x hx a ha

/-- **Every part is a whole share**: all that the stretch has of its source. -/
theorem share (h : Cuts ls q parts) {s : List (Cell α)} (hs : s ∈ parts) :
    ∃ r : Slice ls, s = r.cells ∧ s = q.filter fun c : Cell α => c.src = r.src := by
  obtain ⟨pre, post, rfl⟩ := List.append_of_mem hs
  obtain ⟨r, rfl⟩ := h.slice s hs
  refine ⟨r, rfl, ?_⟩
  obtain ⟨b, hb⟩ := List.exists_mem_of_ne_nil _ r.cells_ne_nil
  have hsrc := Slice.src_of_mem hb
  obtain ⟨-, hpost, hpre⟩ := List.pairwise_append.mp h.sorted
  have hbefore : pre.flatten.filter (fun c : Cell α => c.src = r.src) = [] := by
    refine List.filter_eq_nil_iff.mpr fun a ha => ?_
    obtain ⟨t, ht, ha⟩ := List.mem_flatten.mp ha
    have hlt := hpre t ht _ List.mem_cons_self a ha b hb
    simp only [decide_eq_true_eq]
    omega
  have hafter : post.flatten.filter (fun c : Cell α => c.src = r.src) = [] := by
    refine List.filter_eq_nil_iff.mpr fun a ha => ?_
    obtain ⟨t, ht, ha⟩ := List.mem_flatten.mp ha
    have hlt := (List.pairwise_cons.mp hpost).1 t ht b hb a ha
    simp only [decide_eq_true_eq]
    omega
  have hall : r.cells.filter (fun c : Cell α => c.src = r.src) = r.cells :=
    List.filter_eq_self.mpr fun a ha => decide_eq_true (Slice.src_of_mem ha)
  rw [← h.flatten, List.flatten_append, List.flatten_cons, List.filter_append, List.filter_append,
    hbefore, hafter, hall, List.append_nil, List.nil_append]

end Cuts
end
end Provenance
