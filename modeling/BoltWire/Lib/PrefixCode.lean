import Mathlib.Tactic.Common

/-!
# Words that are told apart by their beginnings

* `TellsApart enc`   what begins with the word of `a` begins with no other word;
* `TellsApart.seq`   words that begin with a letter of a code, and so on: sequences with an end;
* `Cut enc t`        `t` is a beginning of a word, and not the whole of it;
* `exists_cut`       a series of words that breaks off;
* `parse_unique`     a stream of whole words and a cut one is read in one way only;
* `parse_mono`       what is complete in a stream is complete in every longer one.
-/

namespace PrefixCode
variable {α β γ : Type}

def TellsApart (enc : γ → List β) : Prop :=
  ∀ a a' rest rest', enc a ++ rest = enc a' ++ rest' → a = a' ∧ rest = rest'

def Cut (enc : γ → List β) (t : List β) : Prop := ∃ a n, n < (enc a).length ∧ t = (enc a).take n

variable {enc : γ → List β}

/-- a series of words that breaks off has whole words and a beginning of the next one -/
theorem exists_cut {part : List β} : ∀ {as : List γ}, part <+: as.flatMap enc →
    part ≠ as.flatMap enc → ∃ done a todo t, as = done ++ a :: todo ∧
      part = done.flatMap enc ++ t ∧ t <+: enc a ∧ t ≠ enc a := by
  intro as
  induction as generalizing part with
  | nil => exact fun hpre hne => absurd (List.prefix_nil.mp hpre) hne
  | cons a as ih =>
    intro hpre hne
    rw [List.flatMap_cons] at hpre hne
    by_cases hlong : enc a <+: part
    · obtain ⟨part, rfl⟩ := hlong
      obtain ⟨done, w, todo, t, rfl, rfl, ht, htne⟩ := ih ((List.prefix_append_right_inj _).mp hpre)
        (fun e => hne (congrArg _ e))
      refine ⟨a :: done, w, todo, t, rfl, ?_, ht, htne⟩
      rw [List.flatMap_cons, List.append_assoc]
    · have hshort : part <+: enc a :=
        (List.prefix_or_prefix_of_prefix hpre (List.prefix_append _ _)).resolve_right hlong
      exact ⟨[], a, as, part, rfl, rfl, hshort, fun e => hlong (e ▸ List.prefix_rfl)⟩

/-- a cut word has no whole word in front -/
theorem TellsApart.cut (h : TellsApart enc) {t : List β} (ht : Cut enc t) (a : γ) (rest : List β) :
    t ≠ enc a ++ rest := by
  obtain ⟨w, n, hn, rfl⟩ := ht
  intro e
  have hw : enc w ++ [] = enc a ++ (rest ++ (enc w).drop n) := by
    rw [← List.append_assoc, ← e, List.take_append_drop, List.append_nil]
  have hdrop := (List.append_eq_nil_iff.mp (h _ _ _ _ hw).2.symm).2
  have hlen := congrArg List.length hdrop
  rw [List.length_drop, List.length_nil] at hlen
  omega

/-- **A stream of words, the last of them cut, is read in one way.** -/
theorem parse_unique (h : TellsApart enc) {as as' : List γ} {t t' : List β} (ht : Cut enc t)
    (ht' : Cut enc t') (e : as.flatMap enc ++ t = as'.flatMap enc ++ t') : as = as' ∧ t = t' := by
  induction as generalizing as' with
  | nil =>
    cases as' with
    | nil => exact ⟨rfl, e⟩
    | cons a' as' =>
      rw [List.flatMap_cons, List.append_assoc] at e
      exact absurd e (h.cut ht a' _)
  | cons a as ih =>
    rw [List.flatMap_cons, List.append_assoc] at e
    cases as' with
    | nil => exact absurd e.symm (h.cut ht' a _)
    | cons a' as' =>
      rw [List.flatMap_cons, List.append_assoc] at e
      obtain ⟨rfl, hrest⟩ := h _ _ _ _ e
      obtain ⟨rfl, rfl⟩ := ih hrest
      exact ⟨rfl, rfl⟩

/-- the words of a stream are the first words of every stream that goes on from it -/
theorem parse_mono (h : TellsApart enc) {as as' : List γ} {rest t' : List β}
    (ht' : Cut enc t') (e : as.flatMap enc ++ rest = as'.flatMap enc ++ t') : as <+: as' := by
  induction as generalizing as' with
  | nil => exact List.nil_prefix
  | cons a as ih =>
    rw [List.flatMap_cons, List.append_assoc] at e
    cases as' with
    | nil => exact absurd e.symm (h.cut ht' a _)
    | cons a' as' =>
      rw [List.flatMap_cons, List.append_assoc] at e
      obtain ⟨rfl, hrest⟩ := h _ _ _ _ e
      exact List.cons_prefix_cons.mpr ⟨rfl, ih hrest⟩

/-- a sequence of words that ends with a word `stop`, which no letter of the code begins like -/
theorem TellsApart.seq (h : TellsApart enc) {stop : List β}
    (hstop : ∀ a rest rest', enc a ++ rest ≠ stop ++ rest') :
    TellsApart fun as : List γ => as.flatMap enc ++ stop := by
  intro as
  induction as with
  | nil =>
    intro as' rest rest' e
    cases as' with
    | nil => exact ⟨rfl, List.append_cancel_left e⟩
    | cons a' as' =>
      simp only [List.flatMap_nil, List.nil_append, List.flatMap_cons, List.append_assoc] at e
      exact absurd e.symm (hstop a' _ _)
  | cons a as ih =>
    intro as' rest rest' e
    cases as' with
    | nil =>
      simp only [List.flatMap_nil, List.nil_append, List.flatMap_cons, List.append_assoc] at e
      exact absurd e (hstop a _ _)
    | cons a' as' =>
      simp only [List.flatMap_cons, List.append_assoc] at e
      obtain ⟨rfl, hrest⟩ := h _ _ _ _ e
      obtain ⟨rfl, rfl⟩ := ih as' rest rest' (by rw [List.append_assoc, List.append_assoc]; exact hrest)
      exact ⟨rfl, rfl⟩

end PrefixCode
