import BoltWire.Lib.Online

/-!
# The language of a reader

* `Accepts x L`    `x` returns `a` exactly behind the words of `L a`;
* `Accepts.pure`, `.none`, `.bind`, `.map`   the languages of what calls are made of;
* `Accepts.short_iff`   on an input of which more may come, an online reader of words that can be
                   completed asks for more exactly on their proper beginnings.
-/

namespace Rust.Call
variable {β ε α γ : Type} {e : ε}

def Accepts (x : Call (List β) ε α) (L : α → List β → Prop) : Prop :=
  ∀ data a rest, x data = (.ok a, rest) ↔ ∃ enc, L a enc ∧ data = enc ++ rest

section
variable {x : Call (List β) ε α} {L L' : α → List β → Prop}

theorem Accepts.congr (hx : Accepts x L) (h : ∀ a enc, L a enc ↔ L' a enc) : Accepts x L' := by
  intro data a rest
  rw [hx data a rest]
  exact exists_congr fun enc => and_congr_left' (h a enc)

theorem Accepts.pure (a : α) :
    Accepts (pure a : Call (List β) ε α) fun a' enc => a' = a ∧ enc = [] := by
  intro data a' rest
  constructor
  · intro h
    cases h
    exact ⟨[], ⟨rfl, rfl⟩, rfl⟩
  · rintro ⟨enc, ⟨rfl, rfl⟩, rfl⟩
    rfl

/-- a call that never returns a value -/
theorem Accepts.none (h : ∀ data, ¬ ∃ a, (x data).1 = .ok a) : Accepts x fun _ _ => False := by
  intro data a rest
  constructor
  · intro hrun
    exact (h data ⟨a, congrArg Prod.fst hrun⟩).elim
  · rintro ⟨enc, hfalse, -⟩
    exact hfalse.elim

theorem Accepts.bind {f : α → Call (List β) ε γ} {M : α → γ → List β → Prop} (hx : Accepts x L)
    (hf : ∀ a, Accepts (f a) (M a)) : Accepts (x >>= f) fun c enc =>
      ∃ a enc₁ enc₂, L a enc₁ ∧ M a c enc₂ ∧ enc = enc₁ ++ enc₂ := by
  intro data c rest
  constructor
  · intro h
    obtain ⟨a, mid, hrun, hf'⟩ := ok_of_bind h
    obtain ⟨enc₁, h₁, rfl⟩ := (hx data a mid).mp hrun
    obtain ⟨enc₂, h₂, rfl⟩ := (hf a mid c rest).mp hf'
    exact ⟨enc₁ ++ enc₂, ⟨a, enc₁, enc₂, h₁, h₂, rfl⟩, (List.append_assoc _ _ _).symm⟩
  · rintro ⟨enc, ⟨a, enc₁, enc₂, h₁, h₂, rfl⟩, rfl⟩
    have hrun := (hx (enc₁ ++ (enc₂ ++ rest)) a (enc₂ ++ rest)).mpr ⟨enc₁, h₁, rfl⟩
    rw [List.append_assoc, bind_ok hrun]
    exact (hf a (enc₂ ++ rest) c rest).mpr ⟨enc₂, h₂, rfl⟩

theorem Accepts.map (hx : Accepts x L) (f : α → γ) :
    Accepts (x >>= fun a => Pure.pure (f a)) fun c enc => ∃ a, L a enc ∧ c = f a := by
  refine (hx.bind fun a => Accepts.pure (f a)).congr fun c enc => ?_
  constructor
  · rintro ⟨a, enc₁, enc₂, h, ⟨rfl, rfl⟩, rfl⟩
    exact ⟨a, by rwa [List.append_nil], rfl⟩
  · rintro ⟨a, h, rfl⟩
    exact ⟨a, enc, [], h, ⟨rfl, rfl⟩, (List.append_nil enc).symm⟩

theorem Accepts.takes (hx : Accepts x L) {a : α} {enc : List β} (h : L a enc) :
    Reads x enc (.ok a) := fun rest => (hx (enc ++ rest) a rest).mpr ⟨enc, h, rfl⟩

/-- **Words that are cut** are told from those that are wrong. -/
theorem Accepts.short_iff {l : Nat} (hx : Accepts x L) (ho : Online e x) (hv : Viable e l x)
    (data : List β) :
    (x data).1 = .err e ↔ ∃ a enc, L a enc ∧ data <+: enc ∧ data ≠ enc := by
  constructor
  · intro h
    obtain ⟨t, a, -, hrun⟩ := hv data h
    obtain ⟨enc, henc, heq⟩ := (hx (data ++ t) a []).mp hrun
    rw [List.append_nil] at heq
    refine ⟨a, enc, henc, ⟨t, heq⟩, ?_⟩
    rintro rfl
    have hok := hx.takes henc []
    rw [List.append_nil] at hok
    rw [hok] at h
    cases h
  · rintro ⟨a, enc, henc, hpre, hne⟩
    exact ho.short (hx.takes henc) hpre hne

end

end Rust.Call
