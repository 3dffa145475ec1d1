import BoltWire.Lib.Alike
import BoltWire.Lib.Online

/-!
# Verdicts that more input cannot change

A reader may look at its input before it takes any of it, so that an error need not come behind a
part that was taken.

* `Settled e x`    unless `x` asks for more with `e`, it ends in the same way on every longer input,
                   and leaves what was added;
* `Online.settled`, `Settled.bind`, `Settled.gather`   where such readers come from;
* `Settled.of_map`, `Takes.of_map`   what is done with the value does not matter;
* `Short e x enc`    on every proper beginning of `enc` the call `x` ends with `e`;
* `Online.breaks`, `Settled.short`   so it does on what it reads;
* `Fills l e e' x`  an input shorter than `l` that is empty or asks for more can be continued to what
                   `x` takes whole, or to its error `e'`;
* `Fills.bind`, `Fills.consume`, `Fills.gather`   so it is for calls in a row;
* `Row L as enc`   words for `as` in a row; `Row.takes` they are read one by one.
-/

namespace Rust.Call
variable {β ε α γ : Type} {e : ε}

def Settled (e : ε) (x : Call (List β) ε α) : Prop :=
  ∀ data more, (x data).1 ≠ .err e → x (data ++ more) = ((x data).1, (x data).2 ++ more)

theorem Online.settled {x : Call (List β) ε α} (hx : Online e x) : Settled e x := by
  intro data more h
  rcases hx data with ⟨enc, r, ⟨t, rfl⟩, -, hreads⟩ | hmore
  · rw [List.append_assoc, hreads, hreads]
  · exact absurd hmore h

theorem Settled.pure (a : α) : Settled e (pure a : Call (List β) ε α) := fun _ _ _ => rfl

theorem Settled.bind {x : Call (List β) ε α} {f : α → Call (List β) ε γ} (hx : Settled e x)
    (hf : ∀ a, Settled e (f a)) : Settled e (x >>= f) := by
  intro data more h
  have hlonger := hx data more
  rw [bind_run] at h
  rcases hr : x data with ⟨a | e' | _ | _, mid⟩
  · rw [hr] at h hlonger
    rw [bind_ok (hlonger nofun), bind_ok hr]
    exact hf a mid more h
  · rw [hr] at h hlonger
    have he : (Res.err e' : Res ε α) ≠ .err e := fun he => h (congrArg Res.err (Res.err.inj he))
    rw [bind_err (hlonger he), bind_err hr]
  all_goals
    rw [hr] at hlonger
    rw [bind_run, hlonger nofun, bind_run, hr]

theorem Settled.gather {x : Call (List β) ε α} (hx : Settled e x) (n : Nat) :
    Settled e (gather x n) := by
  induction n with
  | zero => exact Settled.pure []
  | succ n ih => exact hx.bind fun a => ih.bind fun as => Settled.pure (a :: as)

theorem map_run (x : Call (List β) ε α) (f : α → γ) (data : List β) :
    (x >>= fun a => Pure.pure (f a)) data = (Res.map f (x data).1, (x data).2) := by
  rw [bind_run]
  rcases x data with ⟨a | e' | _ | _, rest⟩ <;> rfl

theorem map_injective {f : α → γ} (hf : Function.Injective f) :
    Function.Injective (Res.map f : Res ε α → Res ε γ) := by
  intro r r' h
  cases r <;> cases r' <;> simp [Res.map] at h ⊢
  · exact hf h
  · exact h

theorem Takes.of_map {x : Call (List β) ε α} {f : α → γ} (hf : Function.Injective f) {enc : List β}
    {a : α} (h : Takes (x >>= fun a => Pure.pure (f a)) enc (f a)) : Takes x enc a := by
  intro rest
  have hrun := h rest
  rw [map_run] at hrun
  obtain ⟨hres, hrest⟩ := Prod.mk.inj hrun
  exact Prod.ext (map_injective hf (hres.trans rfl : _ = Res.map f (.ok a))) hrest

theorem Settled.of_map {x : Call (List β) ε α} {f : α → γ} (hf : Function.Injective f)
    (h : Settled e (x >>= fun a => Pure.pure (f a))) : Settled e x := by
  intro data more hne
  have hlonger := h data more
  rw [map_run, map_run] at hlonger
  have hend := hlonger fun he => hne (map_injective hf (he : _ = Res.map f (.err e)))
  obtain ⟨hres, hrest⟩ := Prod.mk.inj hend
  exact Prod.ext (map_injective hf hres) hrest

/-! ## readings that break off -/

def Short (e : ε) (x : Call (List β) ε α) (enc : List β) : Prop :=
  ∀ part, part <+: enc → part ≠ enc → (x part).1 = .err e

theorem Online.breaks {x : Call (List β) ε α} (hx : Online e x) {enc : List β} {a : α}
    (h : Takes x enc a) : Short e x enc := fun _ => hx.short h

theorem Settled.short {x : Call (List β) ε α} (hx : Settled e x) {enc : List β} {a : α}
    (h : Takes x enc a) : Short e x enc := by
  rintro part ⟨t, rfl⟩ hne
  by_contra hend
  have hwhole := h []
  rw [List.append_nil, hx part t hend] at hwhole
  have hleft : t = [] := (List.append_eq_nil_iff.mp (congrArg Prod.snd hwhole)).2
  rw [hleft, List.append_nil] at hne
  exact hne rfl

/-- behind what the first readings take, the next one ends the series -/
theorem gather_stops {x : Call (List β) ε α} {enc : α → List β} {t : List β}
    (ht : (x t).1 = .err e) (n : Nat) : ∀ as : List α, (∀ a ∈ as, Takes x (enc a) a) →
    (gather x (as.length + (n + 1)) (as.flatMap enc ++ t)).1 = .err e := by
  intro as
  induction as with
  | nil =>
    intro _
    rw [List.length_nil, Nat.zero_add]
    exact bind_fails ht _
  | cons a as ih =>
    intro h
    have hrest := ih fun a' ha' => h a' (List.mem_cons_of_mem a ha')
    rw [List.length_cons, Nat.succ_add, List.flatMap_cons, List.append_assoc, gather,
      bind_ok (h a List.mem_cons_self _)]
    exact bind_fails hrest _

/-! ## inputs that can be continued -/

variable {e' : ε} {l : Nat}

/-- the continuation is taken whole, unless the input is already one that `e'` rejects -/
def Whole (e' : ε) (x : Call (List β) ε α) (data : List β) : Prop :=
  ∃ more, (∃ a, x (data ++ more) = (.ok a, [])) ∨ (x (data ++ more)).1 = .err e'

def Fills (l : Nat) (e e' : ε) (x : Call (List β) ε α) : Prop :=
  ∀ data, data.length < l → data = [] ∨ (x data).1 = .err e → Whole e' x data

theorem Fills.pure (a : α) : Fills l e e' (pure a : Call (List β) ε α) := by
  rintro data - (rfl | h)
  · exact ⟨[], .inl ⟨a, rfl⟩⟩
  · cases h

/-- what continues the first call is continued by what the second one takes -/
theorem Whole.bind {x : Call (List β) ε α} {f : α → Call (List β) ε γ} {data : List β}
    (hx : Whole e' x data) (hs : Settled e x) (hf : ∀ a, Whole e' (f a) []) :
    Whole e' (x >>= f) data := by
  obtain ⟨more, ⟨a, hrun⟩ | herr⟩ := hx
  · obtain ⟨more', hrest⟩ := hf a
    have hok : (x (data ++ more)).1 ≠ .err e := by
      rw [hrun]
      nofun
    have hlonger : x (data ++ (more ++ more')) = (.ok a, more') := by
      rw [← List.append_assoc, hs _ more' hok, hrun]
      rfl
    refine ⟨more ++ more', ?_⟩
    rw [bind_ok hlonger]
    exact hrest
  · exact ⟨more, .inr (bind_fails herr f)⟩

/-- the second call is made on what the first one has left, the continuation included -/
theorem Whole.behind {x : Call (List β) ε α} {f : α → Call (List β) ε γ} {data rest : List β} {a : α}
    (hx : x data = (.ok a, rest)) (hs : Settled e x) (hf : Whole e' (f a) rest) :
    Whole e' (x >>= f) data := by
  obtain ⟨more, hrest⟩ := hf
  have hok : (x data).1 ≠ .err e := by
    rw [hx]
    nofun
  have hlonger : x (data ++ more) = (.ok a, rest ++ more) := by
    rw [hs data more hok, hx]
  refine ⟨more, ?_⟩
  rw [bind_ok hlonger]
  exact hrest

theorem err_of_bind {x : Call (List β) ε α} {f : α → Call (List β) ε γ} {data : List β}
    (h : ((x >>= f) data).1 = .err e) :
    (x data).1 = .err e ∨ ∃ a rest, x data = (.ok a, rest) ∧ (f a rest).1 = .err e := by
  rw [bind_run] at h
  rcases hr : x data with ⟨a | e₁ | _ | _, rest⟩
  · rw [hr] at h
    exact .inr ⟨a, rest, rfl, h⟩
  · rw [hr] at h
    exact .inl (congrArg Res.err (Res.err.inj h))
  all_goals
    rw [hr] at h
    cases h

theorem Fills.bind {x : Call (List β) ε α} {f : α → Call (List β) ε γ} (hx : Fills l e e' x)
    (hs : Settled e x) (hshrinks : Shrinks x) (hf : ∀ a, Fills l e e' (f a)) :
    Fills l e e' (x >>= f) := by
  intro data hl h
  have hnil : ∀ a, Whole e' (f a) [] := fun a => hf a [] (Nat.zero_lt_of_lt hl) (.inl rfl)
  rcases h with rfl | h
  · exact (hx [] hl (.inl rfl)).bind hs hnil
  rcases err_of_bind h with hmore | ⟨a, rest, hok, hmore⟩
  · exact (hx data hl (.inr hmore)).bind hs hnil
  · have hrest := Nat.lt_of_le_of_lt (hshrinks data a rest hok) hl
    exact Whole.behind hok hs (hf a rest hrest (.inr hmore))

theorem Fills.consume {x : Call (List β) ε α} {f : α → Call (List β) ε γ} (hx : Fills (l + 1) e e' x)
    (hs : Settled e x) (hc : Consumes x) (hl : 0 < l) (hf : ∀ a, Fills l e e' (f a)) :
    Fills (l + 1) e e' (x >>= f) := by
  intro data hdata h
  have hnil : ∀ a, Whole e' (f a) [] := fun a => hf a [] hl (.inl rfl)
  rcases h with rfl | h
  · exact (hx [] hdata (.inl rfl)).bind hs hnil
  rcases err_of_bind h with hmore | ⟨a, rest, hok, hmore⟩
  · exact (hx data hdata (.inr hmore)).bind hs hnil
  · have hrest := Nat.lt_of_lt_of_le (hc data a rest hok) (Nat.le_of_lt_succ hdata)
    exact Whole.behind hok hs (hf a rest hrest (.inr hmore))

theorem Fills.gather {x : Call (List β) ε α} (hx : Fills l e e' x) (hs : Settled e x)
    (hshrinks : Shrinks x) (n : Nat) : Fills l e e' (gather x n) := by
  induction n with
  | zero => exact Fills.pure []
  | succ n ih =>
    refine hx.bind hs hshrinks fun a => ih.bind (hs.gather n) (hshrinks.gather n) fun as => ?_
    exact Fills.pure (a :: as)

/-- what is done with the value does not matter -/
theorem Fills.of_map {x : Call (List β) ε α} {f : α → γ}
    (h : Fills l e e' (x >>= fun a => Pure.pure (f a))) : Fills l e e' x := by
  intro data hl hmore
  have hmap : data = [] ∨ ((x >>= fun a => Pure.pure (f a)) data).1 = .err e :=
    hmore.imp_right fun herr => bind_fails herr _
  obtain ⟨more, ⟨c, hrun⟩ | herr⟩ := h data hl hmap
  · obtain ⟨a, mid, hx, hpure⟩ := ok_of_bind hrun
    cases hpure
    exact ⟨more, .inl ⟨a, hx⟩⟩
  · rcases err_of_bind herr with herr | ⟨a, rest, -, hpure⟩
    · exact ⟨more, .inr herr⟩
    · cases hpure

/-! ## words in a row -/

inductive Row (L : α → List β → Prop) : List α → List β → Prop where
  | nil : Row L [] []
  | cons {a : α} {as : List α} {enc encs : List β} (head : L a enc) (tail : Row L as encs) :
      Row L (a :: as) (enc ++ encs)

theorem Row.takes {L : α → List β → Prop} {x : Call (List β) ε α} {as : List α} {encs : List β}
    (h : Row L as encs) : (∀ a ∈ as, ∀ enc, L a enc → Takes x enc a) →
    Takes (Call.gather x as.length) encs as := by
  induction h with
  | nil => exact fun _ rest => rfl
  | cons head tail ih =>
    intro hx rest
    have hone := hx _ List.mem_cons_self _ head
    have hrest := ih fun a ha => hx a (List.mem_cons_of_mem _ ha)
    rw [List.length_cons, Call.gather, List.append_assoc, bind_ok (hone _), bind_ok (hrest rest)]
    rfl

end Rust.Call
