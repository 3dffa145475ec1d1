import Mathlib.Tactic.Ring
import Mathlib.Tactic.NormNum

/-!
# Big-endian bytes of naturals

* `toBe w n`       the `w` big-endian bytes of `n` (higher bits are dropped);
* `ofBe`           the natural with the given bytes;
* `ofBe_toBe`, `toBe_ofBe`   the two round trips, `ofBe_lt` the range of `ofBe`;
* `FitsIn w`, `twos w`   signed numbers of `w` bytes and their two's complement;
* `bmod_ofBe_iff`  reading bytes as a signed number undoes it.
-/

namespace BigEndian

def toBe : Nat → Nat → List UInt8
  | 0, _ => []
  | w + 1, n => UInt8.ofNat (n / 256 ^ w) :: toBe w n

def ofBe : List UInt8 → Nat
  | [] => 0
  | b :: bs => b.toNat * 256 ^ bs.length + ofBe bs

theorem toBe_succ (w n : Nat) : toBe (w + 1) n = UInt8.ofNat (n / 256 ^ w) :: toBe w n := rfl
theorem ofBe_nil : ofBe [] = 0 := rfl
theorem ofBe_cons (b : UInt8) (bs : List UInt8) :
    ofBe (b :: bs) = b.toNat * 256 ^ bs.length + ofBe bs := rfl

@[simp] theorem length_toBe (w n : Nat) : (toBe w n).length = w := by
  induction w with
  | zero => rfl
  | succ w ih => rw [toBe_succ, List.length_cons, ih]

theorem ofBe_lt (bs : List UInt8) : ofBe bs < 256 ^ bs.length := by
  induction bs with
  | nil => exact Nat.one_pos
  | cons b bs ih =>
    have hb : b.toNat < 256 := b.toNat_lt
    rw [ofBe_cons, List.length_cons, Nat.pow_succ]
    have h : b.toNat * 256 ^ bs.length ≤ 255 * 256 ^ bs.length :=
      Nat.mul_le_mul_right _ (by omega)
    omega

theorem ofBe_toBe (w n : Nat) : ofBe (toBe w n) = n % 256 ^ w := by
  induction w with
  | zero => rw [Nat.pow_zero, Nat.mod_one]; rfl
  | succ w ih =>
    have hb : (UInt8.ofNat (n / 256 ^ w)).toNat = n / 256 ^ w % 256 := UInt8.toNat_ofNat'
    rw [toBe_succ, ofBe_cons, ih, length_toBe, hb, Nat.pow_succ, Nat.mod_mul, Nat.mul_comm,
      Nat.add_comm]

theorem ofBe_toBe_of_lt {w n : Nat} (h : n < 256 ^ w) : ofBe (toBe w n) = n := by
  rw [ofBe_toBe, Nat.mod_eq_of_lt h]

theorem toBe_add_mul (w a n : Nat) (h : n < 256 ^ w) : ∀ v, v ≤ w →
    toBe v (a * 256 ^ w + n) = toBe v n := by
  intro v
  induction v with
  | zero => intro _; rfl
  | succ v ih =>
    intro hv
    rw [toBe_succ, toBe_succ, ih (by omega)]
    congr 1
    apply UInt8.toNat_inj.mp
    rw [UInt8.toNat_ofNat', UInt8.toNat_ofNat']
    obtain ⟨d, rfl⟩ : ∃ d, w = v + (d + 1) := ⟨w - v - 1, by omega⟩
    have e : a * 256 ^ (v + (d + 1)) + n = 256 ^ v * (a * 256 ^ d * 256) + n := by ring
    rw [e, Nat.mul_add_div (Nat.pow_pos (by norm_num)), Nat.mul_comm (a * 256 ^ d) 256,
      Nat.mul_add_mod]

theorem toBe_ofBe (bs : List UInt8) : toBe bs.length (ofBe bs) = bs := by
  induction bs with
  | nil => rfl
  | cons b bs ih =>
    have hlt := ofBe_lt bs
    rw [List.length_cons, toBe_succ, ofBe_cons, toBe_add_mul _ _ _ hlt _ le_rfl, ih,
      Nat.mul_comm, Nat.mul_add_div (Nat.pow_pos (by norm_num)), Nat.div_eq_of_lt hlt,
      Nat.add_zero, UInt8.ofNat_toNat]

/-! ## signed numbers -/

/-- the range of a signed number of `w` bytes -/
def FitsIn (w : Nat) (i : Int) : Prop := -(2 ^ (8 * w - 1)) ≤ i ∧ i < 2 ^ (8 * w - 1)

instance (w : Nat) (i : Int) : Decidable (FitsIn w i) :=
  inferInstanceAs (Decidable (-(2 ^ (8 * w - 1)) ≤ i ∧ i < 2 ^ (8 * w - 1)))

/-- the two's complement of `i` in `w` bytes -/
def twos (w : Nat) (i : Int) : List UInt8 := toBe w (i % 256 ^ w).toNat

@[simp] theorem length_twos (w : Nat) (i : Int) : (twos w i).length = w := length_toBe w _

theorem pow_256 {w : Nat} (hw : 0 < w) : 256 ^ w = 2 * 2 ^ (8 * w - 1) := by
  rw [← Nat.pow_succ', Nat.succ_eq_add_one, Nat.sub_add_cancel (by omega), Nat.pow_mul]

theorem eq_toBe_iff {w n : Nat} (hn : n < 256 ^ w) {bs : List UInt8} (hlen : bs.length = w) :
    bs = toBe w n ↔ ofBe bs = n := by
  constructor
  · rintro rfl
    exact ofBe_toBe_of_lt hn
  · rintro rfl
    rw [← hlen, toBe_ofBe]

/-- bytes are read as a signed number exactly when they are its two's complement -/
theorem bmod_ofBe_iff {w : Nat} (hw : 0 < w) {bs : List UInt8} (hlen : bs.length = w) (i : Int) :
    (ofBe bs : Int).bmod (256 ^ w) = i ↔ FitsIn w i ∧ bs = twos w i := by
  have hpow := pow_256 hw
  have hlt : ofBe bs < 256 ^ w := hlen ▸ ofBe_lt bs
  have hpos : 0 < 256 ^ w := Nat.zero_lt_of_lt hlt
  have hmod : 0 ≤ i % ((256 ^ w : Nat) : Int) ∧ i % ((256 ^ w : Nat) : Int) < (256 ^ w : Nat) :=
    ⟨Int.emod_nonneg _ (by omega), Int.emod_lt_of_pos _ (by omega)⟩
  have hdvd : ((256 ^ w : Nat) : Int) ∣ i - ofBe bs ↔ i % ((256 ^ w : Nat) : Int) = ofBe bs := by
    have hself : (ofBe bs : Int) % ((256 ^ w : Nat) : Int) = ofBe bs :=
      Int.emod_eq_of_lt (by omega) (by omega)
    rw [Int.dvd_iff_emod_eq_zero, ← Int.emod_eq_emod_iff_emod_sub_eq_zero, hself]
  have htwos : bs = twos w i ↔ ofBe bs = (i % ((256 ^ w : Nat) : Int)).toNat := by
    have hcast : ((256 ^ w : Nat) : Int) = 256 ^ w := by rw [Nat.cast_pow, Nat.cast_ofNat]
    rw [← eq_toBe_iff (by omega) hlen, hcast, twos]
  have hfits : FitsIn w i ↔ -((2 ^ (8 * w - 1) : Nat) : Int) ≤ i ∧ i < (2 ^ (8 * w - 1) : Nat) := by
    rw [FitsIn, Nat.cast_pow, Nat.cast_ofNat]
  rw [Int.bmod_eq_iff hpos, hdvd, htwos, hfits]
  generalize i % ((256 ^ w : Nat) : Int) = r at hmod
  omega

end BigEndian
