import BoltWire.ReaderFlat
import BoltWire.Lib.Online

/-!
# The reader on input of which more may come

Every part of the methods asks for more with `UnexpectedEof` and with nothing else.

* `readBe_hungry`, `readExactBytes_hungry`, `skipBytes_hungry`, `sizeLen_hungry`   what follows a marker;
* `readMarker_nil`, `readMarker_bad`, `readMarker_good`   the three ways of `readMarker`;
* `marked_online`, `marked_viable`   a marker and what is read after it.
-/

namespace Bolt
open Rust Rust.Call BigEndian

namespace PackStreamReader
variable {α : Type}

/-- a call that needs `n` bytes and takes them -/
theorem hungry_ensured {n : Nat} {x : Reader Bytes α} {f : Bytes → α}
    (h : ∀ data : Bytes, n ≤ data.length → x data = (.ok (f (data.take n)), data.drop n)) :
    Hungry .unexpectedEof n (ensure n >>= fun _ => x) where
  online data := by
    by_cases hlt : data.length < n
    · right
      rw [bind_err (ensure_short hlt)]
    · have hn := Nat.le_of_not_lt hlt
      have hlen : (data.take n).length = n := List.length_take_of_le hn
      refine .inl ⟨data.take n, .ok (f (data.take n)), List.take_prefix n data, nofun, ?_⟩
      refine takes_ensured hlen fun rest => ?_
      rw [h _ (by rw [List.length_append]; omega), List.take_left' hlen, List.drop_left' hlen]
  ends data := by
    by_cases hlt : data.length < n
    · right
      rw [bind_err (ensure_short hlt)]
    · have hn := Nat.le_of_not_lt hlt
      exact .inl ⟨f (data.take n), by rw [bind_ok (ensure_enough hn), h data hn]⟩
  viable data hd := by
    have hlt : data.length < n := by
      by_contra hge
      have hn := Nat.le_of_not_lt hge
      rw [bind_ok (ensure_enough hn), h data hn] at hd
      cases hd
    have hmiss : (List.replicate (n - data.length) (0 : UInt8)).length = n - data.length :=
      List.length_replicate
    have hlen : (data ++ List.replicate (n - data.length) 0).length = n := by
      rw [List.length_append, hmiss]
      omega
    refine ⟨List.replicate (n - data.length) 0,
      f ((data ++ List.replicate (n - data.length) 0).take n), ?_, ?_⟩
    · rw [hmiss]
      exact Nat.sub_le n data.length
    · rw [bind_ok (ensure_enough hlen.ge), h _ hlen.ge, List.drop_of_length_le hlen.le]

theorem readExactBytes_hungry (n : Nat) :
    Hungry .unexpectedEof n (readExactBytes n : Reader Bytes Bytes) :=
  hungry_ensured (f := id) fun _ hn => Bytes.copyToBytes_run hn

theorem skipBytes_hungry (n : Nat) : Hungry .unexpectedEof n (skipBytes n : Reader Bytes Unit) :=
  hungry_ensured (f := fun _ => ()) fun _ hn => Bytes.advance_run hn

variable [BytesCrate]

theorem readBe_hungry (n : Nat) (of : Nat → α) :
    Hungry .unexpectedEof n (readBe n of : Reader Bytes α) := by
  refine hungry_ensured (f := fun bs => of (ofBe bs)) fun data hn => ?_
  rw [bind_ok (getArray_flat hn), pure_run]

/-- a length helper on a marker of its own type -/
theorem sizeLen_hungry (of : Nat → α) {tiny : Marker → Option UInt8} {m8 m16 : Marker}
    {m32 : Option Marker} {marker : Marker}
    (h : tiny marker = none → marker = m8 ∨ marker = m16 ∨ some marker = m32) :
    Hungry .unexpectedEof 4 (sizeLen of tiny m8 m16 m32 marker : Reader Bytes α) := by
  unfold sizeLen
  cases ht : tiny marker with
  | some size => exact (Hungry.pure _).mono (by decide)
  | none =>
    by_cases h8 : marker = m8
    · rw [if_pos h8]
      exact ((readBe_hungry 1 UInt8.ofNat).map _).mono (by decide)
    rw [if_neg h8]
    by_cases h16 : marker = m16
    · rw [if_pos h16]
      exact ((readBe_hungry 2 UInt16.ofNat).map _).mono (by decide)
    rw [if_neg h16]
    have h32 : some marker = m32 := ((h ht).resolve_left h8).resolve_left h16
    rw [if_pos h32]
    exact (readBe_hungry 4 UInt32.ofNat).map _

/-- a length is at most a `u32` -/
theorem sizeLen_small {of : Nat → α} {tiny : Marker → Option UInt8} {m8 m16 : Marker}
    {m32 : Option Marker} {marker : Marker} {a : α}
    (h : Gives (sizeLen of tiny m8 m16 m32 marker : Reader Bytes α) a) : ∃ n < 2 ^ 32, a = of n := by
  obtain ⟨data, rest, h⟩ := h
  unfold sizeLen at h
  cases ht : tiny marker with
  | some size =>
    rw [ht] at h
    cases h
    exact ⟨size.toNat, Nat.lt_trans size.toNat_lt (by decide), rfl⟩
  | none =>
    rw [ht] at h
    simp only at h
    split at h
    · obtain ⟨n, mid, -, h⟩ := ok_of_bind h
      cases h
      exact ⟨n.toNat, Nat.lt_trans n.toNat_lt (by decide), rfl⟩
    split at h
    · obtain ⟨n, mid, -, h⟩ := ok_of_bind h
      cases h
      exact ⟨n.toNat, Nat.lt_trans n.toNat_lt (by decide), rfl⟩
    split at h
    · obtain ⟨n, mid, -, h⟩ := ok_of_bind h
      cases h
      exact ⟨n.toNat, n.toNat_lt, rfl⟩
    · obtain ⟨b, mid, -, h⟩ := ok_of_bind h
      cases h

/-! ## markers -/

theorem readMarker_nil : (readMarker : Reader Bytes Marker) [] = (.err .unexpectedEof, []) :=
  bind_err readU8_nil _

theorem readMarker_bad {b : UInt8} {e : MarkerError} (h : Marker.fromByte b = .error e)
    (rest : Bytes) : (readMarker : Reader Bytes Marker) (b :: rest) = (.err (.invalidMarker b), rest) := by
  show (readU8 >>= _) (b :: rest) = _
  rw [bind_ok (readU8_cons b rest), h]
  rfl

theorem readMarker_good {b : UInt8} {m : Marker} (h : Marker.fromByte b = .ok m) (rest : Bytes) :
    (readMarker : Reader Bytes Marker) (b :: rest) = (.ok m, rest) :=
  readMarker_takes (toByte_of_fromByte h) rest

theorem readMarker_online : Online .unexpectedEof (readMarker : Reader Bytes Marker) := by
  intro data
  cases data with
  | nil =>
    right
    rw [readMarker_nil]
  | cons b rest =>
    left
    cases h : Marker.fromByte b with
    | ok m => exact ⟨[b], .ok m, ⟨rest, rfl⟩, nofun, readMarker_good h⟩
    | error e => exact ⟨[b], .err (.invalidMarker b), ⟨rest, rfl⟩, nofun, readMarker_bad h⟩

theorem marked_online {f : Marker → Reader Bytes α} (hf : ∀ m, Online .unexpectedEof (f m)) :
    Online .unexpectedEof (readMarker >>= f) := readMarker_online.bind fun m _ => hf m

/-- what is read after a marker is read to the end or not at all, and there is a marker for it -/
theorem marked_viable {f : Marker → Reader Bytes α} {l : Nat} {m₀ : Marker} (hm₀ : m₀.Known)
    (h₀ : Hungry .unexpectedEof l (f m₀))
    (hf : ∀ m, Hungry .unexpectedEof l (f m) ∨ ∀ data, (f m data).1 ≠ .err .unexpectedEof) :
    Viable .unexpectedEof (1 + l) (readMarker >>= f) := by
  intro data hd
  cases data with
  | nil =>
    obtain ⟨b, hb⟩ := hm₀
    obtain ⟨t, a, ht, hrun⟩ := h₀.start
    refine ⟨b :: t, a, ?_, ?_⟩
    · rw [List.length_cons]
      omega
    · show (readMarker >>= f) (b :: t) = _
      rw [bind_ok (readMarker_good (fromByte_of_toByte hb) t), hrun]
  | cons b rest =>
    cases h : Marker.fromByte b with
    | ok m =>
      rw [bind_ok (readMarker_good h rest)] at hd
      rcases hf m with hm | hm
      · obtain ⟨t, a, ht, hrun⟩ := hm.viable rest hd
        refine ⟨t, a, Nat.le_trans ht (Nat.le_add_left l 1), ?_⟩
        rw [List.cons_append, bind_ok (readMarker_good h (rest ++ t)), hrun]
      · exact absurd hd (hm rest)
    | error e =>
      rw [bind_err (readMarker_bad h rest)] at hd
      cases hd

end PackStreamReader
end Bolt
