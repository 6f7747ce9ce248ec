import Gvsoc.Cpu.Lsu

/-! # Granules and the split of a misaligned access

`data_req` compares the first and last byte of an access under `ADDR_MASK`.
`ADDR_MASK` rounds an address down to its granule, so the comparison asks
whether the access crosses a granule boundary. For one that does,
`data_misaligned_req` cuts it at the boundary; `split_halves` says what the
two halves are, wrap-around at the top of the address space included.
-/

namespace Gvsoc.Cpu

set_option autoImplicit false

variable {P : Platform}

namespace Platform

variable (P : Platform)

theorem granule_pos : 0 < P.granule := Nat.two_pow_pos _

theorem granule_dvd : P.granule ∣ 2 ^ P.addrWidth := Nat.pow_dvd_pow 2 P.granuleBits_le

theorem granule_le : P.granule ≤ 2 ^ P.addrWidth := Nat.le_of_dvd (Nat.two_pow_pos _) P.granule_dvd

end Platform

/-- The granule holding byte address `a`. -/
def granuleIndex (a : Addr P) : Nat := a.toNat / P.granule

/-- The address of the last byte of an access, `addr + size - 1`. -/
def lastByte (addr : Addr P) (size : Int) : Addr P := addr + BitVec.ofInt _ size - 1

/-- An access whose first and last bytes lie in different granules. -/
def Crosses (addr : Addr P) (size : Int) : Prop :=
  granuleIndex addr ≠ granuleIndex (lastByte addr size)

instance (addr : Addr P) (size : Int) : Decidable (Crosses addr size) :=
  inferInstanceAs (Decidable (_ ≠ _))

/-- `addr1` of `data_misaligned_req`: the granule of the access's last byte. -/
def splitAddr (addr : Addr P) (size : Int) : Addr P := lastByte addr size &&& P.addrMask

/-- `size0` of `data_misaligned_req`: the bytes of the first half. -/
def splitSize (addr : Addr P) (size : Int) : Int := toCInt (splitAddr addr size - addr).toNat

/-- The sizes the pipeline passes to `data_req`: an `int` from one byte up to
the granule. -/
def AccessSize (P : Platform) (size : Int) : Prop := 1 ≤ size ∧ size ≤ P.granule ∧ size < 2 ^ 31

/-- `ADDR_MASK` rounds an address down to the base of its granule. -/
theorem toNat_and_addrMask (x : Addr P) :
    (x &&& P.addrMask).toNat = x.toNat - x.toNat % P.granule := by
  set m : Addr P := BitVec.ofNat P.addrWidth (P.granule - 1)
  have hm : m.toNat = 2 ^ P.granuleBits - 1 :=
    Nat.mod_eq_of_lt (by have := P.granule_le; have := P.granule_pos; unfold Platform.granule at *; omega)
  have hdisjoint : (x &&& ~~~m) &&& (x &&& m) = 0#_ := by
    ext i
    simp only [BitVec.getLsbD_and, BitVec.getLsbD_not, BitVec.getLsbD_zero]
    cases x.getLsbD i <;> cases m.getLsbD i <;> simp
  have hjoin : (x &&& ~~~m) ||| (x &&& m) = x := by
    ext i
    simp only [BitVec.getLsbD_and, BitVec.getLsbD_not, BitVec.getLsbD_or]
    cases x.getLsbD i <;> cases m.getLsbD i <;> simp_all
  have hsum := BitVec.toNat_add_of_and_eq_zero hdisjoint
  rw [BitVec.add_eq_or_of_and_eq_zero _ _ hdisjoint, hjoin, BitVec.toNat_and x m, hm,
    Nat.and_pow_two_sub_one_eq_mod] at hsum
  show (x &&& ~~~m).toNat = x.toNat - x.toNat % 2 ^ P.granuleBits
  omega

private theorem div_eq_div_iff_base (x y : Nat) :
    x / P.granule = y / P.granule ↔ x - x % P.granule = y - y % P.granule := by
  have hx := Nat.mod_add_div x P.granule
  have hy := Nat.mod_add_div y P.granule
  constructor
  · intro h
    rw [h] at hx
    omega
  · intro h
    exact Nat.eq_of_mul_eq_mul_left P.granule_pos (by omega)

theorem and_addrMask_eq_iff (x y : Addr P) :
    x &&& P.addrMask = y &&& P.addrMask ↔ granuleIndex x = granuleIndex y := by
  rw [BitVec.toNat_eq, toNat_and_addrMask, toNat_and_addrMask, granuleIndex, granuleIndex,
    div_eq_div_iff_base]

theorem lastByte_succ (addr : Addr P) (m : Nat) :
    lastByte addr ((m + 1 : Nat) : Int) = addr + BitVec.ofNat _ m := by
  rw [lastByte, BitVec.ofInt_natCast, BitVec.ofNat_add, add_sub_assoc]
  simp

private theorem add_granule_le {x y : Nat} (hx : x % P.granule = 0) (hy : y % P.granule = 0)
    (h : x < y) : x + P.granule ≤ y := by
  obtain ⟨p, rfl⟩ := Nat.dvd_of_mod_eq_zero hx
  obtain ⟨q, rfl⟩ := Nat.dvd_of_mod_eq_zero hy
  have := Nat.lt_of_mul_lt_mul_left h
  calc P.granule * p + P.granule = P.granule * (p + 1) := (Nat.mul_succ _ _).symm
    _ ≤ P.granule * q := Nat.mul_le_mul_left _ this

private theorem base_eq {x b : Nat} (hb : b % P.granule = 0) (h1 : b ≤ x) (h2 : x < b + P.granule) :
    x - x % P.granule = b := by
  obtain ⟨q, rfl⟩ := Nat.dvd_of_mod_eq_zero hb
  have : x % P.granule = x - P.granule * q := by
    conv_lhs => rw [show x = (x - P.granule * q) + P.granule * q by omega]
    rw [Nat.add_mul_mod_self_left, Nat.mod_eq_of_lt (by omega)]
  omega

/-- The facts about a crossing access that the split arithmetic rests on: its
size is `m + 1`, `b` is the base of its first granule and `r` its offset there. -/
structure CrossingFacts (a m b r : Nat) (P : Platform) : Prop where
  offset_lt : r < P.granule
  base_add : b + r = a
  base_mod : b % P.granule = 0
  granule_lt : P.granule < 2 ^ P.addrWidth
  crosses : P.granule ≤ r + m
  next_le : b + P.granule ≤ 2 ^ P.addrWidth

theorem crossingFacts {addr : Addr P} {m : Nat} (hm : m + 1 ≤ P.granule)
    (h : Crosses addr ((m + 1 : Nat) : Int)) :
    CrossingFacts addr.toNat m (addr.toNat - addr.toNat % P.granule) (addr.toNat % P.granule) P := by
  have hr := Nat.mod_lt addr.toNat P.granule_pos
  have hle := Nat.mod_le addr.toNat P.granule
  have hb : (addr.toNat - addr.toNat % P.granule) % P.granule = 0 :=
    Nat.sub_mod_eq_zero_of_mod_eq (by simp)
  have ha := addr.isLt
  have hnext := add_granule_le hb (Nat.mod_eq_zero_of_dvd P.granule_dvd) (by omega)
  unfold Crosses granuleIndex at h
  rw [lastByte_succ, BitVec.toNat_add, BitVec.toNat_ofNat, Nat.add_mod_mod] at h
  have hG : P.granule < 2 ^ P.addrWidth := by
    rcases Nat.lt_or_eq_of_le P.granule_le with hlt | heq
    · exact hlt
    · rw [heq, Nat.div_eq_of_lt ha, Nat.div_eq_of_lt (Nat.mod_lt _ (by omega))] at h
      exact absurd rfl h
  have hcross : P.granule ≤ addr.toNat % P.granule + m := by
    by_contra hlt
    rw [Ne, Nat.mod_eq_of_lt (by omega : addr.toNat + m < 2 ^ P.addrWidth), div_eq_div_iff_base,
      base_eq (x := addr.toNat + m) hb (by omega) (by omega)] at h
    exact h rfl
  exact ⟨hr, by omega, hb, hG, hcross, hnext⟩

theorem CrossingFacts.last_eq {a m b r : Nat} (h : CrossingFacts a m b r P) (hm : m + 1 ≤ P.granule) :
    (a + m < 2 ^ P.addrWidth ∧ b + P.granule ≤ a + m) ∨
    (2 ^ P.addrWidth ≤ a + m ∧ b + P.granule = 2 ^ P.addrWidth) := by
  rcases Nat.lt_or_ge (a + m) (2 ^ P.addrWidth) with hlt | hge
  · exact .inl ⟨hlt, by have := h.crosses; have := h.base_add; omega⟩
  · refine .inr ⟨hge, ?_⟩
    by_contra hne
    have := add_granule_le (by rw [Nat.add_mod, h.base_mod, Nat.mod_self]; simp)
      (Nat.mod_eq_zero_of_dvd P.granule_dvd) (show b + P.granule < 2 ^ P.addrWidth by have := h.next_le; omega)
    have := h.offset_lt
    have := h.base_add
    omega

theorem addr1_toNat {addr : Addr P} {m : Nat} (hm : m + 1 ≤ P.granule)
    (hc : Crosses addr ((m + 1 : Nat) : Int)) :
    (lastByte addr ((m + 1 : Nat) : Int) &&& P.addrMask).toNat =
      (addr.toNat - addr.toNat % P.granule + P.granule) % 2 ^ P.addrWidth := by
  have h := crossingFacts hm hc
  have := h.offset_lt
  have := h.base_add
  rw [toNat_and_addrMask, lastByte_succ, BitVec.toNat_add, BitVec.toNat_ofNat, Nat.add_mod_mod]
  rcases h.last_eq hm with ⟨hlt, hle⟩ | ⟨hge, heq⟩
  · rw [Nat.mod_eq_of_lt hlt, Nat.mod_eq_of_lt (by omega : _ + P.granule < 2 ^ P.addrWidth),
      base_eq (by rw [Nat.add_mod_right, h.base_mod]) hle (by omega)]
  · have hx : (addr.toNat + m) % 2 ^ P.addrWidth < P.granule := by
      rw [Nat.mod_eq_sub_mod hge, Nat.mod_eq_of_lt (by omega)]
      omega
    rw [heq, Nat.mod_self, Nat.mod_eq_of_lt hx, Nat.sub_self]

theorem addr1_sub_toNat {addr : Addr P} {m : Nat} (hm : m + 1 ≤ P.granule)
    (hc : Crosses addr ((m + 1 : Nat) : Int)) :
    ((lastByte addr ((m + 1 : Nat) : Int) &&& P.addrMask) - addr).toNat =
      P.granule - addr.toNat % P.granule := by
  have h := crossingFacts hm hc
  have := h.offset_lt
  have := h.base_add
  have := h.granule_lt
  rw [BitVec.toNat_sub, addr1_toNat hm hc]
  rcases h.last_eq hm with ⟨hlt, hle⟩ | ⟨hge, heq⟩
  · rw [Nat.mod_eq_of_lt (by omega : addr.toNat - addr.toNat % P.granule + P.granule < 2 ^ P.addrWidth),
      show 2 ^ P.addrWidth - addr.toNat + (addr.toNat - addr.toNat % P.granule + P.granule) =
        2 ^ P.addrWidth + (P.granule - addr.toNat % P.granule) by omega,
      Nat.add_mod_left, Nat.mod_eq_of_lt (by omega)]
  · rw [heq, Nat.mod_self, Nat.add_zero, Nat.mod_eq_of_lt (by omega)]
    omega

theorem toCInt_of_lt {n : Nat} (h : n < 2 ^ 31) : toCInt n = n := by
  unfold toCInt
  split <;> omega

private theorem not_crosses_of_le {addr : Addr P} {n : Nat} (h1 : 1 ≤ n)
    (hn : addr.toNat % P.granule + n ≤ P.granule) (hw : addr.toNat - addr.toNat % P.granule + P.granule ≤ 2 ^ P.addrWidth) :
    ¬Crosses addr (n : Int) := by
  obtain ⟨m, rfl⟩ : ∃ m, n = m + 1 := ⟨n - 1, by omega⟩
  have hb : (addr.toNat - addr.toNat % P.granule) % P.granule = 0 :=
    Nat.sub_mod_eq_zero_of_mod_eq (by simp)
  have := Nat.mod_le addr.toNat P.granule
  unfold Crosses granuleIndex
  rw [lastByte_succ, BitVec.toNat_add, BitVec.toNat_ofNat, Nat.add_mod_mod,
    Nat.mod_eq_of_lt (by omega), not_not, div_eq_div_iff_base,
    base_eq (x := addr.toNat + m) hb (by omega) (by omega)]

/-- What `data_misaligned_req` computes for an access that crosses a granule
boundary: the first half runs up to the boundary and the second half starts
on it; both are non-empty and neither crosses a boundary. -/
theorem split_halves {addr : Addr P} {size : Int} (hSize : AccessSize P size)
    (hc : Crosses addr size) :
    let addr1 := splitAddr addr size
    let size0 := splitSize addr size
    size0 = ((P.granule - addr.toNat % P.granule : Nat) : Int) ∧ 1 ≤ size0 ∧ 1 ≤ size - size0 ∧
      addr + BitVec.ofInt _ size0 = addr1 ∧ ¬Crosses addr size0 ∧ ¬Crosses addr1 (size - size0) := by
  obtain ⟨h1, hG, h31⟩ := hSize
  obtain ⟨m, rfl⟩ : ∃ m : Nat, size = ((m + 1 : Nat) : Int) := ⟨(size - 1).toNat, by omega⟩
  have h := crossingFacts (by omega) hc
  have := h.crosses
  have := h.offset_lt
  have := h.base_add
  intro addr1 size0
  have hsize0 : size0 = ((P.granule - addr.toNat % P.granule : Nat) : Int) := by
    simp only [size0, addr1, splitSize, splitAddr, addr1_sub_toNat (by omega) hc]
    exact toCInt_of_lt (by omega)
  have haddr1 : addr1.toNat = _ := addr1_toNat (by omega) hc
  have hc1 : addr1.toNat % P.granule = 0 := by
    rw [haddr1, Nat.mod_mod_of_dvd _ P.granule_dvd, Nat.add_mod_right, h.base_mod]
  have hsize1 : ((m + 1 : Nat) : Int) - size0 =
      ((addr.toNat % P.granule + m + 1 - P.granule : Nat) : Int) := by
    rw [hsize0]; omega
  refine ⟨hsize0, by omega, by omega, ?_, ?_, ?_⟩
  · rw [BitVec.toNat_eq, BitVec.toNat_add, hsize0, BitVec.ofInt_natCast, BitVec.toNat_ofNat,
      Nat.add_mod_mod, haddr1]
    congr 1
    omega
  · rw [hsize0]
    exact not_crosses_of_le (by omega) (by omega) h.next_le
  · rw [hsize1]
    exact not_crosses_of_le (by omega) (by omega)
      (by rw [hc1, Nat.sub_zero]; exact add_granule_le hc1 (Nat.mod_eq_zero_of_dvd P.granule_dvd) addr1.isLt)

/-- `data_req` takes the split path exactly when the access crosses a granule
boundary. -/
theorem dataReq_eq (s : Iss P) (reply : Reply P) (addr : Addr P) (dataPtr : Ptr) (size : Int)
    (isWrite : Bool) :
    Lsu.dataReq s reply addr dataPtr size isWrite =
      if Crosses addr size then Lsu.dataMisalignedReq s reply addr dataPtr size isWrite
      else Lsu.dataReqAligned s reply addr dataPtr size isWrite := by
  show (if addr &&& P.addrMask = lastByte addr size &&& P.addrMask then _ else _) = _
  simp only [and_addrMask_eq_iff, Crosses, ite_not]

end Gvsoc.Cpu
