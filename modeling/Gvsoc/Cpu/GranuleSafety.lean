import Gvsoc.Cpu.PendingRecord

/-! # Every request stays within one granule

`data_req` splits an access that crosses a granule boundary: it submits the
part in the first granule at once and records the rest, which
`exec_misaligned` submits a cycle later from the record. Over whole runs,
whatever the memory answers and however responses, resets and second halves
interleave, the memory receives from the load/store path only requests whose
bytes lie in one granule: the record always describes such a request, since
only the split path writes it and `reset(true)` clears its size. `atomic` does
not split its access and submits it as it is given.
-/

namespace Gvsoc.Cpu

set_option autoImplicit false

variable {P : Platform}

/-- The bytes `addr, addr + 1, ..., addr + size - 1` of an access all lie in
the granule of its first byte; an access of no bytes does too. -/
def InOneGranule (addr : Addr P) (size : Int) : Prop :=
  ∀ k < size.toNat, granuleIndex (addr + BitVec.ofNat _ k) = granuleIndex addr

instance (addr : Addr P) (size : Int) : Decidable (InOneGranule addr size) :=
  inferInstanceAs (Decidable (∀ k < size.toNat, _))

theorem inOneGranule_of_nonpos {addr : Addr P} {size : Int} (h : size ≤ 0) : InOneGranule addr size :=
  fun k hk => absurd hk (by omega)

/-- An access of 1 to `G` bytes whose first and last bytes share a granule has
all its bytes there, also when it wraps around the top of the address space. -/
theorem inOneGranule_of_not_crosses {addr : Addr P} {size : Int} (h1 : 1 ≤ size)
    (hG : size ≤ P.granule) (h : ¬Crosses addr size) : InOneGranule addr size := by
  obtain ⟨m, rfl⟩ : ∃ m : Nat, size = ((m + 1 : Nat) : Int) := ⟨(size - 1).toNat, by omega⟩
  intro k hk
  rw [Int.toNat_natCast] at hk
  unfold Crosses granuleIndex at h
  rw [lastByte_succ, not_not, BitVec.toNat_add, BitVec.toNat_ofNat, Nat.add_mod_mod] at h
  unfold granuleIndex
  rw [BitVec.toNat_add, BitVec.toNat_ofNat, Nat.add_mod_mod]
  have ha := addr.isLt
  have hGw := P.granule_le
  rcases Nat.lt_or_ge (addr.toNat + m) (2 ^ P.addrWidth) with hlt | hge
  · rw [Nat.mod_eq_of_lt hlt] at h
    rw [Nat.mod_eq_of_lt (by omega)]
    exact le_antisymm ((Nat.div_le_div_right (by omega)).trans h.symm.le) (Nat.div_le_div_right (by omega))
  · -- the access wraps around: then the whole address space is one granule
    have hwrap : (addr.toNat + m) % 2 ^ P.addrWidth < P.granule := by
      rw [Nat.mod_eq_sub_mod hge, Nat.mod_eq_of_lt (by omega)]
      omega
    rw [Nat.div_eq_of_lt hwrap] at h
    have haG : addr.toNat < P.granule := (Nat.div_eq_zero_iff P.granule_pos).1 h
    have hw : 2 ^ P.addrWidth = P.granule :=
      Nat.eq_of_dvd_of_lt_two_mul (Nat.two_pow_pos _).ne' P.granule_dvd (by omega)
    rw [h, Nat.div_eq_of_lt (by rw [← hw]; exact Nat.mod_lt _ (Nat.two_pow_pos _))]

/-! ## The invariant -/

/-- Loads and stores of 1 to `G` bytes, and atomics whose bytes lie in one
granule. -/
def GranuleAccesses (_ : Sys P) : Event P → Prop
  | .dataReq _ _ size _ _ _ => AccessSize P size
  | .atomic addr size .. => InOneGranule addr size
  | _ => True

/-- Every request the memory has received lies in one granule, and so does the
second half the LSU has recorded. -/
structure RequestsInGranule (s : Sys P) : Prop where
  issued : ∀ req ∈ s.iss.data.issued, InOneGranule req.addr req.size
  record : InOneGranule s.iss.lsu.misalignedAddr s.iss.lsu.misalignedSize

theorem submitted_inOneGranule {s : Sys P} {e : Event P} (he : GranuleAccesses s e)
    (hRecord : InOneGranule s.iss.lsu.misalignedAddr s.iss.lsu.misalignedSize) {req : IoReq P}
    (hreq : req ∈ (s.step e).iss.data.issued) (hnew : req ∉ s.iss.data.issued) :
    InOneGranule req.addr req.size := by
  rw [step_issued, List.mem_append] at hreq
  replace hreq := hreq.resolve_left hnew
  cases e with
  | dataReq addr dataPtr size isWrite reply registration =>
    obtain rfl := List.mem_singleton.1 hreq
    by_cases hc : Crosses addr size
    · obtain ⟨hSize0, h0, -, -, hFirst, -⟩ := split_halves he hc
      have hHalf := inOneGranule_of_not_crosses h0 (by omega) hFirst
      rwa [if_pos hc]
    · rw [if_neg hc]
      exact inOneGranule_of_not_crosses he.1 he.2.1 hc
  | atomic addr size regIn regOut opcode reply =>
    dsimp only at hreq
    split at hreq
    · obtain rfl := List.mem_singleton.1 hreq
      exact he
    · exact absurd hreq (List.not_mem_nil _)
  | execMisaligned reply =>
    obtain rfl := List.mem_singleton.1 hreq
    exact hRecord
  | dataResponse | reset => exact absurd hreq (List.not_mem_nil _)

theorem requestsInGranule_step {s : Sys P} {e : Event P} (he : GranuleAccesses s e)
    (h : RequestsInGranule s) : RequestsInGranule (s.step e) := by
  refine ⟨fun req hreq => ?_, ?_⟩
  · by_cases hold : req ∈ s.iss.data.issued
    · exact h.issued req hold
    · exact submitted_inOneGranule he h.record hreq hold
  · have hRec := step_pendingRecord s e
    change InOneGranule (s.step e).iss.lsu.pendingRecord.1 (s.step e).iss.lsu.pendingRecord.2.1
    rw [hRec]
    cases e with
    | dataReq addr dataPtr size isWrite reply registration =>
      dsimp only
      split
      · rename_i hc
        obtain ⟨-, h0, h1, -, -, hSecond⟩ := split_halves he hc
        dsimp only [secondHalf]
        exact inOneGranule_of_not_crosses h1 (by have := he.2.1; omega) hSecond
      · exact h.record
    | reset active =>
      cases active
      · exact h.record
      · exact inOneGranule_of_nonpos le_rfl
    | atomic | execMisaligned | dataResponse => exact h.record

/-- Over every run of loads and stores of 1 to `G` bytes and atomics within one
granule, whatever the memory answers and however responses, second halves and
resets interleave, every request the memory receives lies within one granule,
and so does the second half the LSU has recorded for `exec_misaligned`. -/
theorem requests_in_one_granule {iss : Iss P} {s : Sys P}
    (h : Reachable GranuleAccesses (Sys.init iss) s) :
    (∀ req ∈ s.iss.data.issued, InOneGranule req.addr req.size) ∧
      InOneGranule s.iss.lsu.misalignedAddr s.iss.lsu.misalignedSize := by
  have hInv : RequestsInGranule s :=
    h.induction RequestsInGranule ⟨fun _ h => absurd h (List.not_mem_nil _), inOneGranule_of_nonpos le_rfl⟩
      (fun _ _ _ hs he => requestsInGranule_step he hs)
  exact ⟨hInv.issued, hInv.record⟩

/-- A load of 4 bytes at address 3, split into 1 byte at 3 and 3 bytes at 4,
with its second half issued. -/
theorem requests_in_one_granule_split_load :
    let s := ((Sys.init bareCore).step
      (.dataReq 3 ⟨.buffer 0, 0⟩ 4 false (.ok 0 0) ⟨.loadResume, 0, 0⟩)).step (.execMisaligned (.ok 0 0))
    Reachable GranuleAccesses (Sys.init bareCore) s ∧
      ((∀ req ∈ s.iss.data.issued, InOneGranule req.addr req.size) ∧
        InOneGranule s.iss.lsu.misalignedAddr s.iss.lsu.misalignedSize) := by
  have hr : Reachable GranuleAccesses (Sys.init bareCore) (((Sys.init bareCore).step
      (.dataReq 3 ⟨.buffer 0, 0⟩ 4 false (.ok 0 0) ⟨.loadResume, 0, 0⟩)).step (.execMisaligned (.ok 0 0))) :=
    (Reachable.init.step (by simp only [GranuleAccesses, AccessSize]; decide)).step trivial
  exact ⟨hr, requests_in_one_granule hr⟩

end Gvsoc.Cpu
