import Gvsoc.Cpu.System

/-! # A split access moves the bytes of the unsplit one

A request of `size` bytes at `addr` with buffer `data` pairs memory byte
`addr + i` with host byte `data + i` for every `i < size`, addresses wrapping
at the top of the address space. A memory that completes a request at once
moves these bytes, one after the other. The two halves of a split access pair
exactly the bytes of the whole access, in order, so against such a memory the
split access has the effect of the unsplit one.
-/

namespace Gvsoc.Cpu

set_option autoImplicit false

variable {P : Platform}

/-- The byte pairs a request moves: memory byte `addr + i` with host byte
`data + i`, for `i` from 0 below `size`. -/
def IoReq.bytes (req : IoReq P) : List (Addr P × Ptr) :=
  (List.range req.size.toNat).map fun i => (req.addr + BitVec.ofNat _ i, req.data.add i)

/-- A byte-addressed memory and the host storage the LSU's buffers point into.
Modelled from the spec: the memory behind the `data` port is not under src/. -/
structure ByteMem (P : Platform) where
  mem : Addr P → BitVec 8
  host : Ptr → BitVec 8

namespace ByteMem

/-- Moving one byte: a write copies the host byte into memory, a read the
memory byte into the host. -/
def move (isWrite : Bool) (m : ByteMem P) (b : Addr P × Ptr) : ByteMem P :=
  if isWrite then { m with mem := Function.update m.mem b.1 (m.host b.2) }
  else { m with host := Function.update m.host b.2 (m.mem b.1) }

/-- A memory completing `req` at once moves its bytes in order. -/
def perform (m : ByteMem P) (req : IoReq P) : ByteMem P :=
  req.bytes.foldl (move req.isWrite) m

end ByteMem

theorem alignedReq_bytes_append (addr : Addr P) (dataPtr : Ptr) (size0 size1 : Int)
    (isWrite : Bool) (h0 : 0 ≤ size0) (h1 : 0 ≤ size1) :
    (alignedReq addr dataPtr size0 isWrite).bytes ++
        (alignedReq (addr + BitVec.ofInt _ size0) (dataPtr.add size0) size1 isWrite).bytes =
      (alignedReq addr dataPtr (size0 + size1) isWrite).bytes := by
  obtain ⟨n0, rfl⟩ := Int.eq_ofNat_of_zero_le h0
  obtain ⟨n1, rfl⟩ := Int.eq_ofNat_of_zero_le h1
  simp only [IoReq.bytes, alignedReq, Int.toNat_ofNat, ← Int.ofNat_add, List.range_add,
    List.map_append, List.map_map, BitVec.ofInt_natCast]
  congr 2
  funext i
  simp only [Function.comp, Prod.mk.injEq, BitVec.add_assoc, BitVec.ofNat_add_ofNat, Ptr.add,
    Int.ofNat_add, Int.add_assoc, and_self]

theorem ByteMem.perform_append (m : ByteMem P) (addr : Addr P) (dataPtr : Ptr) (size0 size1 : Int)
    (isWrite : Bool) (h0 : 0 ≤ size0) (h1 : 0 ≤ size1) :
    (m.perform (alignedReq addr dataPtr size0 isWrite)).perform
        (alignedReq (addr + BitVec.ofInt _ size0) (dataPtr.add size0) size1 isWrite) =
      m.perform (alignedReq addr dataPtr (size0 + size1) isWrite) := by
  simp only [ByteMem.perform, ← alignedReq_bytes_append addr dataPtr size0 size1 isWrite h0 h1,
    List.foldl_append]
  rfl

/-- A split access whose halves the memory completes at once: the first half
goes out from `data_misaligned_req`, then the recorded second half from
`exec_misaligned`. -/
theorem split_issued (s : Iss P) (addr : Addr P) (dataPtr : Ptr) (size : Int) (isWrite : Bool)
    (l0 l1 : Nat) (v0 v1 : Reg P) (hc : Crosses addr size) :
    let s1 := (Lsu.dataReq s (.ok l0 v0) addr dataPtr size isWrite).1
    s1.lsu.misalignedAddr = splitAddr addr size ∧
      s1.lsu.misalignedData = dataPtr.add (splitSize addr size) ∧
      s1.lsu.misalignedSize = size - splitSize addr size ∧ s1.lsu.misalignedIsWrite = isWrite ∧
      (Lsu.execMisaligned s1 (.ok l1 v1)).data.issued = s.data.issued ++
        [alignedReq addr dataPtr (splitSize addr size) isWrite,
          alignedReq (splitAddr addr size) (dataPtr.add (splitSize addr size))
            (size - splitSize addr size) isWrite] := by
  simp [dataReq_eq, hc, dataMisalignedReq_eq, execMisaligned_eq, Reply.status, Port.submit]

/-- `data_req` splits an access of 1 to `G` bytes exactly when it crosses a
granule boundary. The two requests of a split access are non-empty, add up to
the access, follow each other in memory and in the buffer, keep its direction
and each stay within a granule; together they pair exactly the bytes of the
unsplit access, so a memory that completes both at once ends as if it had
completed the unsplit access. -/
theorem split_refines (s : Iss P) (reply : Reply P) (addr : Addr P) (dataPtr : Ptr) (size : Int)
    (isWrite : Bool) (hSize : AccessSize P size) :
    Lsu.dataReq s reply addr dataPtr size isWrite =
      (if Crosses addr size then Lsu.dataMisalignedReq s reply addr dataPtr size isWrite
        else Lsu.dataReqAligned s reply addr dataPtr size isWrite) ∧
    (Crosses addr size → ∀ (l0 l1 : Nat) (v0 v1 : Reg P),
      let s1 := (Lsu.dataReq s (.ok l0 v0) addr dataPtr size isWrite).1
      let size0 := splitSize addr size
      let first := alignedReq addr dataPtr size0 isWrite
      let second := alignedReq s1.lsu.misalignedAddr s1.lsu.misalignedData s1.lsu.misalignedSize
        s1.lsu.misalignedIsWrite
      (Lsu.execMisaligned s1 (.ok l1 v1)).data.issued = s.data.issued ++ [first, second] ∧
        1 ≤ size0 ∧ 1 ≤ s1.lsu.misalignedSize ∧ size0 + s1.lsu.misalignedSize = size ∧
        addr + BitVec.ofInt _ size0 = s1.lsu.misalignedAddr ∧
        s1.lsu.misalignedData = dataPtr.add size0 ∧ s1.lsu.misalignedIsWrite = isWrite ∧
        ¬Crosses addr size0 ∧ ¬Crosses s1.lsu.misalignedAddr s1.lsu.misalignedSize ∧
        first.bytes ++ second.bytes = (alignedReq addr dataPtr size isWrite).bytes ∧
        ∀ m : ByteMem P, (m.perform first).perform second =
          m.perform (alignedReq addr dataPtr size isWrite)) := by
  refine ⟨dataReq_eq s reply addr dataPtr size isWrite, fun hc l0 l1 v0 v1 => ?_⟩
  obtain ⟨hAddr, hData, hRest, hWrite, hIssued⟩ := split_issued s addr dataPtr size isWrite l0 l1 v0 v1 hc
  obtain ⟨-, h0, h1, hNext, hFirst, hSecond⟩ := split_halves hSize hc
  have hSum : splitSize addr size + (size - splitSize addr size) = size := by omega
  have hBytes := alignedReq_bytes_append addr dataPtr (splitSize addr size)
    (size - splitSize addr size) isWrite (by omega) (by omega)
  have hPerform := fun m : ByteMem P => ByteMem.perform_append m addr dataPtr (splitSize addr size)
    (size - splitSize addr size) isWrite (by omega) (by omega)
  simp only [hNext, hSum] at hBytes hPerform
  dsimp only
  rw [hAddr, hData, hRest, hWrite]
  exact ⟨hIssued, h0, h1, hSum, hNext, rfl, rfl, hFirst, hSecond, hBytes, hPerform⟩

/-- A 4-byte store at address 3 goes out as 1 byte at 3 and 3 bytes at 4. -/
theorem split_refines_store :
    AccessSize rv32 4 ∧ Crosses (3 : Addr rv32) 4 ∧
      (Lsu.execMisaligned (Lsu.dataReq bareCore (.ok 0 0) 3 ⟨.buffer 0, 0⟩ 4 true).1 (.ok 0 0)).data.issued =
        [alignedReq 3 ⟨.buffer 0, 0⟩ 1 true, alignedReq 4 ⟨.buffer 0, 1⟩ 3 true] := by
  have hSize : AccessSize rv32 4 := by simp only [AccessSize]; decide
  have hc : Crosses (3 : Addr rv32) 4 := by decide
  refine ⟨hSize, hc, ((split_refines bareCore .invalid 3 ⟨.buffer 0, 0⟩ 4 true hSize).2 hc 0 0 0 0).1.trans ?_⟩
  decide

end Gvsoc.Cpu
