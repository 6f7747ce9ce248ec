import Gvsoc.Cpu.System

/-! # What a rejected access leaves behind

An unsplit access the memory rejects, an atomic whose translation fails and an
atomic the memory rejects change nothing the pipeline or the pending-access
record holds: only the request slot. The split path is different. It records
the second half before it submits the first, so a rejected split access leaves
the second half recorded, and when the memory accepts the first half pending
the instruction stays stalled although `data_req` answers `IO_REQ_INVALID`.
-/

namespace Gvsoc.Cpu

set_option autoImplicit false

variable {P : Platform}

theorem dataReqAligned_status (s : Iss P) (reply : Reply P) (addr : Addr P) (dataPtr : Ptr)
    (size : Int) (isWrite : Bool) :
    (Lsu.dataReqAligned s reply addr dataPtr size isWrite).2 = reply.status := by
  rw [dataReqAligned_eq]

theorem dataReqAligned_invalid {s : Iss P} {reply : Reply P} {addr : Addr P} {dataPtr : Ptr}
    {size : Int} {isWrite : Bool} (h : (Lsu.dataReqAligned s reply addr dataPtr size isWrite).2 = .invalid) :
    let s' := (Lsu.dataReqAligned s reply addr dataPtr size isWrite).1
    s'.exec = s.exec ∧ s'.lsu = { s.lsu with ioReq := s'.lsu.ioReq } := by
  rw [dataReqAligned_status] at h
  cases reply <;> simp_all [dataReqAligned_eq, Reply.status]

theorem dataMisalignedReq_invalid {s : Iss P} {reply : Reply P} {addr : Addr P} {dataPtr : Ptr}
    {size : Int} {isWrite : Bool}
    (h : (Lsu.dataMisalignedReq s reply addr dataPtr size isWrite).2 = .invalid) :
    let s' := (Lsu.dataMisalignedReq s reply addr dataPtr size isWrite).1
    s'.exec = (if reply.status = .pending then s.exec.insnStall else s.exec) ∧
      s'.lsu = { s.lsu with
        misalignedSize := size - splitSize addr size, misalignedAddr := splitAddr addr size,
        misalignedData := dataPtr.add (splitSize addr size), misalignedIsWrite := isWrite,
        ioReq := s'.lsu.ioReq } := by
  rw [dataMisalignedReq_eq] at h ⊢
  cases reply <;> simp_all [Reply.status]

/-- The split path answers `IO_REQ_INVALID` whenever the memory does not
complete the first half at once. Rejection leaves the pipeline and the
pending-access record as they were, except on the split path: there the record
holds the second half, and the instruction is stalled once if the memory
accepted the first half pending. An atomic whose translation fails or whose
request is rejected changes neither. -/
theorem rejection_frame (s : Iss P) (reply : Reply P) (addr : Addr P) (dataPtr : Ptr) (size : Int)
    (isWrite : Bool) (atomicReply : Reply P) (atomicAddr : Addr P) (atomicSize : Int)
    (regIn regOut : Int) (opcode : Opcode) :
    (Crosses addr size → reply.status ≠ .ok → (Lsu.dataReq s reply addr dataPtr size isWrite).2 = .invalid) ∧
    ((Lsu.dataReq s reply addr dataPtr size isWrite).2 = .invalid →
      let s' := (Lsu.dataReq s reply addr dataPtr size isWrite).1
      if Crosses addr size then
        s'.exec = (if reply.status = .pending then s.exec.insnStall else s.exec) ∧
          s'.lsu = { s.lsu with
            misalignedSize := size - splitSize addr size, misalignedAddr := splitAddr addr size,
            misalignedData := dataPtr.add (splitSize addr size), misalignedIsWrite := isWrite,
            ioReq := s'.lsu.ioReq }
      else s'.exec = s.exec ∧ s'.lsu = { s.lsu with ioReq := s'.lsu.ioReq }) ∧
    ((Lsu.atomicTranslation s atomicAddr opcode = none ∨ atomicReply = .invalid) →
      let s' := Lsu.atomic s atomicReply atomicAddr atomicSize regIn regOut opcode
      s'.exec = s.exec ∧ s'.lsu = { s.lsu with ioReq := s'.lsu.ioReq }) := by
  refine ⟨fun hc h => ?_, fun h => ?_, fun h => ?_⟩
  · rw [dataReq_eq, if_pos hc, dataMisalignedReq_eq]
    simp [h]
  · rw [dataReq_eq] at h ⊢
    by_cases hc : Crosses addr size
    · simp only [hc, if_true] at h ⊢
      exact dataMisalignedReq_invalid h
    · simp only [hc, if_false] at h ⊢
      exact dataReqAligned_invalid h
  · cases ht : Lsu.atomicTranslation s atomicAddr opcode with
    | none => rw [atomic_none _ _ _ _ _ _ _ ht]; exact ⟨rfl, rfl⟩
    | some p =>
      obtain rfl : atomicReply = .invalid := by simpa [ht] using h
      rw [atomic_invalid _ _ _ _ _ _ ht]
      exact ⟨rfl, rfl⟩

/-- A 4-byte load at address 16 and an atomic add, both rejected by the
memory, leave the pipeline as it was. A 4-byte load at address 3 whose first
half the memory accepts pending answers `IO_REQ_INVALID`, stalls the
instruction once and records its 3-byte second half at address 4. -/
theorem rejected_accesses_at_start :
    let s := (Sys.init bareCore).iss
    let r := Lsu.dataReq s .invalid 16 ⟨.buffer 0, 0⟩ 4 false
    let r' := Lsu.dataReq s .pending 3 ⟨.buffer 0, 0⟩ 4 false
    r.2 = .invalid ∧ ¬Crosses (16 : Addr rv32) 4 ∧ r.1.exec = s.exec ∧
      (Lsu.atomic s .invalid 0 4 1 2 .add).exec = s.exec ∧
      Crosses (3 : Addr rv32) 4 ∧ r'.2 = .invalid ∧ r'.1.exec = s.exec.insnStall ∧
      r'.1.lsu.misalignedSize = 3 ∧ r'.1.lsu.misalignedAddr = 4 := by
  intro s r r'
  have h := rejection_frame s .invalid 16 ⟨.buffer 0, 0⟩ 4 false .invalid 0 4 1 2 .add
  have h' := rejection_frame s .pending 3 ⟨.buffer 0, 0⟩ 4 false .invalid 0 4 1 2 .add
  have hc : ¬Crosses (16 : Addr rv32) 4 := by decide
  have hc' : Crosses (3 : Addr rv32) 4 := by decide
  have hLoad := h.2.1 (by decide)
  simp only [hc, if_false] at hLoad
  have hInvalid := h'.1 hc' (by decide)
  have hSplit := h'.2.1 hInvalid
  simp only [hc', if_true, Reply.status] at hSplit
  refine ⟨by decide, hc, hLoad.1, (h.2.2 (.inr rfl)).1, hc', hInvalid, hSplit.1, ?_, ?_⟩
  · rw [hSplit.2]
    decide
  · rw [hSplit.2]
    decide

/-- At the start of a run, a 4-byte load at address 3 that the memory rejects
answers `IO_REQ_INVALID` and changes `misaligned_size`. -/
theorem rejected_split_records_half :
    let s := Sys.init bareCore
    let r := Lsu.dataReq s.iss .invalid 3 ⟨.buffer 0, 0⟩ 4 false
    s.waiting = false ∧ AccessSize rv32 4 ∧ r.2 = .invalid ∧
      r.1.lsu.misalignedSize ≠ s.iss.lsu.misalignedSize := by
  simp only [AccessSize]
  decide

end Gvsoc.Cpu
