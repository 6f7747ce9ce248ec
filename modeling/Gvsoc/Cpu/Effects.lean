import Gvsoc.Cpu.Granule

/-! # What each function of `lsu.cpp` does

One equation per function of `Gvsoc.Cpu.Lsu`, stating its result as an
explicit update of the state for every answer of the memory, and the fields a
resume action leaves alone. Later proofs rewrite with these and do not unfold
the functions.
-/

namespace Gvsoc.Cpu

set_option autoImplicit false

variable {P : Platform}

@[simp] theorem Timing.stallLoadAccount_zero (t : Timing) : t.stallLoadAccount 0 = t := rfl

@[simp] theorem Iss.deliver_null (s : Iss P) (reply : Reply P) : s.deliver Ptr.null reply = s := by
  cases reply <;> rfl

/-- The request `data_req_aligned` builds. -/
def alignedReq (addr : Addr P) (dataPtr : Ptr) (size : Int) (isWrite : Bool) : IoReq P :=
  { (IoReq.init : IoReq P) with addr, size, isWrite, data := dataPtr }

/-- `data_req_aligned` submits one request and stalls the instruction when the
memory answers `IO_REQ_PENDING`; its latency is accounted when the answer is
immediate. -/
theorem dataReqAligned_eq (s : Iss P) (reply : Reply P) (addr : Addr P) (dataPtr : Ptr)
    (size : Int) (isWrite : Bool) :
    Lsu.dataReqAligned s reply addr dataPtr size isWrite =
      ({ s with
        lsu := { s.lsu with ioReq := (alignedReq addr dataPtr size isWrite).answered reply }
        exec := if reply.status = .pending then s.exec.insnStall else s.exec
        timing := s.timing.stallLoadAccount reply.latency
        data := s.data.submit (alignedReq addr dataPtr size isWrite) reply }, reply.status) := by
  cases reply with
  | ok latency result =>
    simp only [Lsu.dataReqAligned, Iss.request, IoReq.init, Iss.deliver_null]
    split <;> simp_all [alignedReq, IoReq.init, IoReq.answered, Reply.status, Reply.latency]
  | invalid => rfl
  | pending => rfl

/-- `data_misaligned_req` records the second half, submits the first, and arms
the instruction event when the first half succeeds at once. -/
theorem dataMisalignedReq_eq (s : Iss P) (reply : Reply P) (addr : Addr P) (dataPtr : Ptr)
    (size : Int) (isWrite : Bool) :
    Lsu.dataMisalignedReq s reply addr dataPtr size isWrite =
      let addr1 := splitAddr addr size
      let size0 := splitSize addr size
      ({ s with
        lsu := { s.lsu with
          misalignedSize := size - size0, misalignedData := dataPtr.add size0,
          misalignedAddr := addr1, misalignedIsWrite := isWrite,
          ioReq := (alignedReq addr dataPtr size0 isWrite).answered reply }
        exec := if reply.status = .ok then { s.exec with instrMeth := .execMisaligned }.insnHold
          else if reply.status = .pending then s.exec.insnStall else s.exec
        timing := (s.timing.eventMisalignedAccount 1).stallLoadAccount reply.latency
        data := s.data.submit (alignedReq addr dataPtr size0 isWrite) reply },
        if reply.status = .ok then .pending else .invalid) := by
  cases reply <;> simp only [Lsu.dataMisalignedReq, dataReqAligned_eq] <;> rfl

/-- `exec_misaligned` submits the recorded second half; when it succeeds at
once the resume action runs and the pipeline returns to full mode. -/
theorem execMisaligned_eq (s : Iss P) (reply : Reply P) :
    Lsu.execMisaligned s reply =
      let req := alignedReq s.lsu.misalignedAddr s.lsu.misalignedData s.lsu.misalignedSize
        s.lsu.misalignedIsWrite
      let s' : Iss P := { s with
        lsu := { s.lsu with ioReq := req.answered reply }
        exec := if reply.status = .pending then s.exec.insnStall else s.exec
        timing := ((s.timing.eventLoadAccount 1).cycleAccount).stallLoadAccount reply.latency
        data := s.data.submit req reply }
      if reply.status = .ok then
        let s'' := Lsu.callStallCallback s'
        { s'' with exec := s''.exec.switchToFullMode }
      else s' := by
  simp only [Lsu.execMisaligned, dataReqAligned_eq]

theorem respond_cons (s : Iss P) (latency : Nat) (result : Reg P) {req : IoReq P}
    {rest : List (IoReq P)} (h : s.data.outstanding = req :: rest) :
    s.respond latency result =
      { s.writeThrough req.secondData result with
        lsu := { s.lsu with ioReq := { s.lsu.ioReq with latency } },
        data := { s.data with outstanding := rest, completed := s.data.completed ++ [latency] } } := by
  simp only [Iss.respond, h]

@[simp] theorem Lsu.callStallCallback_eq (s : Iss P) :
    Lsu.callStallCallback s = Lsu.runResume s.lsu.stallCallback s := rfl

section Resume

variable (r : Resume) (s : Iss P)

@[simp] theorem runResume_data : (Lsu.runResume r s).data = s.data := by cases r <;> rfl

@[simp] theorem runResume_timing : (Lsu.runResume r s).timing = s.timing := by cases r <;> rfl

@[simp] theorem runResume_stalled : (Lsu.runResume r s).exec.stalled = s.exec.stalled := by
  cases r <;> rfl

@[simp] theorem runResume_hold : (Lsu.runResume r s).exec.hold = s.exec.hold := by cases r <;> rfl

@[simp] theorem runResume_instrMeth : (Lsu.runResume r s).exec.instrMeth = s.exec.instrMeth := by
  cases r <;> rfl

@[simp] theorem runResume_armed : (Lsu.runResume r s).exec.armed = s.exec.armed := by
  cases r <;> rfl

@[simp] theorem runResume_terminated :
    (Lsu.runResume r s).exec.terminated = s.exec.terminated + 1 := by cases r <;> rfl

@[simp] theorem runResume_misalignedSize :
    (Lsu.runResume r s).lsu.misalignedSize = s.lsu.misalignedSize := by cases r <;> rfl

@[simp] theorem runResume_misalignedAddr :
    (Lsu.runResume r s).lsu.misalignedAddr = s.lsu.misalignedAddr := by cases r <;> rfl

@[simp] theorem runResume_misalignedData :
    (Lsu.runResume r s).lsu.misalignedData = s.lsu.misalignedData := by cases r <;> rfl

@[simp] theorem runResume_misalignedIsWrite :
    (Lsu.runResume r s).lsu.misalignedIsWrite = s.lsu.misalignedIsWrite := by cases r <;> rfl

end Resume


namespace Iss

variable (s : Iss P) (reg : Int) (value : Reg P)

@[simp] theorem writeThrough_regRef : s.writeThrough (regRef reg) value = s.setReg reg value := rfl
@[simp] theorem setReg_lsu : (s.setReg reg value).lsu = s.lsu := rfl
@[simp] theorem setReg_exec : (s.setReg reg value).exec = s.exec := rfl
@[simp] theorem setReg_timing : (s.setReg reg value).timing = s.timing := rfl
@[simp] theorem setReg_data : (s.setReg reg value).data = s.data := rfl
@[simp] theorem setReg_mmu : (s.setReg reg value).mmu = s.mmu := rfl
@[simp] theorem setReg_mhartid : (s.setReg reg value).mhartid = s.mhartid := rfl

variable (p : Ptr)

@[simp] theorem writeThrough_lsu : (s.writeThrough p value).lsu = s.lsu := by
  unfold writeThrough; split <;> rfl
@[simp] theorem writeThrough_exec : (s.writeThrough p value).exec = s.exec := by
  unfold writeThrough; split <;> rfl
@[simp] theorem writeThrough_timing : (s.writeThrough p value).timing = s.timing := by
  unfold writeThrough; split <;> rfl
@[simp] theorem writeThrough_data : (s.writeThrough p value).data = s.data := by
  unfold writeThrough; split <;> rfl

end Iss

/-- The request `atomic` builds. -/
def atomicReq (s : Iss P) (addr : Addr P) (size : Int) (regIn regOut : Int) (opcode : Opcode) : IoReq P :=
  { (IoReq.init : IoReq P) with
    addr, size, opcode, data := regRef regIn, secondData := regRef regOut, initiator := s.mhartid }

/-- The sign extension `atomic` applies to the destination register of an
immediate answer narrower than a register. -/
def atomicExtend (s : Iss P) (size : Int) (regOut : Int) : Iss P :=
  if size ≠ (P.regWidth / 8 : Nat) then
    s.setReg regOut (issGetSignedValue (s.getReg regOut) (size * 8)) else s

section Atomic

variable (s : Iss P) (addr : Addr P) (size : Int) (regIn regOut : Int) (opcode : Opcode)

@[simp] theorem atomicExtend_lsu : (atomicExtend s size regOut).lsu = s.lsu := by
  unfold atomicExtend; split <;> rfl
@[simp] theorem atomicExtend_exec : (atomicExtend s size regOut).exec = s.exec := by
  unfold atomicExtend; split <;> rfl
@[simp] theorem atomicExtend_timing : (atomicExtend s size regOut).timing = s.timing := by
  unfold atomicExtend; split <;> rfl
@[simp] theorem atomicExtend_data : (atomicExtend s size regOut).data = s.data := by
  unfold atomicExtend; split <;> rfl

theorem atomic_none (reply : Reply P) (h : Lsu.atomicTranslation s addr opcode = none) :
    Lsu.atomic s reply addr size regIn regOut opcode = s := by
  simp only [Lsu.atomic, h]

variable {physAddr : Addr P} (h : Lsu.atomicTranslation s addr opcode = some physAddr)
include h

theorem atomic_ok (latency : Nat) (result : Reg P) :
    Lsu.atomic s (.ok latency result) addr size regIn regOut opcode =
      { atomicExtend
          { s.setReg regOut result with
            lsu := { s.lsu with ioReq := { atomicReq s addr size regIn regOut opcode with latency } }
            data := s.data.submit (atomicReq s addr size regIn regOut opcode) (.ok latency result) }
          size regOut with
        timing := s.timing.stallLoadAccount latency } := by
  simp only [Lsu.atomic, h, Iss.request, Iss.deliver, IoReq.answered, Reply.status,
    Reply.latency, if_true, atomicExtend]
  split_ifs with hSize hLatency hLatency <;>
    first | rfl | (obtain rfl : latency = 0 := by simpa [Iss.setReg] using hLatency); rfl

theorem atomic_invalid :
    Lsu.atomic s .invalid addr size regIn regOut opcode =
      { s with
        lsu := { s.lsu with ioReq := atomicReq s addr size regIn regOut opcode }
        data := s.data.submit (atomicReq s addr size regIn regOut opcode) .invalid } := by
  simp only [Lsu.atomic, h, Iss.request, Reply.status]; rfl

theorem atomic_pending :
    Lsu.atomic s .pending addr size regIn regOut opcode =
      { s with
        lsu := { s.lsu with
          ioReq := atomicReq s addr size regIn regOut opcode
          stallCallback := if size ≠ (P.regWidth / 8 : Nat) then .loadSignedResume else .storeResume
          stallReg := if size ≠ (P.regWidth / 8 : Nat) then regOut else s.lsu.stallReg
          stallSize := if size ≠ (P.regWidth / 8 : Nat) then size else s.lsu.stallSize }
        exec := s.exec.insnStall
        data := s.data.submit (atomicReq s addr size regIn regOut opcode) .pending } := by
  simp only [Lsu.atomic, h, Iss.request, Reply.status]
  split <;> rfl

end Atomic

end Gvsoc.Cpu
