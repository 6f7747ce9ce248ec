import Gvsoc.Cpu.State

/-! # `lsu.cpp`

Each definition below is one function of `lsu.cpp`, statement by statement, on
the state of `Gvsoc.Cpu.State`. Trace messages, warnings and the trace-dump
flag are left out. The memory's answer to each `data.req` call is an argument,
so every outcome the memory can choose is covered.
-/

namespace Gvsoc.Cpu

set_option autoImplicit false

variable {P : Platform}

/-- `iss_get_signed_value`. Modelled from the spec: the helper is not under
src/; it sign-extends the low `bits` bits of a register value. -/
def issGetSignedValue (value : Reg P) (bits : Int) : Reg P :=
  (value.setWidth bits.toNat).signExtend P.regWidth

/-- `iss_get_boxed_value`. Modelled from the spec: the helper is not under
src/; it boxes a `bits`-wide value by setting every bit above it. -/
def issGetBoxedValue (value : Reg P) (bits : Int) : Reg P :=
  value ||| ~~~(BitVec.ofNat P.regWidth (2 ^ bits.toNat - 1))

/-- The conversion of an `iss_addr_t` value to `int`, modulo `2 ^ 32`. -/
def toCInt (n : Nat) : Int :=
  if n % 2 ^ 32 < 2 ^ 31 then n % 2 ^ 32 else n % 2 ^ 32 - 2 ^ 32

namespace Lsu

/-- `Lsu::reset`. -/
def reset (s : Iss P) (active : Bool) : Iss P :=
  if active then { s with lsu := { s.lsu with elwStalled := false, misalignedSize := 0 } } else s

/-- `Lsu::data_req_aligned`; `IoReqStatus.ok` is the `0` it returns on success. -/
def dataReqAligned (s : Iss P) (reply : Reply P) (addr : Addr P) (dataPtr : Ptr) (size : Int)
    (isWrite : Bool) : Iss P × IoReqStatus :=
  let req : IoReq P := { (IoReq.init : IoReq P) with addr, size, isWrite, data := dataPtr }
  let (s, err) := Iss.request { s with lsu := { s.lsu with ioReq := req } } reply
  match err with
  | .ok =>
    (if 0 < s.lsu.ioReq.latency then
      { s with timing := s.timing.stallLoadAccount s.lsu.ioReq.latency } else s, .ok)
  | .invalid => (s, .invalid)
  | .pending => ({ s with exec := s.exec.insnStall }, .pending)

/-- `Lsu::data_misaligned_req`. -/
def dataMisalignedReq (s : Iss P) (reply : Reply P) (addr : Addr P) (dataPtr : Ptr) (size : Int)
    (isWrite : Bool) : Iss P × IoReqStatus :=
  let addr1 := (addr + BitVec.ofInt _ size - 1) &&& P.addrMask
  let s := { s with timing := s.timing.eventMisalignedAccount 1 }
  let size0 := toCInt (addr1 - addr).toNat
  let size1 := size - size0
  let s := { s with lsu := { s.lsu with
    misalignedSize := size1, misalignedData := dataPtr.add size0,
    misalignedAddr := addr1, misalignedIsWrite := isWrite } }
  let (s, err) := dataReqAligned s reply addr dataPtr size0 isWrite
  if err = .ok then
    ({ s with exec := { s.exec with instrMeth := .execMisaligned }.insnHold }, .pending)
  else (s, .invalid)

/-- `Lsu::data_req`. -/
def dataReq (s : Iss P) (reply : Reply P) (addr : Addr P) (dataPtr : Ptr) (size : Int)
    (isWrite : Bool) : Iss P × IoReqStatus :=
  let addr0 := addr &&& P.addrMask
  let addr1 := (addr + BitVec.ofInt _ size - 1) &&& P.addrMask
  if addr0 = addr1 then dataReqAligned s reply addr dataPtr size isWrite
  else dataMisalignedReq s reply addr dataPtr size isWrite

/-- `Lsu::store_resume`. -/
def storeResume (s : Iss P) : Iss P := { s with exec := s.exec.insnTerminate }

/-- `Lsu::load_resume`. -/
def loadResume (s : Iss P) : Iss P := { s with exec := s.exec.insnTerminate }

/-- `Lsu::elw_resume`. -/
def elwResume (s : Iss P) : Iss P :=
  { s with
    exec := { s.exec.insnTerminate with elwInsn := false }.busyEnter
    lsu := { s.lsu with elwStalled := false } }

/-- `Lsu::load_signed_resume`. -/
def loadSignedResume (s : Iss P) : Iss P :=
  let s := { s with exec := s.exec.insnTerminate }
  let reg := s.lsu.stallReg
  s.setReg reg (issGetSignedValue (s.getReg reg) (s.lsu.stallSize * 8))

/-- `Lsu::load_boxed_resume`. -/
def loadBoxedResume (s : Iss P) : Iss P :=
  let s := { s with exec := s.exec.insnTerminate }
  let reg := s.lsu.stallReg
  s.setReg reg (issGetBoxedValue (s.getReg reg) (s.lsu.stallSize * 8))

/-- The resume function a `stall_callback` value points to. -/
def runResume : Resume → Iss P → Iss P
  | .storeResume => storeResume
  | .loadResume => loadResume
  | .elwResume => elwResume
  | .loadSignedResume => loadSignedResume
  | .loadBoxedResume => loadBoxedResume

/-- `_this->stall_callback(_this)`. -/
def callStallCallback (s : Iss P) : Iss P := runResume s.lsu.stallCallback s

/-- `Lsu::exec_misaligned`, the handler the instruction event runs one cycle
after a split access's first half. -/
def execMisaligned (s : Iss P) (reply : Reply P) : Iss P :=
  let s := { s with timing := (s.timing.eventLoadAccount 1).cycleAccount }
  let (s, err) := dataReqAligned s reply s.lsu.misalignedAddr s.lsu.misalignedData
    s.lsu.misalignedSize s.lsu.misalignedIsWrite
  if err = .ok then
    let s := callStallCallback s
    { s with exec := s.exec.switchToFullMode }
  else s

/-- `Lsu::data_response`: `req` is the request slot, whose latency the memory
has filled in. -/
def dataResponse (s : Iss P) : Iss P :=
  let s := { s with exec := s.exec.stalledDec }
  let s := { s with timing := s.timing.stallLoadAccount s.lsu.ioReq.latency }
  if s.lsu.misalignedSize = 0 then callStallCallback s else s

/-- The translation `atomic` asks the MMU for: the load translation for `LR`,
the store translation for every other opcode. -/
def atomicTranslation (s : Iss P) (addr : Addr P) (opcode : Opcode) : Option (Addr P) :=
  if opcode = .lr then s.mmu.loadVirtToPhys addr else s.mmu.storeVirtToPhys addr

/-- `Lsu::atomic`. Its instruction argument is only read by a diagnostic. -/
def atomic (s : Iss P) (reply : Reply P) (addr : Addr P) (size : Int) (regIn regOut : Int)
    (opcode : Opcode) : Iss P :=
  match atomicTranslation s addr opcode with
  | none => s
  | some _physAddr =>
    let req : IoReq P := { (IoReq.init : IoReq P) with
      addr, size, opcode, data := regRef regIn, secondData := regRef regOut,
      initiator := s.mhartid }
    let (s, err) := Iss.request { s with lsu := { s.lsu with ioReq := req } } reply
    match err with
    | .ok =>
      let s := if size ≠ (P.regWidth / 8 : Nat) then
        s.setReg regOut (issGetSignedValue (s.getReg regOut) (size * 8)) else s
      if 0 < s.lsu.ioReq.latency then
        { s with timing := s.timing.stallLoadAccount s.lsu.ioReq.latency } else s
    | .invalid => s
    | .pending =>
      let s := { s with exec := s.exec.insnStall }
      if size ≠ (P.regWidth / 8 : Nat) then
        { s with lsu := { s.lsu with
          stallCallback := .loadSignedResume, stallReg := regOut, stallSize := size } }
      else { s with lsu := { s.lsu with stallCallback := .storeResume } }

end Lsu

end Gvsoc.Cpu
