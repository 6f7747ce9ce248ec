import Mathlib.Data.BitVec
import Mathlib.Algebra.Order.Ring.Nat

/-! # The state the load/store unit works on

`lsu.cpp` reads and writes the fields of `Lsu` and calls into the rest of the
instruction-set simulator: the execution pipeline, the timing model, the
register file, the MMU and the `data` master port towards memory. Only the LSU
is under the source. Each collaborator is modelled from the spec by the calls
the LSU makes on it, one small operation per call.
-/

namespace Gvsoc.Cpu

set_option autoImplicit false

/-- The compile-time constants `lsu.cpp` reads without defining them: the width
of `iss_addr_t`, the number of low address bits `ADDR_MASK` clears, and
`ISS_REG_WIDTH`. -/
structure Platform where
  addrWidth : Nat
  granuleBits : Nat
  granuleBits_le : granuleBits ≤ addrWidth
  regWidth : Nat

/-- `iss_addr_t`. -/
abbrev Addr (P : Platform) := BitVec P.addrWidth

/-- `iss_reg_t`. -/
abbrev Reg (P : Platform) := BitVec P.regWidth

namespace Platform

variable (P : Platform)

/-- The alignment granule `G = 2 ^ granuleBits`. -/
def granule : Nat := 2 ^ P.granuleBits

/-- `ADDR_MASK`: the complement of `G - 1`, as an `iss_addr_t`. -/
def addrMask : Addr P := ~~~(BitVec.ofNat P.addrWidth (P.granule - 1))

end Platform

/-- Host storage a pointer can point into: a register of the register file, or
any other buffer (an instruction operand, a caller's array). -/
inductive Block where
  | null
  | reg (index : Int)
  | buffer (id : Nat)
  deriving DecidableEq, Repr

/-- A host pointer (`uint8_t *`): a block and a byte offset into it. -/
structure Ptr where
  block : Block
  offset : Int
  deriving DecidableEq, Repr

namespace Ptr

def null : Ptr := ⟨.null, 0⟩

/-- Pointer arithmetic `p + n`. -/
def add (p : Ptr) (n : Int) : Ptr := { p with offset := p.offset + n }

@[simp] theorem add_block (p : Ptr) (n : Int) : (p.add n).block = p.block := rfl
@[simp] theorem add_offset (p : Ptr) (n : Int) : (p.add n).offset = p.offset + n := rfl

end Ptr

/-- `regfile.reg_ref(reg)`: the storage of a register. -/
def regRef (reg : Int) : Ptr := ⟨.reg reg, 0⟩

/-- `vp::io_req_opcode_e`. -/
inductive Opcode where
  | read | write | lr | sc | swap | add | xor | and | or | min | max | minu | maxu
  deriving DecidableEq, Repr

/-- `vp::IO_REQ_OK`, `vp::IO_REQ_INVALID` and `vp::IO_REQ_PENDING`. -/
inductive IoReqStatus where
  | ok | invalid | pending
  deriving DecidableEq, Repr

/-- The fields of the request slot `vp::io_req` that the LSU sets or reads. -/
structure IoReq (P : Platform) where
  addr : Addr P
  size : Int
  isWrite : Bool
  opcode : Opcode
  data : Ptr
  secondData : Ptr
  initiator : Nat
  latency : Nat
  deriving DecidableEq, Repr

/-- `io_req::init`. Modelled from the spec: `io_req` is not under src/. The
LSU sets every field it relies on after this call, and the latency the
interconnect fills in starts at zero. -/
def IoReq.init {P : Platform} : IoReq P where
  addr := 0
  size := 0
  isWrite := false
  opcode := .read
  data := Ptr.null
  secondData := Ptr.null
  initiator := 0
  latency := 0

/-- The memory's answer to one `data.req` call. `ok` carries the latency the
memory filled in and the value it left in the request's second buffer, which
is the destination register of an atomic. -/
inductive Reply (P : Platform) where
  | ok (latency : Nat) (result : Reg P)
  | invalid
  | pending
  deriving DecidableEq, Repr

namespace Reply

variable {P : Platform}

/-- The status the memory reports. -/
def status : Reply P → IoReqStatus
  | .ok .. => .ok
  | .invalid => .invalid
  | .pending => .pending

/-- The latency an immediate answer fills in; the other answers fill in none. -/
def latency : Reply P → Nat
  | .ok latency _ => latency
  | _ => 0

end Reply

/-- The values `stall_callback` takes: the resume functions of `lsu.cpp`. -/
inductive Resume where
  | storeResume | loadResume | elwResume | loadSignedResume | loadBoxedResume
  deriving DecidableEq, Repr

/-- The fields of `Lsu`. The first four are the pending-access record of a split
access, the next three the resume action and its operands. -/
structure Lsu (P : Platform) where
  misalignedSize : Int
  misalignedAddr : Addr P
  misalignedData : Ptr
  misalignedIsWrite : Bool
  stallCallback : Resume
  stallReg : Int
  stallSize : Int
  elwStalled : Bool
  ioReq : IoReq P
  deriving DecidableEq, Repr

/-- The handler installed on the pipeline's instruction event. -/
inductive InstrMeth where
  | full
  | execMisaligned
  deriving DecidableEq, Repr

/-- The execution pipeline as the LSU sees it. Modelled from the spec: `Exec`
is not under src/. `stalled` is the outstanding-suspension counter, `hold`
the hold mode, `armed` the one-shot instruction event that fires one cycle
after `insn_hold`, `terminated` the number of `insn_terminate` calls. -/
structure Exec where
  stalled : Int
  hold : Bool
  instrMeth : InstrMeth
  armed : Bool
  terminated : Nat
  elwInsn : Bool
  busy : Bool
  deriving DecidableEq, Repr

namespace Exec

def insnStall (e : Exec) : Exec := { e with stalled := e.stalled + 1 }

def stalledDec (e : Exec) : Exec := { e with stalled := e.stalled - 1 }

def insnHold (e : Exec) : Exec := { e with hold := true, armed := true }

def switchToFullMode (e : Exec) : Exec := { e with hold := false, instrMeth := .full }

def insnTerminate (e : Exec) : Exec := { e with terminated := e.terminated + 1 }

def busyEnter (e : Exec) : Exec := { e with busy := true }

end Exec

/-- The timing model: the running totals of what the LSU accounts. Modelled
from the spec: the timing model is not under src/. -/
structure Timing where
  stallLoad : Nat
  eventLoad : Nat
  cycles : Nat
  eventMisaligned : Nat
  deriving DecidableEq, Repr

namespace Timing

def stallLoadAccount (t : Timing) (latency : Nat) : Timing :=
  { t with stallLoad := t.stallLoad + latency }

def eventLoadAccount (t : Timing) (n : Nat) : Timing :=
  { t with eventLoad := t.eventLoad + n }

def cycleAccount (t : Timing) : Timing := { t with cycles := t.cycles + 1 }

def eventMisalignedAccount (t : Timing) (n : Nat) : Timing :=
  { t with eventMisaligned := t.eventMisaligned + n }

end Timing

/-- The two translations of the MMU; `none` is a failed translation. -/
structure Mmu (P : Platform) where
  loadVirtToPhys : Addr P → Option (Addr P)
  storeVirtToPhys : Addr P → Option (Addr P)

/-- The `data` master port and the memory behind it. `outstanding` holds the
requests the memory accepted with `IO_REQ_PENDING` and has not answered,
oldest first; `issued` every submitted request; `completed` the latency of
every request that completed; `overlapped` records a submission made while an
earlier one was outstanding. -/
structure Port (P : Platform) where
  outstanding : List (IoReq P)
  issued : List (IoReq P)
  completed : List Nat
  overlapped : Bool
  deriving DecidableEq, Repr

/-- A port with nothing in flight and nothing recorded. -/
def Port.idle {P : Platform} : Port P := ⟨[], [], [], false⟩

/-- The memory's record of a request `req` it answers with `reply`. -/
def Port.submit {P : Platform} (port : Port P) (req : IoReq P) (reply : Reply P) : Port P :=
  { port with
    outstanding := if reply.status = .pending then port.outstanding ++ [req] else port.outstanding
    issued := port.issued ++ [req]
    completed := if reply.status = .ok then port.completed ++ [reply.latency] else port.completed
    overlapped := port.overlapped || !port.outstanding.isEmpty }

/-- The request slot after the memory's answer: an immediate answer fills in
the latency. -/
def IoReq.answered {P : Platform} (req : IoReq P) (reply : Reply P) : IoReq P :=
  if reply.status = .ok then { req with latency := reply.latency } else req

/-- The parts of `Iss` the LSU reaches. -/
structure Iss (P : Platform) where
  lsu : Lsu P
  exec : Exec
  timing : Timing
  regfile : Int → Reg P
  mmu : Mmu P
  mhartid : Nat
  data : Port P

namespace Iss

variable {P : Platform}

def getReg (s : Iss P) (reg : Int) : Reg P := s.regfile reg

def setReg (s : Iss P) (reg : Int) (value : Reg P) : Iss P :=
  { s with regfile := Function.update s.regfile reg value }

/-- The memory writing `value` through pointer `p`, where `p` is the storage
of a whole register. -/
def writeThrough (s : Iss P) (p : Ptr) (value : Reg P) : Iss P :=
  match p with
  | ⟨.reg reg, 0⟩ => s.setReg reg value
  | _ => s

/-- What the memory leaves in the buffer `p` when it answers `reply`: the result
of an immediate answer. -/
def deliver (s : Iss P) (p : Ptr) : Reply P → Iss P
  | .ok _ result => s.writeThrough p result
  | _ => s

/-- `this->data.req(&this->io_req)`: the memory records the request and answers
`reply`. An immediate answer fills in the latency and writes its result through
the second buffer; a pending request is kept until its response. -/
def request (s : Iss P) (reply : Reply P) : Iss P × IoReqStatus :=
  let req := s.lsu.ioReq
  ({ s.deliver req.secondData reply with
      lsu := { s.lsu with ioReq := req.answered reply }
      data := s.data.submit req reply }, reply.status)

/-- The memory answering its oldest outstanding request with `latency`, writing
`result` through that request's second buffer. -/
def respond (s : Iss P) (latency : Nat) (result : Reg P) : Iss P :=
  match s.data.outstanding with
  | [] => s
  | req :: rest =>
    { s.writeThrough req.secondData result with
      lsu := { s.lsu with ioReq := { s.lsu.ioReq with latency } },
      data := { s.data with outstanding := rest, completed := s.data.completed ++ [latency] } }

end Iss

end Gvsoc.Cpu
