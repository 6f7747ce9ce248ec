import Gvsoc.Cpu.Effects

/-! # The LSU in a run

The pipeline issues accesses, the memory answers them, the instruction event
runs a split access's second half, and the simulator resets the core.
`Sys.step` runs one such event on the LSU. The ghost fields of `Sys` record
what statements about whole runs need and the code does not keep: which
access the caller waits for, and counts of the events that happened.
`Reachable` closes a start state under the steps an admissibility predicate
allows.
-/

namespace Gvsoc.Cpu

set_option autoImplicit false

variable {P : Platform}

/-- What a load or store instruction installs when `data_req` answers
`IO_REQ_PENDING`: its resume action and the destination register and width
the resume reads. Modelled from the spec: the instructions are not under src/. -/
structure Registration where
  callback : Resume
  reg : Int
  size : Int
  deriving DecidableEq, Repr

/-- Installing a registration in the LSU's resume fields. -/
def Registration.install (r : Registration) (s : Iss P) : Iss P :=
  { s with lsu := { s.lsu with stallCallback := r.callback, stallReg := r.reg, stallSize := r.size } }

@[simp] theorem Registration.install_exec (r : Registration) (s : Iss P) :
    (r.install s).exec = s.exec := rfl

@[simp] theorem Registration.install_timing (r : Registration) (s : Iss P) :
    (r.install s).timing = s.timing := rfl

@[simp] theorem Registration.install_data (r : Registration) (s : Iss P) :
    (r.install s).data = s.data := rfl

@[simp] theorem Registration.install_misalignedSize (r : Registration) (s : Iss P) :
    (r.install s).lsu.misalignedSize = s.lsu.misalignedSize := rfl

/-- The events of a run. -/
inductive Event (P : Platform) where
  /-- An instruction calls `data_req`, and installs `registration` if the
  access is pending. -/
  | dataReq (addr : Addr P) (dataPtr : Ptr) (size : Int) (isWrite : Bool) (reply : Reply P)
      (registration : Registration)
  /-- An atomic instruction calls `atomic`. -/
  | atomic (addr : Addr P) (size : Int) (regIn regOut : Int) (opcode : Opcode) (reply : Reply P)
  /-- The armed instruction event fires and runs `exec_misaligned`. -/
  | execMisaligned (reply : Reply P)
  /-- The memory answers its oldest outstanding request and calls `data_response`. -/
  | dataResponse (latency : Nat) (result : Reg P)
  /-- `reset(active)`. -/
  | reset (active : Bool)

/-- The LSU's state with the ghost record of a run. -/
structure Sys (P : Platform) where
  iss : Iss P
  /-- The caller's last access answered `IO_REQ_PENDING` and no resume action
  has run since. -/
  waiting : Bool
  /-- Accesses `data_req` routed to the split path. -/
  splits : Nat
  /-- Second halves issued by `exec_misaligned`. -/
  secondHalves : Nat
  /-- Accesses that answered `IO_REQ_PENDING` to their caller. -/
  pendingAccesses : Nat
  /-- Some access was routed to the split path since the last `reset(true)`. -/
  splitSinceReset : Bool

/-- A resume action ran between two states. -/
def resumed (s s' : Iss P) : Bool := s.exec.terminated < s'.exec.terminated

/-- One event of a run. -/
def Sys.step (s : Sys P) : Event P → Sys P
  | .dataReq addr dataPtr size isWrite reply registration =>
    let (iss, status) := Lsu.dataReq s.iss reply addr dataPtr size isWrite
    { s with
      iss := if status = .pending then registration.install iss else iss
      waiting := status = .pending
      splits := s.splits + if Crosses addr size then 1 else 0
      pendingAccesses := s.pendingAccesses + if status = .pending then 1 else 0
      splitSinceReset := s.splitSinceReset || decide (Crosses addr size) }
  | .atomic addr size regIn regOut opcode reply =>
    let accepted := (Lsu.atomicTranslation s.iss addr opcode).isSome && reply.status = .pending
    { s with
      iss := Lsu.atomic s.iss reply addr size regIn regOut opcode
      waiting := accepted
      pendingAccesses := s.pendingAccesses + if accepted then 1 else 0 }
  | .execMisaligned reply =>
    let iss := Lsu.execMisaligned { s.iss with exec := { s.iss.exec with armed := false } } reply
    { s with
      iss
      waiting := s.waiting && !resumed s.iss iss
      secondHalves := s.secondHalves + 1 }
  | .dataResponse latency result =>
    let iss := Lsu.dataResponse (s.iss.respond latency result)
    { s with iss, waiting := s.waiting && !resumed s.iss iss }
  | .reset active =>
    { s with
      iss := Lsu.reset s.iss active
      splitSinceReset := !active && s.splitSinceReset }

/-- The start of a run: any core after `reset(true)`, with no instruction event
armed and nothing in flight at the memory. -/
def Sys.init (iss : Iss P) : Sys P where
  iss := { Lsu.reset iss true with exec := { iss.exec with armed := false }, data := Port.idle }
  waiting := false
  splits := 0
  secondHalves := 0
  pendingAccesses := 0
  splitSinceReset := false

/-- The states reached from `start` by steps `admissible` allows. -/
inductive Reachable (admissible : Sys P → Event P → Prop) (start : Sys P) : Sys P → Prop
  | init : Reachable admissible start start
  | step {s : Sys P} {e : Event P} : Reachable admissible start s → admissible s e →
      Reachable admissible start (s.step e)

/-- A property that holds at the start and is kept by every admissible step
holds in every reachable state. -/
theorem Reachable.induction {admissible : Sys P → Event P → Prop} {start s : Sys P}
    (inv : Sys P → Prop) (h : Reachable admissible start s) (hInit : inv start)
    (hStep : ∀ s e, Reachable admissible start s → inv s → admissible s e → inv (s.step e)) :
    inv s := by
  induction h with
  | init => exact hInit
  | step hr he ih => exact hStep _ _ hr ih he

/-- The memory answers only requests it accepted pending. -/
def MemoryAnswers (s : Sys P) : Event P → Prop
  | .dataResponse .. => s.iss.data.outstanding ≠ []
  | _ => True

/-- The memory answers only requests it accepted pending, and the instruction
event fires only while it is armed with `exec_misaligned`. -/
def Environment (s : Sys P) (e : Event P) : Prop :=
  MemoryAnswers s e ∧
    match e with
    | .execMisaligned _ => s.iss.exec.armed ∧ s.iss.exec.instrMeth = .execMisaligned
    | _ => True

/-- A caller starts an access only once its previous one is resolved. -/
def Disciplined (s : Sys P) : Event P → Prop
  | .dataReq .. | .atomic .. => s.waiting = false
  | _ => True

/-- A 32-bit core with 4-byte granules, as the ISS is built for RV32. -/
def rv32 : Platform where
  addrWidth := 32
  granuleBits := 2
  granuleBits_le := by decide
  regWidth := 32

/-- An RV32 core with every register and counter at zero and translation off. -/
def bareCore : Iss rv32 where
  lsu :=
    { misalignedSize := 0, misalignedAddr := 0, misalignedData := Ptr.null,
      misalignedIsWrite := false, stallCallback := .loadResume, stallReg := 0, stallSize := 0,
      elwStalled := false, ioReq := IoReq.init }
  exec :=
    { stalled := 0, hold := false, instrMeth := .full, armed := false, terminated := 0,
      elwInsn := false, busy := true }
  timing := ⟨0, 0, 0, 0⟩
  regfile := fun _ => 0
  mmu := { loadVirtToPhys := some, storeVirtToPhys := some }
  mhartid := 0
  data := Port.idle

end Gvsoc.Cpu
