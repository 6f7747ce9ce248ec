import Gvsoc.Cpu.System

/-! # Atomics

`atomic` asks the load translation for `LR` and the store translation for
every other opcode, and gives up when the translation fails. Otherwise it
submits one request built from its operands. The translated address is
computed and dropped: the request carries the virtual address.

An atomic the memory completes at once extends the result in place; one it
accepts pending installs a resume action that does the same when the response
comes, provided `data_response` finds no second half recorded.
-/

namespace Gvsoc.Cpu

set_option autoImplicit false

variable {P : Platform}

/-- With a translation that maps `0x1000` to `0x2000`, an atomic add at
`0x1000` submits its request at `0x1000`. -/
theorem atomic_submits_virtual_address :
    let s : Iss rv32 :=
      { bareCore with mmu := ⟨fun a => some (a + 0x1000), fun a => some (a + 0x1000)⟩ }
    Lsu.atomicTranslation s 0x1000 .add = some 0x2000 ∧
      (Lsu.atomic s (.ok 0 0) 0x1000 4 1 2 .add).data.issued.map IoReq.addr = [0x1000] := by
  decide

/-- From a state with no second half recorded and nothing outstanding, an
atomic whose translation succeeds ends alike whether the memory completes it
at once or answers later through `data_response` with the same result and
latency: the same value in `reg_out`, the result sign-extended when it is
narrower than a register, the same latency accounted, and one resume on the
pending path only. -/
theorem atomic_completions_agree (s : Iss P) (addr : Addr P) (size : Int) (regIn regOut : Int)
    (opcode : Opcode) (latency : Nat) (result : Reg P) (hRecord : s.lsu.misalignedSize = 0)
    (hIdle : s.data.outstanding = []) (hTrans : (Lsu.atomicTranslation s addr opcode).isSome) :
    let sync := Lsu.atomic s (.ok latency result) addr size regIn regOut opcode
    let async :=
      Lsu.dataResponse ((Lsu.atomic s .pending addr size regIn regOut opcode).respond latency result)
    sync.getReg regOut = async.getReg regOut ∧
      sync.getReg regOut =
        (if size ≠ (P.regWidth / 8 : Nat) then issGetSignedValue result (size * 8) else result) ∧
      sync.timing.stallLoad = async.timing.stallLoad ∧
      async.exec.terminated = s.exec.terminated + 1 ∧ sync.exec.terminated = s.exec.terminated := by
  obtain ⟨p, hp⟩ := Option.isSome_iff_exists.1 hTrans
  have hOut : (Lsu.atomic s .pending addr size regIn regOut opcode).data.outstanding =
      [atomicReq s addr size regIn regOut opcode] := by
    simp [atomic_pending _ _ _ _ _ _ hp, Port.submit, Reply.status, hIdle]
  rw [Lsu.dataResponse, respond_cons _ _ _ hOut, atomic_ok _ _ _ _ _ _ hp]
  simp only [atomic_pending _ _ _ _ _ _ hp, atomicExtend]
  split_ifs <;>
    simp [hRecord, atomicReq, Lsu.runResume, Lsu.loadSignedResume, Lsu.storeResume, Iss.getReg, Iss.setReg,
      Timing.stallLoadAccount, Exec.insnTerminate, Exec.stalledDec, Exec.insnStall]

/-- An atomic byte add at address 16, at the start of a run, answered with
`0xFF` and latency 5. -/
theorem atomic_byte_add_agrees :
    let s := (Sys.init bareCore).iss
    let sync := Lsu.atomic s (.ok 5 0xFF) 16 1 1 2 .add
    let async := Lsu.dataResponse ((Lsu.atomic s .pending 16 1 1 2 .add).respond 5 0xFF)
    s.lsu.misalignedSize = 0 ∧ s.data.outstanding = [] ∧ (Lsu.atomicTranslation s 16 .add).isSome ∧
      sync.getReg 2 = async.getReg 2 ∧ sync.getReg 2 = 0xFFFFFFFF := by
  have h := atomic_completions_agree (Sys.init bareCore).iss 16 1 1 2 .add 5 0xFF rfl rfl rfl
  exact ⟨rfl, rfl, rfl, h.1, h.2.1.trans (by decide)⟩

/-- After a split load has completed, so that no access is unresolved, an
atomic byte add answered with `0xFF` leaves `0xFFFFFFFF` in the destination
register when the memory completes it at once, but `0xFF` and an unfinished
instruction when the memory answers it through `data_response`. -/
theorem atomic_pending_after_split_not_extended :
    let s : Sys rv32 := ((Sys.init bareCore).step
      (.dataReq 3 ⟨.buffer 0, 0⟩ 4 false (.ok 0 0) ⟨.loadResume, 5, 4⟩)).step (.execMisaligned (.ok 0 0))
    let sync := (s.step (.atomic 16 1 1 2 .add (.ok 5 0xFF))).iss
    let async := ((s.step (.atomic 16 1 1 2 .add .pending)).step (.dataResponse 5 0xFF)).iss
    Reachable (fun s e => Disciplined s e ∧ Environment s e) (Sys.init bareCore) s ∧
      s.waiting = false ∧ s.iss.data.outstanding = [] ∧
      sync.getReg 2 = 0xFFFFFFFF ∧ async.getReg 2 = 0xFF ∧
      async.exec.terminated = s.iss.exec.terminated ∧ sync.timing.stallLoad = async.timing.stallLoad := by
  refine ⟨(Reachable.init.step ⟨rfl, trivial, trivial⟩).step
    ⟨trivial, trivial, by simp only [Environment]; decide⟩, ?_⟩
  decide

end Gvsoc.Cpu
