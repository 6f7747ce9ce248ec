import Gvsoc.Cpu.State
import Gvsoc.Cpu.Lsu
import Gvsoc.Cpu.Granule
import Gvsoc.Cpu.Effects
import Gvsoc.Cpu.System
import Gvsoc.Cpu.Accounting
import Gvsoc.Cpu.InFlight
import Gvsoc.Cpu.PendingRecord
import Gvsoc.Cpu.GranuleSafety
import Gvsoc.Cpu.Rejection
import Gvsoc.Cpu.Split
import Gvsoc.Cpu.Atomic
import Gvsoc.Cpu.Wakeup
import Gvsoc.Cpu.StateMachine
import Gvsoc.Power.Table
import Gvsoc.Power.Interpolation
import Gvsoc.Power.Construction
import Gvsoc.Power.Range
import Gvsoc.Power.Monotone
import Gvsoc.Power.Slope
import Gvsoc.Power.Configuration
import Gvsoc.Power.ComponentPower
