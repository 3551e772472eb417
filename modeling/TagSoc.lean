import TagSoc.Soc
import TagSoc.AluRuns
import TagSoc.Compressed
import TagSoc.Reserved
import TagSoc.MretRun
import TagSoc.Reset
import TagSoc.SharedRam
import TagSoc.Zicsr
import TagSoc.Interrupts
import TagSoc.TagTrap
import TagSoc.MulDiv
import TagSoc.Misaligned
import TagSoc.Safety
import TagSoc.BusProgress
import TagSoc.HeapRuns
import TagSoc.SingleStep
import TagSoc.ClockReads
import TagSoc.Lfsr
import TagSoc.DivModel
import TagSoc.BootTags
import TagSoc.Newlib
import TagSoc.IsrWrapper
import TagSoc.Memmove
import TagSoc.FetchFlow
import TagSoc.ImageLoader
import TagSoc.Strings
import TagSoc.ExitStatus
import TagSoc.HeapGuard
import TagSoc.ExtPort
import TagSoc.Returns
import TagSoc.Fpga
import TagSoc.FpgaHost
import TagSoc.HostSession
import TagSoc.BoardLoad
import TagSoc.HostStep
import TagSoc.Machine
import TagSoc.Phases
import TagSoc.MachineRun
import TagSoc.Program
import TagSoc.Accesses
import TagSoc.SocMachine
import TagSoc.SocProgram
