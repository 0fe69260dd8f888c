import MushOS.Base.HeapBestFit
import MushOS.Base.Numbers
import MushOS.Base.Positions
import MushOS.Base.Precise
import MushOS.Base.StringAlgebra
import MushOS.Base.Occupation
import MushOS.Kernel.CloneFailure
import MushOS.Kernel.ControlFlow
import MushOS.Kernel.KernelRuns
import MushOS.Kernel.VideoMemory
import MushOS.Kernel.Preemption
import MushOS.Kernel.FreePages
import MushOS.Kernel.Modules
import MushOS.Kernel.PageGarbage
import MushOS.Kernel.FrameRelease
import MushOS.Kernel.PageMap
import MushOS.Boot.KernelImage
import MushOS.Drivers.Tabs
import MushOS.Kernel.CopyPage
import MushOS.Kernel.HardwareInterrupts
import MushOS.Drivers.PortsIo
