import BifrostModule.Dma.Conservation
import BifrostModule.Regb.Inside
import BifrostModule.Dma.UserTransfer
import BifrostModule.Animal.Gpio
import BifrostModule.Cdev.Delivery
import BifrostModule.Cdev.OwnSession
import BifrostModule.Dma.Apart
import BifrostModule.Irq.Locks
import BifrostModule.Lifecycle.Probe
import BifrostModule.Lifecycle.Load
import BifrostModule.Lifecycle.Live
import BifrostModule.Animal.ChipSelect
import BifrostModule.Usim.Contract
import BifrostModule.Usim.Copies
import BifrostModule.Animal.WriteRead
import BifrostModule.Dma.Stats
import BifrostModule.Dma.Busy
import BifrostModule.Cdev.Payload
import BifrostModule.Membus.Transfer
import BifrostModule.Membus.Port
import BifrostModule.Regb.WriteRepeat
import BifrostModule.Regb.Elements
import BifrostModule.Regb.Range
import BifrostModule.Dma.Average
import BifrostModule.Dma.Start
import BifrostModule.Usim.Orphans
import BifrostModule.Usim.Replies
import BifrostModule.Dma.Tickets
import BifrostModule.Dma.CachedBuffer
import BifrostModule.Cdev.Stamps
import BifrostModule.Cdev.Causes
import BifrostModule.Animal.SmbRead
import BifrostModule.Usim.Xfer
import BifrostModule.Irq.Completions
import BifrostModule.Usim.Pollers
import BifrostModule.Dma.KickOff
import BifrostModule.Foundation.Extents
import BifrostModule.Cmem.Cleanup
import BifrostModule.Cmem.ZeroBytes
import BifrostModule.Cmem.BestFit
import BifrostModule.Cmem.Outcome
import BifrostModule.Cmem.Options
