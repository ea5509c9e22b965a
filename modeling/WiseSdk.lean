import WiseSdk.At.Connections
import WiseSdk.At.Receive
import WiseSdk.At.SetCommand
import WiseSdk.Cli.ArgvBounds
import WiseSdk.Cli.Autocomplete
import WiseSdk.Cli.History
import WiseSdk.Cli.Quoting
import WiseSdk.Cli.Readline
import WiseSdk.Cli.Segments
import WiseSdk.Dma.Completions
import WiseSdk.Dma.Copy
import WiseSdk.Flash.AreaErase
import WiseSdk.Flash.AreaWrite
import WiseSdk.Flash.Crypto
import WiseSdk.Flash.Erase
import WiseSdk.Flash.EraseEnds
import WiseSdk.Flash.EraseUnit
import WiseSdk.Flash.Errors
import WiseSdk.Flash.Partition
import WiseSdk.Flash.Program
import WiseSdk.Flash.Update
import WiseSdk.Fs.Entries
import WiseSdk.Fs.Load
import WiseSdk.Heap.Debug
import WiseSdk.Heap.FirstFit
import WiseSdk.Heap.RoundTrip
import WiseSdk.I2c.Data
import WiseSdk.I2s.Clock
import WiseSdk.I2s.Ownership
import WiseSdk.Irq.Plic
import WiseSdk.Ota.HeaderLookup
import WiseSdk.Ota.Image
import WiseSdk.Ota.Safety
import WiseSdk.Pinctrl.Owners
import WiseSdk.Pm.Alarm
import WiseSdk.Pm.Balance
import WiseSdk.Pm.Deadline
import WiseSdk.Pm.Devices
import WiseSdk.Pm.HibernationBudget
import WiseSdk.Pm.StayTimeout
import WiseSdk.Pm.Time
import WiseSdk.Repeater.Carrier
import WiseSdk.Repeater.Concurrent
import WiseSdk.Scdc.Credit
import WiseSdk.Scdc.Data
import WiseSdk.Scdc.MaskedReport
import WiseSdk.Scdc.Payload
import WiseSdk.Scdc.Release
import WiseSdk.Scdc.Reorder
import WiseSdk.Sdio.ChainWrite
import WiseSdk.Sdio.Header
import WiseSdk.Sdio.PacketQueue
import WiseSdk.Serial.Console
import WiseSdk.Serial.Write
import WiseSdk.Stdlib.CaseSearch
import WiseSdk.Systimer.Expiry
import WiseSdk.Systimer.Order
import WiseSdk.Timer.Multi
import WiseSdk.Vfs.Descriptors
import WiseSdk.Wdt.Interval
import WiseSdk.Wdt.TaskWdt
import WiseSdk.Wlan.Eviction
import WiseSdk.Wlan.HolePunch
import WiseSdk.Wlan.PoolAccounting
