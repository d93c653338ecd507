import Rtems.Score.ObjectsAccounting
import Rtems.Score.HeapArea
import Rtems.Score.MessageQueue
import Rtems.Score.Contention
import Rtems.Score.RwLock
import Rtems.Score.Watchdog
import Rtems.Classic.Event
import Rtems.Classic.TimerServer
import Rtems.Classic.Tod
import Rtems.Posix.Keys
import Rtems.Posix.Sporadic
import Rtems.Fts.Range
import Rtems.Fts.Reuse
import Rtems.Ratemon.CbsIsolation
import Rtems.Ratemon.Jobs
import Rtems.Ratemon.Owned
import Rtems.Ratemon.Quiet
import Rtems.Ratemon.Registry
import Rtems.Ratemon.Static
import Rtems.Rfs.GroupAlloc
import Rtems.Rfs.BitmapBounds
import Rtems.Rfs.BufferRun
import Rtems.Rfs.FileRun
import Rtems.Libfs.FifoRun
import Rtems.Libblock.SparseDiskRun
import Rtems.Libblock.MediaBlock
import Rtems.Libblock.SwapOut
import Rtems.Sapi.RbheapRun
import Rtems.Posix.Aio
import Rtems.Libcsupport.PrinterTask
