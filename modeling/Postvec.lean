import Postvec.Extension.ColumnSync
import Postvec.Extension.ChunkSync
import Postvec.Managed.ColumnSync
import Postvec.Extension.Triggers
import Postvec.Managed.Rekey
import Postvec.Format.Escape
import Postvec.Extension.Conservation
import Postvec.Managed.MigrationEnds
import Postvec.Registry.ArchiveRoundTrip
import Postvec.Registry.Download
import Postvec.Engine.Unload
import Postvec.Engine.Lifecycle
import Postvec.Engine.Lookup
import Postvec.Registry.SwapCopies
import Postvec.Registry.SwapRecovery
import Postvec.Managed.ProxyNames
import Postvec.Managed.RewriteSpec
import Postvec.Extension.Migration
import Postvec.Extension.MigrationDriver
import Postvec.Managed.Bind
import Postvec.Queue.Release
import Postvec.Registry.Expand
import Postvec.Engine.Activation
import Postvec.Chunking.Attempts
import Postvec.Extension.Watermark
import Postvec.Managed.Fleet
import Postvec.Managed.Lexical
import Postvec.Registry.Progress
import Postvec.Registry.Descriptor
import Postvec.Managed.Delivery
