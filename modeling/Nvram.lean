import Nvram.Main
import Nvram.V2.Commit
import Nvram.Libnvram.Plain
import Nvram.V2.Load
import Nvram.V2.Slots
import Nvram.V2.Isolation
import Nvram.V2.PowerFail
import Nvram.V2.Oversize
import Nvram.Machine
import Nvram.Interface.File
import Nvram.Interface.Mtd
import Nvram.Interface.Efi
import Nvram.Program.Args
import Nvram.Program.Frame
import Nvram.Program.Grammar
import Nvram.Program.Exclusion
import Nvram.Program.Release
import Nvram.Program.Status
import Nvram.Program.Confinement
import Nvram.Program.Invocation
import Nvram.Program.Handles
import Nvram.Program.AllOrNothing
import Nvram.Legacy.Reread
import Nvram.Program.Namespaces
import Nvram.Program.Repeat
import Nvram.Program.Refinement
import Nvram.Legacy.Lines
import Nvram.Legacy.Domain
import Nvram.Legacy.Update
import Nvram.Platform.Header
import Nvram.Platform.Numerals
import Nvram.Platform.Session
import Nvram.Platform.RoundTrip
import Nvram.Platform.Blobs
import Nvram.Legacy.Bounds
import Nvram.Interface.Labels
import Nvram.Platform.Errno
import Nvram.Interface.Block
import Nvram.Legacy.FixedSize
import Nvram.Program.Serial
import Nvram.Program.Boots
import Nvram.Program.Devices
import Nvram.Program.Descriptors
import Nvram.Interface.Variables
import Nvram.Program.Protection
import Nvram.Platform.Keeper
