import Dnet.Reduce.PrimAgreement
import Dnet.Kernel.WellTyped
import Dnet.Kernel.Preservation
import Dnet.Kernel.Erase
import Dnet.Read.Normal
import Dnet.Front.Python
import Dnet.Build.Proto
import Dnet.Cas.Keys
import Dnet.Check.Cache
import Dnet.Reduce.AnyOrder
import Dnet.Reduce.Fuel
import Dnet.Reduce.Merge
import Dnet.Dist.Sync
import Dnet.Reduce.Handles
import Dnet.Core.Limbs
import Dnet.Front.Alpha
import Dnet.Front.Assert
import Dnet.Flake.Resolve
import Dnet.Front.Cycles
import Dnet.Check.Strings
