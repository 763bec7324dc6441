import Hakkun.Model.Ro.RoUtil

/-! # Regions of memory as the kernel reports them

Translated from `svc::MemoryInfo` and `svc::MemoryState`, with what the walks over memory look at.
-/

namespace Hakkun.Svc

/-- `svc::MemoryState`, as far as it is told apart. -/
inductive MemoryState where
  | Free
  | other
  deriving DecidableEq

/-- `svc::MemoryInfo`. -/
structure MemoryInfo where
  base_address : Ptr
  size : U64
  state : MemoryState
  permission : Ro.MemoryPermission
  deriving DecidableEq

end Hakkun.Svc
