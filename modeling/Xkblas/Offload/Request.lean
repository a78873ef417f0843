import Mathlib.Data.Option.Basic

/-!
# The request slot of a device

A client thread posts an operation in the `request` field of a `kaapi_device_t` and the
thread of the device answers through the same field.
-/

namespace Xkblas.Offload

/-- The values of `kaapi_device_op_t`. -/
inductive DeviceOp where
  | nop
  | reply
  | writeback
  | writebackWait
  | memsync
  | invalidateCaches
  deriving DecidableEq, Repr

/-- The slot holds an operation that the device has still to serve. -/
def DeviceOp.pending : DeviceOp → Bool
  | .nop | .reply => false
  | .writeback | .writebackWait | .memsync | .invalidateCaches => true

end Xkblas.Offload
