/-
# Atomic cells, one operation at a time

A bucket is a cell that records measurements.  Every operation of the `Record`
and `Scalar` traits is one atomic step on such a cell, or is only ever observed
as one here, so a cell is the value it holds and an operation is a function on
that value.  The concurrent developments choose the order of the steps; what one
step does is fixed in this module.

The traits keep their source names.  A cell determines the measurement it
records and the snapshot it yields, which the output parameters say.
-/

import Mathlib.Data.UInt

namespace Ohnotel.Atomic

/-- Values under a comparison that may fail, as it does for a float that is not a
number. -/
class PartialOrd (T : Type) where
  partialCmp : T → T → Option Ordering

/-- The `<` of `PartialOrd`. -/
def PartialOrd.lt {T : Type} [PartialOrd T] (first second : T) : Bool :=
  partialCmp first second == some .lt

/-- A snapshot that says nothing was recorded. -/
class IsInitial (V : Type) where
  isInitial : V → Bool

/-- A cell `A` recording measurements `T` and read as snapshots `V`. -/
class Record (A : Type) (T V : outParam Type) where
  add : A → T → A
  sub : A → T → A
  clear : A → A
  current : A → V

/-- A cell holding one measurement.  The operations that return the previous
measurement return it beside the new cell. -/
class Scalar (A : Type) (T : outParam Type) extends Record A T T where
  fetchMin : A → T → A
  fetchMax : A → T → A
  swap : A → T → T × A
  load : A → T
  store : A → T → A
  reset : A → T × A

/-- `Scalar::get`, the trait's provided method. -/
def Scalar.get {A T : Type} [Scalar A T] (cell : A) : T := Scalar.load cell

/-- A measurement, the cell that holds one, and the values `fetchMin` and
`fetchMax` start from. -/
class Measure (T : Type) (C : outParam Type) extends Scalar C T, PartialOrd T where
  default : T
  ofValue : T → C
  minIdentity : T
  maxIdentity : T

/-- The cells that `impl_atomic_integer!` generates: the primitive itself, under
the wrapping arithmetic of the hardware operations. -/
@[reducible]
def integerScalar (T : Type) [Add T] [Sub T] [OfNat T 0] [LT T] [DecidableLT T] :
    Scalar T T where
  add cell value := cell + value
  sub cell value := cell - value
  clear _ := 0
  current cell := cell
  fetchMin cell value := if value < cell then value else cell
  fetchMax cell value := if cell < value then value else cell
  swap cell value := (cell, value)
  load cell := cell
  store _ value := value
  reset cell := (cell, 0)

instance : PartialOrd UInt64 where
  partialCmp first second := some (compare first second)

instance : PartialOrd Int64 where
  partialCmp first second := some (compare first second)

instance : Measure UInt64 UInt64 where
  toScalar := integerScalar UInt64
  default := 0
  ofValue value := value
  minIdentity := UInt64.ofNatLT (UInt64.size - 1) (by decide)
  maxIdentity := 0

instance : Measure Int64 Int64 where
  toScalar := integerScalar Int64
  default := 0
  ofValue value := value
  minIdentity := Int64.maxValue
  maxIdentity := Int64.minValue

instance : IsInitial UInt64 where
  isInitial value := value == 0

instance : IsInitial Int64 where
  isInitial value := value == 0

@[simp]
theorem add_uint64 (cell value : UInt64) : Record.add cell value = cell + value := rfl

@[simp]
theorem sub_uint64 (cell value : UInt64) : Record.sub cell value = cell - value := rfl

@[simp]
theorem clear_uint64 (cell : UInt64) : Record.clear cell = 0 := rfl

@[simp]
theorem current_uint64 (cell : UInt64) : Record.current cell = cell := rfl

@[simp]
theorem isInitial_uint64 (value : UInt64) : IsInitial.isInitial value = (value == 0) := rfl

end Ohnotel.Atomic
