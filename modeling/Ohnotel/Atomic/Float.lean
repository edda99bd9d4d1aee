/-
# Atomic floats

An atomic float is a 64-bit word that is read and written as the bits of a double.
Comparisons are read off the bits: the order of two numbers is that of their signed
magnitudes, so the two zeros are equal, and what is not a number compares to nothing.
Additions are the machine's.

The closures that `AtomicF64` passes to `update_with` have names here.  One operation
at a time, each operation is a function on the word; the retry loop is taken apart in
the module on linearization.
-/

import Ohnotel.Atomic.Basic

namespace Ohnotel.Atomic

/-- A double, by its bits. -/
structure F64 where
  bits : UInt64
  deriving DecidableEq

namespace F64

/-- The bits without the sign. -/
def magnitude (x : F64) : Nat := x.bits.toNat % 2 ^ 63

def isSignNegative (x : F64) : Bool := 2 ^ 63 ≤ x.bits.toNat

/-- All bits of the exponent are set, and some bit of the fraction. -/
def isNan (x : F64) : Bool := 0x7FF0000000000000 < x.magnitude

/-- Where a number stands among the others. -/
def rank (x : F64) : Option Int :=
  if x.isNan then none
  else some (if x.isSignNegative then -(x.magnitude : Int) else x.magnitude)

instance : PartialOrd F64 where
  partialCmp first second :=
    match first.rank, second.rank with
    | some below, some above => some (compare below above)
    | _, _ => none

def infinity : F64 := ⟨0x7FF0000000000000⟩

def negInfinity : F64 := ⟨0xFFF0000000000000⟩

def zero : F64 := ⟨0⟩

/-- `-x`: the sign is flipped. -/
def neg (x : F64) : F64 := ⟨x.bits ^^^ 0x8000000000000000⟩

/-- `cur + value`. -/
def plus (value cur : F64) : F64 := ⟨(Float.ofBits cur.bits + Float.ofBits value.bits).toBits⟩

/-- The closure of `fetch_min`. -/
def orLess (value cur : F64) : F64 :=
  if cur.isNan || PartialOrd.lt value cur then value else cur

/-- The closure of `fetch_max`. -/
def orMore (value cur : F64) : F64 :=
  if cur.isNan || PartialOrd.lt cur value then value else cur

/-- Leave a word alone when the value is not a number. -/
def unlessNan (value : F64) (update : F64 → F64) (cur : F64) : F64 :=
  if value.isNan then cur else update cur

/-- `AtomicF64`, one operation at a time. -/
instance : Scalar F64 F64 where
  add cell value := unlessNan value (plus value) cell
  sub cell value := unlessNan value.neg (plus value.neg) cell
  clear _ := zero
  current cell := cell
  fetchMin cell value := unlessNan value (orLess value) cell
  fetchMax cell value := unlessNan value (orMore value) cell
  swap cell value := (cell, value)
  load cell := cell
  store cell value := unlessNan value (fun _ => value) cell
  reset cell := (cell, zero)

instance : Measure F64 F64 where
  default := zero
  ofValue value := value
  minIdentity := infinity
  maxIdentity := negInfinity

end F64

end Ohnotel.Atomic
