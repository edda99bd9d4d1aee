/-
# Errors

The errors the library reports to its caller, less those that only wrap an error of
a transport.
-/

import Ohnotel.Model

namespace Ohnotel

/-- `prometheus::Error`. -/
inductive PrometheusError
  | emptyMetricName
  | emptyLabelName (metric : Text)
  | familyCollision (name : Text)
  | labelCollision (label : Text) (metric : Text)
  | duplicateSeries (labels : Text) (metric : Text)
  | nonFiniteBoundary (metric : Text)
  deriving DecidableEq, Repr

inductive Error
  | deltaForGauge
  | invalidHistogramBoundaries
  | valueToF64
  | valueToI64
  | boundaryToF64
  | timeBeforeEpoch
  | timeOverflowsU64
  | destructiveWithMultipleCollectors
  | modeMismatch
  | duplicateDestructive
  | prometheus (err : PrometheusError)
  deriving DecidableEq, Repr

end Ohnotel
