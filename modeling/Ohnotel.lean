import Ohnotel.BucketMap.Refinement
import Ohnotel.BucketMap.Reads
import Ohnotel.BucketMap.Interleaving
import Ohnotel.BucketMap.Orderings
import Ohnotel.BucketMap.Cardinality
import Ohnotel.BucketMap.Writers
import Ohnotel.Atomic.ExactlyOnce
import Ohnotel.Atomic.Undo
import Ohnotel.Atomic.Bracketing
import Ohnotel.Observe.Agreement
import Ohnotel.Observe.LostUpdates
import Ohnotel.Collect
import Ohnotel.Prometheus.Series
import Ohnotel.Prometheus.Reordering
import Ohnotel.Prometheus.Histograms
import Ohnotel.Collect.Delivery
import Ohnotel.Otel.Intervals
import Ohnotel.Sharing
import Ohnotel.Observe.Deltas
import Ohnotel.Observe.Written
import Ohnotel.ExportedBoundaries
import Ohnotel.Collect.Grid
import Ohnotel.Collect.Destructive
import Ohnotel.Otel.FailedExport
import Ohnotel.Atomic.Linearization
import Ohnotel.Otel.Resource
import Ohnotel.Console.Export
import Ohnotel.Observe.Beside
import Ohnotel.Locking
import Ohnotel.Collect.Pipeline
import Ohnotel.Collect.Punctual
import Ohnotel.Prometheus.Beside
import Ohnotel.BucketMap.Readers
import Ohnotel.Otel.Backend
import Ohnotel.Atomic.Progress
import Ohnotel.Atomic.Waiting
