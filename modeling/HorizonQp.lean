import HorizonQp.Json.Record
import HorizonQp.Linear.Product
import HorizonQp.Qp.Load
import HorizonQp.Qp.Resize
import HorizonQp.Qp.Text
import HorizonQp.Residual.Dense
import HorizonQp.Residual.Staged
import HorizonQp.Proofs.Memory.Bytes
import HorizonQp.Proofs.Outcome
import HorizonQp.Proofs.Layout.Places
import HorizonQp.Proofs.Layout.Planned
import HorizonQp.Proofs.Layout.Sound
import HorizonQp.Proofs.Qp.Headers
import HorizonQp.Proofs.Qp.Bound
import HorizonQp.Proofs.Qp.Calls
import HorizonQp.Proofs.Qp.Repack
import HorizonQp.Proofs.Qp.Reachable
import HorizonQp.Proofs.Linear.Entries
import HorizonQp.Proofs.Qp.Store
import HorizonQp.Proofs.Qp.Slots
import HorizonQp.Proofs.Qp.Frame
import HorizonQp.Proofs.Qp.Fields
import HorizonQp.Proofs.Linear.Lengths
import HorizonQp.Proofs.Exact.Sums
import HorizonQp.Proofs.Exact.Kernels
import HorizonQp.Proofs.Dense.Update
import HorizonQp.Proofs.Dense.Formula
import HorizonQp.Proofs.Dense.Cost
import HorizonQp.Proofs.Dense.Optimality
import HorizonQp.Proofs.Staged.Read
import HorizonQp.Proofs.Staged.Formula
import HorizonQp.Proofs.Staged.Flatten
import HorizonQp.Proofs.Staged.Blocks
import HorizonQp.Proofs.Staged.Sides
import HorizonQp.Proofs.Staged.Walk
import HorizonQp.Proofs.Staged.Agree
import HorizonQp.Proofs.Layout.Exact
import HorizonQp.Proofs.Qp.Rewriting
import HorizonQp.Proofs.Qp.Resizing
import HorizonQp.Proofs.Qp.Resizes
import HorizonQp.Proofs.Staged.Residuals
import HorizonQp.Proofs.Staged.Adjoint
import HorizonQp.Proofs.Staged.Kernel
import HorizonQp.Proofs.Staged.Fed
import HorizonQp.Proofs.Staged.Total
import HorizonQp.Proofs.Dense.Total
import HorizonQp.Proofs.Qp.Writes
import HorizonQp.Proofs.Qp.Marshalling
import HorizonQp.Proofs.Qp.Orders
import HorizonQp.Proofs.Qp.Runs
import HorizonQp.Proofs.Qp.Loading
import HorizonQp.Proofs.Qp.Binding
import HorizonQp.Proofs.Qp.Mirrored
import HorizonQp.Proofs.Staged.Contents
import HorizonQp.Proofs.Staged.General
import HorizonQp.Proofs.Linear.Reads
import HorizonQp.Proofs.Staged.Alike
import HorizonQp.Proofs.Staged.Over
import HorizonQp.Proofs.Dense.Alike
import HorizonQp.Proofs.TwoRuns
import HorizonQp.Proofs.Dense.Residuals
import HorizonQp.Proofs.Qp.Reuse
import HorizonQp.Proofs.Qp.Creation
import HorizonQp.Proofs.Layout.Breach
import HorizonQp.Proofs.Qp.Admission
import HorizonQp.Proofs.Numbers.Comparison
import HorizonQp.Proofs.Residual.Convergence
import HorizonQp.Proofs.Dense.Bounds
import HorizonQp.Proofs.Linear.Multiply
import HorizonQp.Proofs.Exact.Views
import HorizonQp.Proofs.Linear.Unread
import HorizonQp.Proofs.Numbers.Difference
import HorizonQp.Proofs.Linear.Distance
import HorizonQp.Proofs.Linear.Halves
import HorizonQp.Proofs.Linear.Transposed
