import Vkzg.Library.Barriers
import Vkzg.Library.BatchInverse
import Vkzg.Library.BitReversal
import Vkzg.Library.BucketSum
import Vkzg.Library.Chunks
import Vkzg.Library.Circulant
import Vkzg.Library.CountingSort
import Vkzg.Library.Dft
import Vkzg.Library.Erasure
import Vkzg.Library.Footprint
import Vkzg.Library.Kernel
import Vkzg.Library.LimbBytes
import Vkzg.Library.Lucas
import Vkzg.Library.Memory
import Vkzg.Library.Montgomery
import Vkzg.Library.Mutex
import Vkzg.Library.Newton
import Vkzg.Library.Objects
import Vkzg.Library.Quotients
import Vkzg.Library.Races
import Vkzg.Library.Radix
import Vkzg.Library.ShortWeierstrass
import Vkzg.Library.SignedDigits
import Vkzg.Library.Toeplitz
import Vkzg.Shaders.BucketReduce
import Vkzg.Shaders.Buffers
import Vkzg.Shaders.BuildCirculant
import Vkzg.Shaders.CellRoundTrip
import Vkzg.Shaders.Compress
import Vkzg.Shaders.DigitSort
import Vkzg.Shaders.Encoding
import Vkzg.Shaders.Field
import Vkzg.Shaders.FieldSpec
import Vkzg.Shaders.Footprints
import Vkzg.Shaders.FourStep
import Vkzg.Shaders.G1
import Vkzg.Shaders.Generator
import Vkzg.Shaders.Grids
import Vkzg.Shaders.Layout
import Vkzg.Shaders.Normalize
import Vkzg.Shaders.Ntt
import Vkzg.Shaders.PhaseA
import Vkzg.Shaders.PhaseB
import Vkzg.Shaders.Primes
import Vkzg.Shaders.Recovery
import Vkzg.Shaders.Roots
import Vkzg.Shaders.Workgroups
import Vkzg.Host.AnyOrder
import Vkzg.Host.Calls
import Vkzg.Host.CellProofs
import Vkzg.Host.Compute
import Vkzg.Host.ComputeProofs
import Vkzg.Host.Concurrency
import Vkzg.Host.Devices
import Vkzg.Host.Faults
import Vkzg.Host.Generated
import Vkzg.Host.Lifetime
import Vkzg.Host.Missing
import Vkzg.Host.Phases
import Vkzg.Host.Profile
import Vkzg.Host.Prover
import Vkzg.Host.Recover
import Vkzg.Host.RecoverBatch
import Vkzg.Host.RecoverCells
import Vkzg.Host.Tables
import Vkzg.Host.TablesFormat
import Vkzg.Host.TablesSafety
import Vkzg.Host.Threads
import Vkzg.Host.Verification
import Vkzg.Host.WorkingSet
import Vkzg.Bindings.Java
import Vkzg.Tools.GenConstants
