import SepKernel.Process.Transition
import SepKernel.Proofs.Capability.Addresses
import SepKernel.Proofs.Capability.Encoding
import SepKernel.Proofs.Channel.Answering
import SepKernel.Proofs.Channel.Mark
import SepKernel.Proofs.Harts.Deadline
import SepKernel.Proofs.Harts.Endless
import SepKernel.Proofs.Harts.Faults
import SepKernel.Proofs.Harts.Suspension
import SepKernel.Proofs.Journal.Transcript
import SepKernel.Proofs.Lineage.Chain
import SepKernel.Proofs.Machine.Lines
import SepKernel.Proofs.Machine.Reclamation
import SepKernel.Proofs.Machine.Resumption
import SepKernel.Proofs.Machine.Return
import SepKernel.Proofs.Process.AtRest
import SepKernel.Proofs.Protection.Area
import SepKernel.Proofs.Protection.Lock
import SepKernel.Proofs.Protection.Mirror
import SepKernel.Proofs.Schedule.Search
import SepKernel.Proofs.Syscall.Boundary
import SepKernel.Proofs.Table.Layout
