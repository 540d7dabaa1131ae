import Nasm64.Main
import Nasm64.Proofs.Address.Parameter
import Nasm64.Proofs.CommandLine.Warnings
import Nasm64.Proofs.Concurrency.Pool
import Nasm64.Proofs.Conversion.Floating
import Nasm64.Proofs.Data.Merge
import Nasm64.Proofs.Document.Frame
import Nasm64.Proofs.Document.Number
import Nasm64.Proofs.Echo.Diagnostics
import Nasm64.Proofs.Flow.Closure
import Nasm64.Proofs.Layout.Reservations
import Nasm64.Proofs.Literal.Image
import Nasm64.Proofs.Machine.Transfer
import Nasm64.Proofs.Scope.Declaration
import Nasm64.Proofs.Text.Excerpt
import Nasm64.Proofs.Text.Wrap
import Nasm64.Proofs.Type.Spelling
import Nasm64.Proofs.Usage.Unused
import Nasm64.Proofs.Value.Constant
import Nasm64.Proofs.Value.Float
