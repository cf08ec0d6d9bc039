import BasicCompiler.Decimal.Reader
import BasicCompiler.Main
import BasicCompiler.Proofs.Casing
import BasicCompiler.Proofs.Conversions
import BasicCompiler.Proofs.Diagnostics
import BasicCompiler.Proofs.Literals
import BasicCompiler.Proofs.Lowering.Arithmetic
import BasicCompiler.Proofs.Lowering.Freshness
import BasicCompiler.Proofs.Lowering.Slots
import BasicCompiler.Proofs.Nesting
import BasicCompiler.Proofs.Reporting
import BasicCompiler.Proofs.Source.LineIf
import BasicCompiler.Proofs.Source.Precedence
import BasicCompiler.Proofs.Token.LineRest
import BasicCompiler.Proofs.Token.OnDemand
import BasicCompiler.Proofs.Typed.WellScoped
import BasicCompiler.Proofs.Types.Resolution
import BasicCompiler.Source.Places
