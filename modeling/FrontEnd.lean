import FrontEnd.Constant.Reader
import FrontEnd.Proofs.Constant.Shifts
import FrontEnd.Proofs.Grammar.Precedence
import FrontEnd.Proofs.Grammar.TypeTexts
import FrontEnd.Proofs.Nesting.Statements
import FrontEnd.Proofs.Program.Ceiling
import FrontEnd.Proofs.Program.Comparison
import FrontEnd.Proofs.Program.Complete
import FrontEnd.Proofs.Program.LexicalErrors
import FrontEnd.Proofs.Program.Reservations
import FrontEnd.Proofs.Program.StructFlows
import FrontEnd.Proofs.Reading.Constants
import FrontEnd.Proofs.Storage.PoolOccupancy
import FrontEnd.Proofs.Storage.ScratchLoans
import FrontEnd.Proofs.Symbol.OverloadChains
import FrontEnd.Proofs.Syntax.Release
import FrontEnd.Proofs.Token.Jumps
import FrontEnd.Proofs.Token.Literals
import FrontEnd.Proofs.Typing.OverloadChoice
import FrontEnd.Proofs.Typing.Rechecking
import FrontEnd.Storage.Scratch
import FrontEnd.Syntax.Printer
import FrontEnd.Syntax.Record
