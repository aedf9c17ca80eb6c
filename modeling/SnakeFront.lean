import SnakeFront.Assembly.Printer
import SnakeFront.Command.Directory
import SnakeFront.Command.Run
import SnakeFront.Lexeme
import SnakeFront.Lowering.Basic
import SnakeFront.Lowering.Fault
import SnakeFront.Lowering.Unit
import SnakeFront.Main
import SnakeFront.NormalForm.Printer
import SnakeFront.Scope.Family
import SnakeFront.Source.Reading
import SnakeFront.Text.Quoted
import SnakeFront.Token.Layout
import SnakeFront.Tree.Printer
import SnakeFront.Word
import SnakeFront.Proofs.Lowering.Allocation
import SnakeFront.Proofs.Lowering.Cases
import SnakeFront.Proofs.Lowering.Complaints
import SnakeFront.Proofs.Lowering.Continuation
import SnakeFront.Proofs.Lowering.Correspondence
import SnakeFront.Proofs.Lowering.Erasure
import SnakeFront.Proofs.Lowering.Initialised
import SnakeFront.Proofs.Lowering.Names
import SnakeFront.Proofs.Lowering.Targets
import SnakeFront.Proofs.Meaning.Arguments
import SnakeFront.Proofs.Meaning.Bodies
import SnakeFront.Proofs.Meaning.Evaluator
import SnakeFront.Proofs.Meaning.Machine
import SnakeFront.Proofs.Meaning.Operands
import SnakeFront.Proofs.Meaning.Preservation
import SnakeFront.Proofs.NormalForm.Relocation
import SnakeFront.Proofs.Scope.Lineage
import SnakeFront.Proofs.Scope.Slots
import SnakeFront.Proofs.Source.Acceptance
import SnakeFront.Proofs.Source.BlankLines
import SnakeFront.Proofs.Text.Decoding
import SnakeFront.Proofs.Text.Joined
import SnakeFront.Proofs.Token.Depth
import SnakeFront.Proofs.Token.Passage
import SnakeFront.Proofs.Token.Positions
import SnakeFront.Proofs.Token.Reading
import SnakeFront.Proofs.Token.Refusal
import SnakeFront.Proofs.Tree.Legible
import SnakeFront.Proofs.Tree.Parts
import SnakeFront.Proofs.Tree.Renaming
import SnakeFront.Proofs.Word.Joining
import SnakeFront.Proofs.Source.Vocabulary
import SnakeFront.Proofs.Lowering.Unambiguous
import SnakeFront.Proofs.Text.Unambiguous
import SnakeFront.Proofs.NormalForm.Listing
import SnakeFront.Proofs.Assembly.Listing
import SnakeFront.Proofs.Assembly.Preorder
import SnakeFront.Proofs.Lowering.Discipline
import SnakeFront.Proofs.Command.Debug
