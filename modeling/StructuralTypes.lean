import StructuralTypes.Cache
import StructuralTypes.Main
import StructuralTypes.Proofs.CasualBoolean
import StructuralTypes.Proofs.Dates
import StructuralTypes.Proofs.EntryOrder
import StructuralTypes.Proofs.ErrorPlace
import StructuralTypes.Proofs.Flattening
import StructuralTypes.Proofs.Grammar.Derivation
import StructuralTypes.Proofs.Growth
import StructuralTypes.Proofs.Merging
import StructuralTypes.Proofs.NumberLiteral
import StructuralTypes.Proofs.OperandOrder
import StructuralTypes.Proofs.Product
import StructuralTypes.Proofs.QuotedText
import StructuralTypes.Proofs.Sharing
import StructuralTypes.Proofs.Turns
