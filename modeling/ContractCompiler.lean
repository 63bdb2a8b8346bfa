import ContractCompiler.Main
import ContractCompiler.Proofs.Addressing
import ContractCompiler.Proofs.Anchor.Compile
import ContractCompiler.Proofs.Expr.RoundTrip
import ContractCompiler.Proofs.Frozen
import ContractCompiler.Proofs.Lending.Sentence
import ContractCompiler.Proofs.Listing
import ContractCompiler.Proofs.Mentions
import ContractCompiler.Proofs.Registers
import ContractCompiler.Proofs.Sentence.RoundTrip
import ContractCompiler.Proofs.Stepping
import ContractCompiler.Proofs.Token.Unclosed
import ContractCompiler.Proofs.Uncommented
