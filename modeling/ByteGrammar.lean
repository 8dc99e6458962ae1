import ByteGrammar.Decode.Run
import ByteGrammar.Grammar.Calls
import ByteGrammar.Grammar.Read
import ByteGrammar.Resolved.Resolve
import ByteGrammar.Script.Command
import ByteGrammar.Proofs.Decode.Abandoned
import ByteGrammar.Proofs.Decode.ByteOrder
import ByteGrammar.Proofs.Decode.Confinement
import ByteGrammar.Proofs.Decode.Conformance
import ByteGrammar.Proofs.Decode.Content
import ByteGrammar.Proofs.Decode.DataEnd
import ByteGrammar.Proofs.Decode.Delimited
import ByteGrammar.Proofs.Decode.Delivery
import ByteGrammar.Proofs.Decode.Fatal
import ByteGrammar.Proofs.Decode.Faults
import ByteGrammar.Proofs.Decode.Filling
import ByteGrammar.Proofs.Decode.History
import ByteGrammar.Proofs.Decode.Limits
import ByteGrammar.Proofs.Decode.References
import ByteGrammar.Proofs.Decode.Remaining
import ByteGrammar.Proofs.Decode.Rendering
import ByteGrammar.Proofs.Decode.Repetition
import ByteGrammar.Proofs.Decode.Rounds
import ByteGrammar.Proofs.Decode.ScriptLinks
import ByteGrammar.Proofs.Decode.Shape
import ByteGrammar.Proofs.Decode.Sweep
import ByteGrammar.Proofs.Decode.Termination
import ByteGrammar.Proofs.Decode.TrailingCall
import ByteGrammar.Proofs.Grammar.Calls
import ByteGrammar.Proofs.Grammar.Grown
import ByteGrammar.Proofs.Literal.Pairs
import ByteGrammar.Proofs.Literal.Spelling
import ByteGrammar.Proofs.Literal.Written
import ByteGrammar.Proofs.Number.Matching
import ByteGrammar.Proofs.Quantity.Printed
import ByteGrammar.Proofs.Resolved.BaseSearch
import ByteGrammar.Proofs.Resolved.Cycles
import ByteGrammar.Proofs.Resolved.Dangling
import ByteGrammar.Proofs.Resolved.Derived
import ByteGrammar.Proofs.Resolved.InForce
import ByteGrammar.Proofs.Resolved.Lengths
import ByteGrammar.Proofs.Resolved.Lookups
import ByteGrammar.Proofs.Resolved.Merging
import ByteGrammar.Proofs.Resolved.Overlay
import ByteGrammar.Proofs.Resolved.Returns
import ByteGrammar.Proofs.Resolved.Seeking
import ByteGrammar.Proofs.Resolved.Unbounded
import ByteGrammar.Proofs.Resolved.WellFormed
import ByteGrammar.Proofs.Source.Answered
