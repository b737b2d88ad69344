import StackCalc.Catalogue
import StackCalc.Session
import StackCalc.Proofs.Phrase
import StackCalc.Proofs.Conversion
import StackCalc.Proofs.Chain
import StackCalc.Proofs.Grouping
import StackCalc.Proofs.Balance
import StackCalc.Proofs.Grammar
import StackCalc.Proofs.Effect
import StackCalc.Proofs.Nesting
import StackCalc.Proofs.Scanning
import StackCalc.Proofs.Acceptance
import StackCalc.Proofs.Execution
import StackCalc.Proofs.Tree
import StackCalc.Proofs.Agreement
import StackCalc.Proofs.Postorder
import StackCalc.Proofs.Record
import StackCalc.Proofs.Capacity
import StackCalc.Proofs.Parenthesised
import StackCalc.Proofs.Matching
import StackCalc.Proofs.WellFormed
import StackCalc.Proofs.Alternation
import StackCalc.Proofs.Labels
import StackCalc.Proofs.Arrangement
import StackCalc.Proofs.Substitution
import StackCalc.Proofs.Lexicon
import StackCalc.Proofs.Segmentation
import StackCalc.Proofs.Spelling
import StackCalc.Proofs.History
import StackCalc.Proofs.Copies
import StackCalc.Proofs.Coherence
import StackCalc.Proofs.Emission
import StackCalc.Proofs.Settling
import StackCalc.Proofs.Suffixes
import StackCalc.Proofs.Signs
import StackCalc.Proofs.Separation
import StackCalc.Proofs.Displacement
import StackCalc.Proofs.Faults
import StackCalc.Proofs.Requests
import StackCalc.Proofs.Modes
import StackCalc.Proofs.Bindings
import StackCalc.Proofs.Contexts
import StackCalc.Proofs.Grounding
import StackCalc.Proofs.Variables
import StackCalc.Proofs.Registration
import StackCalc.Proofs.Recognition
import StackCalc.Proofs.Pairing
import StackCalc.Proofs.Literals
