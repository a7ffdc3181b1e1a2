import TernaryRules.Main
import TernaryRules.Rule.Audit
import TernaryRules.Rule.Sink
import TernaryRules.Tree.Draft
import TernaryRules.Tree.Json
import TernaryRules.Proofs.StrictTree
import TernaryRules.Proofs.Classification
import TernaryRules.Proofs.Minimality
import TernaryRules.Proofs.Census
import TernaryRules.Proofs.Count
import TernaryRules.Proofs.Numbering
import TernaryRules.Proofs.Refusal
import TernaryRules.Proofs.Saturation
import TernaryRules.Proofs.Decomposition
import TernaryRules.Proofs.Totals
import TernaryRules.Proofs.Traversal
import TernaryRules.Proofs.Json.Number
import TernaryRules.Proofs.Json.Text
import TernaryRules.Proofs.Json.Record
import TernaryRules.Proofs.Json.Feature
import TernaryRules.Proofs.Json.Tree
import TernaryRules.Proofs.Double
import TernaryRules.Proofs.Fitted
import TernaryRules.Proofs.CommandLine.Arguments
import TernaryRules.Proofs.Document
import TernaryRules.Proofs.CommandLine.Run
import TernaryRules.Proofs.Nesting
import TernaryRules.Proofs.Peak
import TernaryRules.Proofs.Agreement
import TernaryRules.Proofs.Product
import TernaryRules.Proofs.Diagnosis
import TernaryRules.Proofs.Evaluation
import TernaryRules.Proofs.Fitted.Refusal
import TernaryRules.Proofs.Renumbering
import TernaryRules.Proofs.Sink
import TernaryRules.Proofs.Line
import TernaryRules.Proofs.Audit.Cover
import TernaryRules.Proofs.Odometer.Check
import TernaryRules.Proofs.Audit.Partition
import TernaryRules.Proofs.Size
import TernaryRules.Proofs.Words
