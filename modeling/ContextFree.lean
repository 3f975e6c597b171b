import ContextFree.Factoring.FixedPoint
import ContextFree.Factoring.Partition
import ContextFree.Grammar.Bnf
import ContextFree.Grammar.NamedRules
import ContextFree.Grammar.Terminals
import ContextFree.Proofs.Agreement
import ContextFree.Proofs.Alternatives
import ContextFree.Proofs.Bnf
import ContextFree.Proofs.Budget
import ContextFree.Proofs.Closed
import ContextFree.Proofs.CommonGroups
import ContextFree.Proofs.CommonPrefix
import ContextFree.Proofs.Commutation
import ContextFree.Proofs.Dedup
import ContextFree.Proofs.DisplayNames
import ContextFree.Proofs.Expansion
import ContextFree.Proofs.FreshName
import ContextFree.Proofs.FreshSymbols
import ContextFree.Proofs.GlobalPolicy
import ContextFree.Proofs.Groups
import ContextFree.Proofs.Growth
import ContextFree.Proofs.Index
import ContextFree.Proofs.Invariant
import ContextFree.Proofs.Json.Tokens
import ContextFree.Proofs.Json.Values
import ContextFree.Proofs.Language
import ContextFree.Proofs.Mirroring
import ContextFree.Proofs.NameOwners
import ContextFree.Proofs.NameSearch
import ContextFree.Proofs.NameTable
import ContextFree.Proofs.NamedRules
import ContextFree.Proofs.NewRules
import ContextFree.Proofs.NewSymbols
import ContextFree.Proofs.NormalForm
import ContextFree.Proofs.Partition
import ContextFree.Proofs.Pass
import ContextFree.Proofs.Recovery
import ContextFree.Proofs.Refusal
import ContextFree.Proofs.Renaming
import ContextFree.Proofs.Replacement
import ContextFree.Proofs.RoundTrip
import ContextFree.Proofs.RuleOrder
import ContextFree.Proofs.Run
import ContextFree.Proofs.Scan
import ContextFree.Proofs.Spelling
import ContextFree.Proofs.Splice
import ContextFree.Proofs.TakenNames
import ContextFree.Proofs.Terminals
import ContextFree.Proofs.Worklist
import ContextFree.Serialized
