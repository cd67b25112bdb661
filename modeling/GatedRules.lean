import GatedRules.Main
import GatedRules.Module.Json
import GatedRules.Proofs.Protocol
import GatedRules.Proofs.Mirrors
import GatedRules.Proofs.Growth
import GatedRules.Proofs.Session
import GatedRules.Proofs.Gating
import GatedRules.Proofs.Acyclic
import GatedRules.Proofs.Marks
import GatedRules.Proofs.Occurrences
import GatedRules.Proofs.ReferenceWalk
import GatedRules.Proofs.Lookups
import GatedRules.Proofs.Memoless
import GatedRules.Proofs.Cells
import GatedRules.Proofs.Reached
import GatedRules.Proofs.Descent
import GatedRules.Proofs.Meaning
import GatedRules.Proofs.Nesting
import GatedRules.Proofs.Budgets
import GatedRules.Proofs.Forgetting
import GatedRules.Proofs.Chains
import GatedRules.Proofs.Conditions
import GatedRules.Proofs.Recognition
import GatedRules.Proofs.Rendering
import GatedRules.Proofs.Remembering
import GatedRules.Proofs.Cycles
import GatedRules.Proofs.Spelling
import GatedRules.Proofs.GateSlots
import GatedRules.Proofs.Settled
import GatedRules.Proofs.Relocation
import GatedRules.Proofs.Absence
import GatedRules.Proofs.BareModules
import GatedRules.Proofs.Results
import GatedRules.Proofs.Circles
import GatedRules.Proofs.Unbound
import GatedRules.Proofs.RawInputs
import GatedRules.Proofs.Depth
import GatedRules.Proofs.Agreement
import GatedRules.Proofs.Reloading
import GatedRules.Proofs.Once
import GatedRules.Proofs.BoundNames
import GatedRules.Proofs.IncludeCycles
import GatedRules.Proofs.MissingModules
import GatedRules.Proofs.Isolation
import GatedRules.Proofs.Endings
import GatedRules.Proofs.Reordering
import GatedRules.Proofs.Directories
import GatedRules.Proofs.Lines
import GatedRules.Proofs.Concatenation
import GatedRules.Proofs.Constants
import GatedRules.Proofs.StaticTargets
import GatedRules.Proofs.FloatTexts
import GatedRules.Proofs.Notation
import GatedRules.Proofs.Entries
import GatedRules.Proofs.Keys
import GatedRules.Proofs.Registrations
import GatedRules.Proofs.Quotas
import GatedRules.Proofs.Quotation
import GatedRules.Proofs.Complaints
import GatedRules.Proofs.Positions
import GatedRules.Proofs.SourcePlaces
import GatedRules.Proofs.Balance
import GatedRules.Proofs.Identity
import GatedRules.Proofs.Doubles
import GatedRules.Proofs.Tallies
import GatedRules.Proofs.Fillings
import GatedRules.Proofs.Integers
import GatedRules.Proofs.NormalForms
import GatedRules.Proofs.Confinement
import GatedRules.Proofs.Interpolation
import GatedRules.Proofs.Ordinals
import GatedRules.Proofs.Worklists
import GatedRules.Proofs.Environments
import GatedRules.Proofs.Counters
import GatedRules.Proofs.Interchange
import GatedRules.Proofs.Stacks
import GatedRules.Proofs.Progress
import GatedRules.Proofs.Builders
import GatedRules.Proofs.Precedence
