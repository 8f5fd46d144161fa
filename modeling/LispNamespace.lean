import LispNamespace.Main
import LispNamespace.Tree.Equality
import LispNamespace.Proofs.Renaming
import LispNamespace.Proofs.Order.Bodies
import LispNamespace.Proofs.Reading.Acceptance
import LispNamespace.Proofs.Reading.Covering
import LispNamespace.Proofs.Reading.Extents
import LispNamespace.Proofs.Reading.Colours
import LispNamespace.Proofs.Reading.Modifiers
import LispNamespace.Proofs.Reading.RoundTrip
import LispNamespace.Proofs.Autoload.Bodies
import LispNamespace.Proofs.Constants
import LispNamespace.Proofs.Faults
import LispNamespace.Proofs.FinalNames
import LispNamespace.Proofs.Frame
import LispNamespace.Proofs.GrammarReferences
import LispNamespace.Proofs.GrammarRuns
import LispNamespace.Proofs.GlobalLookup
import LispNamespace.Proofs.LambdaLists
import LispNamespace.Proofs.ModeArguments
import LispNamespace.Proofs.OptionRoutes
import LispNamespace.Proofs.PlanOrder
import LispNamespace.Proofs.Written.Bodies
import LispNamespace.Proofs.Binding.Agreement
import LispNamespace.Proofs.Scoping.BindingForms
import LispNamespace.Proofs.Vectors
