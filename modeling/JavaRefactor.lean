import JavaRefactor.Main
import JavaRefactor.Proofs.CommandLine.Apply
import JavaRefactor.Proofs.Match.Completeness
import JavaRefactor.Proofs.Match.Layout
import JavaRefactor.Proofs.Pass.Filling
import JavaRefactor.Proofs.Pass.Frame
import JavaRefactor.Proofs.Pass.Maximal
import JavaRefactor.Proofs.Pass.Parentheses
import JavaRefactor.Proofs.Recipe.FixedPoint
import JavaRefactor.Proofs.Rule.Unbound
import JavaRefactor.Proofs.Rule.Predicates
import JavaRefactor.Proofs.Recipe.Changes
import JavaRefactor.Proofs.Match.Outermost
import JavaRefactor.Proofs.Match.Runs
import JavaRefactor.Proofs.Text.Weight
import JavaRefactor.Proofs.Match.Weight
import JavaRefactor.Proofs.Imports.Weight
import JavaRefactor.Proofs.Imports.Frame
import JavaRefactor.Proofs.Imports.Order
import JavaRefactor.Proofs.Imports.Clashes
import JavaRefactor.Proofs.Imports.Comments
import JavaRefactor.Proofs.Pass.Weight
import JavaRefactor.Proofs.Registry.Loading
import JavaRefactor.Proofs.Java.Statements
import JavaRefactor.Proofs.Template.Literals
import JavaRefactor.Proofs.Template.Live
import JavaRefactor.Proofs.Template.Roots
import JavaRefactor.Proofs.Rule.Weight
import JavaRefactor.Proofs.Registry.Catalog
import JavaRefactor.Proofs.Match.Constraints
import JavaRefactor.Proofs.Match.Bodies
import JavaRefactor.Proofs.Types.Variables
import JavaRefactor.Proofs.Types.Inference
import JavaRefactor.Proofs.Rule.ImportSpecs
import JavaRefactor.Proofs.Rule.PredicateTexts
import JavaRefactor.Proofs.Types.Agreement
import JavaRefactor.Proofs.Types.Acceptance
import JavaRefactor.Proofs.Registry.Recipes
import JavaRefactor.Proofs.Registry.Growth
import JavaRefactor.Proofs.Pass.Lifecycle
import JavaRefactor.Proofs.Match.Confined
import JavaRefactor.Proofs.Match.Repeated
import JavaRefactor.Proofs.Match.Trials
import JavaRefactor.Proofs.Syntax.Preorder
import JavaRefactor.Proofs.CommandLine.Split
import JavaRefactor.Proofs.Syntax.Lookup
import JavaRefactor.Proofs.Text.Lines
import JavaRefactor.Proofs.Text.Position
import JavaRefactor.Proofs.Types.Subtype
