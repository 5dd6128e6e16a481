import GraphLint.Listing
import GraphLint.Main
import GraphLint.Proofs.Command.Status
import GraphLint.Proofs.Deprecation.Exact
import GraphLint.Proofs.Deprecation.Faultless
import GraphLint.Proofs.Deprecation.Growth
import GraphLint.Proofs.Names.Unique
import GraphLint.Proofs.Position.Typing
import GraphLint.Proofs.TypeSystem.Gathering
import GraphLint.Proofs.Validation.Filtering
import GraphLint.Proofs.TypeSystem.Discarding
import GraphLint.Proofs.TypeSystem.Enlarging
import GraphLint.Proofs.Run.Order
import GraphLint.Proofs.Validation.Layout
import GraphLint.Proofs.TypeSystem.Kinds
import GraphLint.Proofs.TypeSystem.Reordering
import GraphLint.Proofs.TypeSystem.Roots
import GraphLint.Proofs.Text.Lines
import GraphLint.Proofs.Validation.Pointing
import GraphLint.Proofs.Config.Grammar
import GraphLint.Proofs.Report.Story
import GraphLint.Proofs.Types.Reading
import GraphLint.Proofs.Walk.Skipping
import GraphLint.Proofs.Files.Plain
