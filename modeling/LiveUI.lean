import LiveUI.Session.Run
import LiveUI.Proofs.World.Convergence
import LiveUI.Proofs.World.Agreement
import LiveUI.Proofs.Template.Compilation
import LiveUI.Proofs.Value.Parts
import LiveUI.Proofs.World.Reaching
import LiveUI.Proofs.World.Confinement
import LiveUI.Proofs.World.Termination
import LiveUI.Proofs.World.Normalising
import LiveUI.Proofs.World.Handing
import LiveUI.Proofs.World.Consistency
import LiveUI.Proofs.Template.Resolution
import LiveUI.Proofs.Template.Scoping
import LiveUI.Proofs.Template.Isolation
import LiveUI.Proofs.Expr.Written
import LiveUI.Proofs.Markup.Giving
import LiveUI.Proofs.Markup.Phrases
import LiveUI.Proofs.Markup.Printing
import LiveUI.Proofs.Expr.Parentheses
import LiveUI.Proofs.Expr.SelfEquality
import LiveUI.Proofs.Expr.Snippets
import LiveUI.Proofs.Markup.Accepting
import LiveUI.Proofs.Markup.LeftHandSides
import LiveUI.Proofs.Markup.RoundTrip
import LiveUI.Proofs.Markup.Building
import LiveUI.Proofs.Template.Frames
import LiveUI.Proofs.World.Listeners
import LiveUI.Proofs.Template.Dropping
import LiveUI.Proofs.Template.Labels
import LiveUI.Proofs.World.Quiescence
import LiveUI.Proofs.World.Detachment
import LiveUI.Proofs.World.Felling
import LiveUI.Proofs.World.Rounds
import LiveUI.Proofs.Template.Lifecycle
import LiveUI.Proofs.Source.Blocks
import LiveUI.Proofs.Markup.CommentLines
import LiveUI.Proofs.Source.LineEndings
import LiveUI.Proofs.Template.Advancing
import LiveUI.Proofs.Source.Tiling
import LiveUI.Proofs.Value.Integers
import LiveUI.Proofs.Markup.Literals
import LiveUI.Proofs.Template.Arguments
import LiveUI.Proofs.Template.Registering
import LiveUI.Proofs.Template.Overriding
import LiveUI.Proofs.World.Kinship
import LiveUI.Proofs.Value.Order
import LiveUI.Proofs.Value.Sequences
import LiveUI.Proofs.Value.Texts
import LiveUI.Proofs.Markup.Patterns
import LiveUI.Proofs.Source.Slices
import LiveUI.Proofs.Markup.Disambiguation
import LiveUI.Proofs.World.Environments
import LiveUI.Proofs.Markup.WellFormed
