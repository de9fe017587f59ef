import Schemata.Stock
import Schemata.Decode.Session
import Schemata.Schema.Derived
import Schemata.Schema.Tuple
import Schemata.Template.Combine
import Schemata.Proofs.Value.Entries
import Schemata.Proofs.Value.Order
import Schemata.Proofs.Schema.Parts
import Schemata.Proofs.Decode.Run
import Schemata.Proofs.Decode.Combinators
import Schemata.Proofs.Decode.Fuel
import Schemata.Proofs.Decode.Memo
import Schemata.Proofs.Decode.Assignment
import Schemata.Proofs.Decode.Gather
import Schemata.Proofs.Decode.Loss
import Schemata.Proofs.Decode.Termination
import Schemata.Proofs.Decode.Questions
import Schemata.Proofs.Decode.Records
import Schemata.Proofs.Decode.Order
import Schemata.Proofs.Decode.Claims
import Schemata.Proofs.Decode.RoundTrip
import Schemata.Proofs.Schema.Equality
import Schemata.Proofs.Schema.Erasure
import Schemata.Proofs.Value.Literal
import Schemata.Proofs.Decode.Congruence
import Schemata.Proofs.Decode.Taken
import Schemata.Proofs.Decode.Erasure
import Schemata.Proofs.Decode.Canonical
import Schemata.Proofs.Decode.Pieces
import Schemata.Proofs.Decode.Resolution
import Schemata.Proofs.Schema.Spine
import Schemata.Proofs.Schema.Canonical
import Schemata.Proofs.Schema.Built
import Schemata.Proofs.Schema.Unfolding
import Schemata.Proofs.Decode.Signatures
import Schemata.Proofs.Decode.Turns
import Schemata.Proofs.Decode.Widening
import Schemata.Proofs.Decode.Report
import Schemata.Proofs.Decode.Shape
import Schemata.Proofs.Decode.Location
import Schemata.Proofs.Decode.Duplicates
import Schemata.Proofs.Text.NumberForm
import Schemata.Proofs.Template.Match
import Schemata.Proofs.Template.Language
import Schemata.Proofs.Text.Lines
import Schemata.Proofs.Value.Lines
import Schemata.Proofs.Problem.Lines
import Schemata.Proofs.Decode.Lines
import Schemata.Proofs.Value.Orderly
import Schemata.Proofs.Decode.KeyTypes
import Schemata.Proofs.Schema.Regrouping
import Schemata.Proofs.Decode.Places
import Schemata.Proofs.Decode.Correction
import Schemata.Proofs.Decode.Dropped
import Schemata.Proofs.Decode.Extension
import Schemata.Proofs.Decode.Selection
import Schemata.Proofs.Schema.Members
import Schemata.Proofs.Schema.RecordKeys
import Schemata.Proofs.Schema.KeyQueries
import Schemata.Proofs.Schema.PartialForm
import Schemata.Proofs.Pattern.Language
import Schemata.Proofs.Template.Pattern
import Schemata.Proofs.Template.Neutral
import Schemata.Proofs.Problem.Outline
import Schemata.Proofs.Decode.Bigint
import Schemata.Proofs.Value.Notation
import Schemata.Proofs.Template.Placeholder
import Schemata.Proofs.Decode.Forcing
