import ChoiceLogic.Expression.Outline
import ChoiceLogic.Json.Decode
import ChoiceLogic.Main
import ChoiceLogic.Proofs.Combine.Flattening
import ChoiceLogic.Workbench
import ChoiceLogic.Proofs.Markup.Balance
import ChoiceLogic.Proofs.Markup.Segments
import ChoiceLogic.Proofs.Reading.Legible
import ChoiceLogic.Proofs.Reading.Rereadable
import ChoiceLogic.Proofs.Grammar.Layout
import ChoiceLogic.Proofs.Grammar.Reading
import ChoiceLogic.Proofs.Markup.Recut
import ChoiceLogic.Proofs.Markup.Found
import ChoiceLogic.Proofs.Markup.Pairs
import ChoiceLogic.Proofs.Markup.Width
import ChoiceLogic.Proofs.Reading.Burden
import ChoiceLogic.Proofs.Reading.Idempotence
import ChoiceLogic.Proofs.Reading.Levels
import ChoiceLogic.Proofs.Reading.DepthLimit
import ChoiceLogic.Proofs.Reading.Groups
import ChoiceLogic.Proofs.Reading.Mixing
import ChoiceLogic.Proofs.Text.ByteOrder
import ChoiceLogic.Proofs.Combine.Nodes
import ChoiceLogic.Proofs.Combine.Order
import ChoiceLogic.Proofs.Combine.Repeats
import ChoiceLogic.Proofs.Json.Encoding
import ChoiceLogic.Proofs.Reading.SameText
import ChoiceLogic.Proofs.Reading.Leaves
import ChoiceLogic.Proofs.Reading.Careful
import ChoiceLogic.Proofs.Reading.Keys
import ChoiceLogic.Proofs.Meaning.Plain
import ChoiceLogic.Proofs.Meaning.Truth
import ChoiceLogic.Proofs.Meaning.Mentions
import ChoiceLogic.Proofs.Combine.FixedPoints
import ChoiceLogic.Proofs.Reading.OneOperator
import ChoiceLogic.Proofs.Markup.Closed
import ChoiceLogic.Proofs.Reading.Bounds
import ChoiceLogic.Proofs.Reading.Repeating
import ChoiceLogic.Proofs.Markup.Validation
import ChoiceLogic.Proofs.Reading.Remarks
import ChoiceLogic.Proofs.Markup.Tiling
