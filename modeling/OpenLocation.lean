import OpenLocation.Main
import OpenLocation.Place
import OpenLocation.Session
import OpenLocation.Proofs.Code.Grammar
import OpenLocation.Proofs.Grid.PlaceValues
import OpenLocation.Proofs.Code.Cells
import OpenLocation.Proofs.Grid.Nesting
import OpenLocation.Proofs.Code.Layout
import OpenLocation.Proofs.Binary64.Near
import OpenLocation.Proofs.Area.Accuracy
import OpenLocation.Proofs.Code.Placement
import OpenLocation.Proofs.Code.Nearest
import OpenLocation.Proofs.Code.RoundTrip
import OpenLocation.Proofs.Binary64.Order
import OpenLocation.Proofs.Binary64.Powers
import OpenLocation.Proofs.Binary64.Quotients
import OpenLocation.Proofs.Location.Precision
import OpenLocation.Proofs.Location.Edge
import OpenLocation.Proofs.Code.Fullness
import OpenLocation.Proofs.Code.Ancestors
import OpenLocation.Proofs.Code.Recovery
import OpenLocation.Proofs.Code.Pole
import OpenLocation.Proofs.Code.LetterCase
import OpenLocation.Proofs.Session.Held
import OpenLocation.Proofs.Checked.Encoding
import OpenLocation.Proofs.Checked.Kind
import OpenLocation.Proofs.Checked.Reference
import OpenLocation.Proofs.Code.FirstDigits
import OpenLocation.Proofs.Code.Distance
import OpenLocation.Proofs.Code.Ending
import OpenLocation.Proofs.Text.Uppercase
import OpenLocation.Proofs.Code.SpelledOut
import OpenLocation.Proofs.Code.Clearance
import OpenLocation.Proofs.Area.WellFormed
import OpenLocation.Proofs.Code.Decoded
import OpenLocation.Proofs.Code.Axes
import OpenLocation.Proofs.Code.Excess
import OpenLocation.Proofs.Code.Shortened
import OpenLocation.Proofs.Checked.Outcome
import OpenLocation.Proofs.Code.Nearer
import OpenLocation.Proofs.Location.Wrapped
import OpenLocation.Proofs.Location.Clamped
import OpenLocation.Proofs.CommandLine.Arguments
import OpenLocation.Proofs.CommandLine.Lawful
import OpenLocation.Proofs.CommandLine.Accepted
import OpenLocation.Proofs.Json.Spelling
import OpenLocation.Proofs.Json.Codes
import OpenLocation.Proofs.Text.Quoted
import OpenLocation.Proofs.Decimal.Shortest
import OpenLocation.Proofs.Decimal.Numeral
import OpenLocation.Proofs.Json.Tokens
import OpenLocation.Proofs.Json.Lawful
import OpenLocation.Proofs.Json.Locations
import OpenLocation.Proofs.Json.Value
import OpenLocation.Proofs.Area.Polygons
import OpenLocation.Proofs.Area.Exports
import OpenLocation.Proofs.Checked.Lookup
