import ObjectActions.ActionMap.Basic
import ObjectActions.ActionMap.Json
import ObjectActions.Attribute.Basic
import ObjectActions.Attribute.Record
import ObjectActions.Color
import ObjectActions.Command.Basic
import ObjectActions.Command.Json
import ObjectActions.Command.Merge
import ObjectActions.Diagnostic
import ObjectActions.Grammar.Basic
import ObjectActions.Grammar.Frontier
import ObjectActions.Grammar.Lexeme
import ObjectActions.Grammar.Tracking
import ObjectActions.Grammar.Tree
import ObjectActions.Json.Basic
import ObjectActions.Json.Writer
import ObjectActions.Notice
import ObjectActions.Number.Binary64
import ObjectActions.Number.Digits
import ObjectActions.Number.Numeral
import ObjectActions.Number.Shortest
import ObjectActions.Place
import ObjectActions.Proofs.ActionMap.FirstActions
import ObjectActions.Proofs.ActionMap.Growth
import ObjectActions.Proofs.ActionMap.RoundTrip
import ObjectActions.Proofs.ActionMap.ScriptRoundTrip
import ObjectActions.Proofs.Attribute.Range
import ObjectActions.Proofs.Attribute.RoundTrip
import ObjectActions.Proofs.Attribute.Settings
import ObjectActions.Proofs.Color.Hexadecimal
import ObjectActions.Proofs.Command.Batches
import ObjectActions.Proofs.Command.Fields
import ObjectActions.Proofs.Command.Invalid
import ObjectActions.Proofs.Command.Members
import ObjectActions.Proofs.Command.Merging
import ObjectActions.Proofs.Command.Presentation
import ObjectActions.Proofs.Command.Repeated
import ObjectActions.Proofs.Command.RoundTrip
import ObjectActions.Proofs.Command.WellFormed
import ObjectActions.Proofs.Diagnostic.Expected
import ObjectActions.Proofs.Diagnostic.Locality
import ObjectActions.Proofs.Diagnostic.Soundness
import ObjectActions.Proofs.Grammar.Attempts
import ObjectActions.Proofs.Grammar.Continuation
import ObjectActions.Proofs.Grammar.Locality
import ObjectActions.Proofs.Grammar.Provenance
import ObjectActions.Proofs.Grammar.Reach
import ObjectActions.Proofs.Grammar.Repetition
import ObjectActions.Proofs.Grammar.Spacing
import ObjectActions.Proofs.Grammar.Tracking
import ObjectActions.Proofs.Grammar.Trees
import ObjectActions.Proofs.Grammar.Values
import ObjectActions.Proofs.Json.Members
import ObjectActions.Proofs.Notice.Balance
import ObjectActions.Proofs.Notice.Evaluation
import ObjectActions.Proofs.Number.Counts
import ObjectActions.Proofs.Number.Finite
import ObjectActions.Proofs.Number.Order
import ObjectActions.Proofs.Number.Triples
import ObjectActions.Proofs.Script.Addresses
import ObjectActions.Proofs.Script.ArgumentAttempts
import ObjectActions.Proofs.Script.ArgumentEvaluation
import ObjectActions.Proofs.Script.ArgumentProvenance
import ObjectActions.Proofs.Script.ArgumentReach
import ObjectActions.Proofs.Script.ClauseAttempts
import ObjectActions.Proofs.Script.ClauseReach
import ObjectActions.Proofs.Script.ColorWords
import ObjectActions.Proofs.Script.Commas
import ObjectActions.Proofs.Script.Composition
import ObjectActions.Proofs.Script.Counts
import ObjectActions.Proofs.Script.Destinations
import ObjectActions.Proofs.Script.Dispatch
import ObjectActions.Proofs.Script.Evaluation
import ObjectActions.Proofs.Script.Explanation
import ObjectActions.Proofs.Script.Finite
import ObjectActions.Proofs.Script.FirstStatement
import ObjectActions.Proofs.Script.Form
import ObjectActions.Proofs.Script.FormReach
import ObjectActions.Proofs.Script.Journeys
import ObjectActions.Proofs.Script.Lexicon
import ObjectActions.Proofs.Script.ListFailures
import ObjectActions.Proofs.Script.ListReach
import ObjectActions.Proofs.Script.Listing
import ObjectActions.Proofs.Script.NumberListReach
import ObjectActions.Proofs.Script.NumeralAttempts
import ObjectActions.Proofs.Script.NumeralEvaluation
import ObjectActions.Proofs.Script.NumeralProvenance
import ObjectActions.Proofs.Script.NumeralReach
import ObjectActions.Proofs.Script.Numerals
import ObjectActions.Proofs.Script.Opening
import ObjectActions.Proofs.Script.Order
import ObjectActions.Proofs.Script.PlaceEvaluation
import ObjectActions.Proofs.Script.PlaceReach
import ObjectActions.Proofs.Script.Places
import ObjectActions.Proofs.Script.Provenance
import ObjectActions.Proofs.Script.Refusal
import ObjectActions.Proofs.Script.RowReach
import ObjectActions.Proofs.Script.Separators
import ObjectActions.Proofs.Script.Series
import ObjectActions.Proofs.Script.Silence
import ObjectActions.Proofs.Script.Spacing
import ObjectActions.Proofs.Script.Spelling
import ObjectActions.Proofs.Script.ToggleWords
import ObjectActions.Proofs.Script.Turns
import ObjectActions.Proofs.Script.Unrecognized
import ObjectActions.Proofs.Script.ValueReach
import ObjectActions.Proofs.Script.Vocabulary
import ObjectActions.Proofs.Script.Words
import ObjectActions.Proofs.Text.Cutting
import ObjectActions.Proofs.Text.Squeezing
import ObjectActions.Script.Clause
import ObjectActions.Script.Evaluation
import ObjectActions.Script.Numeral
import ObjectActions.Script.Place
import ObjectActions.Script.Reading
import ObjectActions.Script.Rule
import ObjectActions.Script.Statement
import ObjectActions.Text.Class
import ObjectActions.Text.Clean
import ObjectActions.Trigger
import ObjectActions.Triple
