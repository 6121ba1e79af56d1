import Ember.Main
import Ember.Tree.Transform
import Ember.Proofs.Parser.Run
import Ember.Proofs.Grammar.Phrase
import Ember.Proofs.Grammar.Soundness
import Ember.Proofs.Grammar.Reads
import Ember.Proofs.Grammar.Completeness
import Ember.Proofs.Grammar.Program
import Ember.Proofs.Grammar.Local
import Ember.Proofs.Recovery.Statement
import Ember.Proofs.Recovery.Program
import Ember.Proofs.Recovery.Bodies
import Ember.Proofs.Recovery.Placeholders
import Ember.Proofs.Text.Decimal
import Ember.Proofs.Text.Trim
import Ember.Proofs.Canonical.Scan
import Ember.Proofs.Canonical.Lexing
import Ember.Proofs.Canonical.Phrases
import Ember.Proofs.Canonical.Program
import Ember.Proofs.Canonical.Source
import Ember.Proofs.Nesting.Height
import Ember.Proofs.Nesting.Program
import Ember.Proofs.Canonical.Reparse
import Ember.Proofs.Tree.Shape
import Ember.Proofs.Recovery.Source
import Ember.Proofs.Eval.Discipline
import Ember.Proofs.Eval.Data
import Ember.Proofs.Eval.Depth
import Ember.Proofs.Eval.Faults
import Ember.Proofs.Eval.Moment
import Ember.Proofs.Eval.Scopes
import Ember.Proofs.Eval.Change
import Ember.Proofs.Eval.Closed
import Ember.Proofs.Eval.Stepwise
import Ember.Proofs.Eval.Balance
import Ember.Proofs.Eval.Frame
import Ember.Proofs.Eval.Limit
import Ember.Proofs.Eval.Signals
import Ember.Proofs.Eval.Bindings
import Ember.Proofs.Eval.Pairing
import Ember.Proofs.Eval.Coupling
import Ember.Proofs.Eval.Unmentioned
import Ember.Proofs.Tree.Tokens
import Ember.Proofs.Eval.Bare
import Ember.Proofs.Eval.Tokens
import Ember.Proofs.Canonical.Meaning
import Ember.Proofs.Lexing.Spans
import Ember.Proofs.Lexing.LongestMatch
import Ember.Proofs.Layout.Lexing
import Ember.Proofs.Tree.Unplaced
import Ember.Proofs.Layout.Parser
import Ember.Proofs.Layout.Meaning
import Ember.Proofs.Eval.Printing
import Ember.Proofs.Session.Lines
import Ember.Proofs.Recovery.Balanced
import Ember.Proofs.Session.Program
import Ember.Proofs.Recovery.Single
import Ember.Proofs.Cursor.Grammar
import Ember.Proofs.Cursor.Standing
import Ember.Proofs.Cursor.Agreement
import Ember.Proofs.Cursor.Recovery
import Ember.Proofs.Cursor.Program
import Ember.Proofs.Identity.Inventory
import Ember.Proofs.Identity.Session
import Ember.Proofs.Identity.Reading
import Ember.Proofs.Identity.Soundness
import Ember.Proofs.Session.Blank
import Ember.Proofs.Lexing.Positions
import Ember.Proofs.Lexing.Matcher
import Ember.Proofs.Lexing.Scanner
import Ember.Proofs.Value.Inserted
import Ember.Proofs.Value.Slots
import Ember.Proofs.Value.Alike
import Ember.Proofs.Value.Equal
import Ember.Proofs.Eval.Arithmetic
import Ember.Proofs.Eval.Order
import Ember.Proofs.Eval.Output
import Ember.Proofs.Tree.Transform
import Ember.Proofs.Lexing.Stream
import Ember.Proofs.Eval.History
import Ember.Proofs.Eval.Countdown
import Ember.Proofs.Eval.Arrays
import Ember.Proofs.Text.Numeral
import Ember.Proofs.Command.Options
import Ember.Proofs.Cursor.Onward
import Ember.Proofs.Cursor.Contract
