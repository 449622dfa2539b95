import Lox.Decimal.ReadBack
import Lox.Execution.Rounds
import Lox.Main
import Lox.Segment.Cover
import Lox.Proofs.Derivation.Expression
import Lox.Proofs.Derivation.Statement
import Lox.Proofs.Parsing.Reply
import Lox.Proofs.Parsing.Written
import Lox.Proofs.Parsing.Accepted
import Lox.Proofs.Scoping.Resolution
import Lox.Proofs.Execution.SideBySide
import Lox.Proofs.Execution.Course
import Lox.Proofs.Scoping.Run
import Lox.Proofs.Scoping.Agreement
import Lox.Proofs.Scoping.Lexical
import Lox.Proofs.Occurrences.Roles
import Lox.Proofs.Occurrences.Written
import Lox.Proofs.Relabeling.Trees
import Lox.Proofs.Seam.Scanning
import Lox.Proofs.Scanning.Lines
import Lox.Proofs.Relabeling.Runs
import Lox.Proofs.Seam.Joined
import Lox.Proofs.Effects.Changes
import Lox.Proofs.Effects.Mentioned
import Lox.Proofs.RuntimeErrors.Faults
import Lox.Proofs.RuntimeErrors.Traced
import Lox.Proofs.Nesting.Depth
import Lox.Proofs.Scanning.Segmentation
import Lox.Proofs.Diagnosis.Sentences
import Lox.Proofs.Diagnosis.Exact
import Lox.Proofs.Diagnosis.Parsers
import Lox.Proofs.Diagnosis.FirstFault
import Lox.Proofs.Recovery.Restart
import Lox.Proofs.Output.Unseen
import Lox.Proofs.Output.Limited
import Lox.Proofs.Loops.Spaced
import Lox.Proofs.Loops.Direct
import Lox.Proofs.Scanning.Separated
import Lox.Proofs.Outline.Trees
import Lox.Proofs.Outline.Parsers
import Lox.Proofs.Outline.Programs
import Lox.Proofs.Diagnosis.ErrorLines
import Lox.Proofs.Conversation.Lines
import Lox.Proofs.Conversation.Session
import Lox.Proofs.History.Frames
import Lox.Proofs.History.Lookup
import Lox.Proofs.Recovery.Rounds
import Lox.Proofs.Recovery.Prints
import Lox.Proofs.Recovery.Braces
import Lox.Proofs.Recovery.MissingExpression
import Lox.Proofs.Numbers.Bits
import Lox.Proofs.Numbers.Notation
import Lox.Proofs.Numbers.ReadBack
import Lox.Proofs.Relabeling.Names
import Lox.Proofs.Brackets.Text
import Lox.Proofs.Brackets.Legible
import Lox.Proofs.Brackets.Parsed
