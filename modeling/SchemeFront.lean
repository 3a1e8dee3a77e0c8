import SchemeFront.Decimal.Binary64
import SchemeFront.Main
import SchemeFront.Proofs.Datum.Scan
import SchemeFront.Proofs.Parse.Acceptance
import SchemeFront.Proofs.Parse.Levels
import SchemeFront.Proofs.Session.Agreement
import SchemeFront.Proofs.Session.Containment
import SchemeFront.Proofs.Session.Desugaring
import SchemeFront.Proofs.Session.Errors
import SchemeFront.Proofs.Session.Nesting
import SchemeFront.Proofs.Session.Registry
import SchemeFront.Proofs.Session.Units
import SchemeFront.Proofs.Datum.Rereading
import SchemeFront.Proofs.Datum.Truncation
import SchemeFront.Proofs.Transformer.Idempotence
import SchemeFront.Proofs.Grammar.Phrases
import SchemeFront.Proofs.Parse.Tracking
import SchemeFront.Proofs.Parse.Tracked
import SchemeFront.Proofs.Session.Prefixes
import SchemeFront.Proofs.Decimal
import SchemeFront.Proofs.Lexer.Lines
import SchemeFront.Proofs.Transformer.Spans
import SchemeFront.Proofs.Parse.Ample
import SchemeFront.Proofs.Grammar.Respelling
import SchemeFront.Proofs.Diagnostic.Underlining
import SchemeFront.Proofs.Diagnostic.Colouring
import SchemeFront.Proofs.Session.Outlines
import SchemeFront.Proofs.Session.Parameters
import SchemeFront.Proofs.CommandLine.ExitCodes
