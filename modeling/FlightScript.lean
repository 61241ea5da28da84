import FlightScript.Main
import FlightScript.Proofs.Blocks
import FlightScript.Proofs.Catalog
import FlightScript.Proofs.CatalogImport
import FlightScript.Proofs.Completeness
import FlightScript.Proofs.Expressions
import FlightScript.Proofs.Formatting
import FlightScript.Proofs.Grammar
import FlightScript.Proofs.Idempotence
import FlightScript.Proofs.ImportExport
import FlightScript.Proofs.Legible
import FlightScript.Proofs.Levels
import FlightScript.Proofs.Metadata
import FlightScript.Proofs.Naming
import FlightScript.Proofs.Programs
import FlightScript.Proofs.ReadBack
import FlightScript.Proofs.Reading
import FlightScript.Proofs.Resolution
import FlightScript.Proofs.Scanning
import FlightScript.Proofs.Spelling
import FlightScript.Proofs.Statements
import FlightScript.Proofs.Validation
import FlightScript.Proofs.Markup
import FlightScript.Proofs.Acceptance
import FlightScript.Proofs.CleanUses
import FlightScript.Proofs.ExpressionText
import FlightScript.Proofs.CallFormat
import FlightScript.Proofs.Documents
import FlightScript.Proofs.Survival
import FlightScript.Proofs.Wellformed
import FlightScript.Proofs.Threading
import FlightScript.Proofs.Logging
import FlightScript.Proofs.Forgetting
import FlightScript.Proofs.Blurring
import FlightScript.Proofs.Layout
import FlightScript.Proofs.LineEnds
import FlightScript.Proofs.Commands
import FlightScript.Proofs.Bytes
import FlightScript.Proofs.Recovery
import FlightScript.Proofs.Templates
import FlightScript.Proofs.Cuts
import FlightScript.Proofs.Emission
import FlightScript.Proofs.Movement
import FlightScript.Proofs.Parts
import FlightScript.Proofs.ExpressionParts
import FlightScript.Proofs.StatementParts
import FlightScript.Proofs.ProgramParts
import FlightScript.Proofs.Descent
import FlightScript.Proofs.Extents
import FlightScript.Proofs.Directives
import FlightScript.Proofs.NameText
