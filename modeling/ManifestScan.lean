import ManifestScan.Main
import ManifestScan.Proofs.Extraction.Order
import ManifestScan.Proofs.Extraction.Repeat
import ManifestScan.Proofs.Extraction.Writable
import ManifestScan.Proofs.Extraction.Outcome
import ManifestScan.Proofs.Lexing.Nesting
import ManifestScan.Proofs.Listing.Parenthesis
import ManifestScan.Proofs.Listing.Planted
import ManifestScan.Proofs.Listing.Sound
import ManifestScan.Proofs.Outline.Calls
import ManifestScan.Proofs.Printing.RoundTrip
import ManifestScan.Proofs.Extraction.ImportStatement
import ManifestScan.Proofs.Lookup.Memo
import ManifestScan.Proofs.Lookup.Return
import ManifestScan.Proofs.Run.Channels
import ManifestScan.Proofs.Text.Argument
import ManifestScan.Proofs.File.Spelling
import ManifestScan.Proofs.Lookup.Spelling
import ManifestScan.Proofs.Lexing.Context
import ManifestScan.Proofs.Text.Part
import ManifestScan.Proofs.Signature.Parameter
import ManifestScan.Proofs.Lexing.Indented
import ManifestScan.Proofs.Signature.Definition
import ManifestScan.Proofs.Signature.RoundTrip
import ManifestScan.Proofs.Signature.Statement
import ManifestScan.Proofs.Signature.Field
import ManifestScan.Proofs.Signature.ClassBody
import ManifestScan.Proofs.Signature.Fields
import ManifestScan.Proofs.Upgrade.RoundTrip
import ManifestScan.Proofs.Lookup.Steps
import ManifestScan.Proofs.Outline.Attached
import ManifestScan.Proofs.Lexing.Abreast
import ManifestScan.Proofs.Document.Numeral
import ManifestScan.Proofs.Lexing.Delimited
import ManifestScan.Proofs.Lexing.BlankLine
import ManifestScan.Proofs.Lookup.Reach
import ManifestScan.Proofs.Lookup.EntryIndex
import ManifestScan.Proofs.Run.Arguments
import ManifestScan.Proofs.Outline.BlockBody
import ManifestScan.Proofs.Lexing.LiteralEnd
import ManifestScan.Proofs.Lexing.Lexemes
import ManifestScan.Proofs.Outline.Safety
import ManifestScan.Proofs.Text.OuterFields
import ManifestScan.Proofs.Text.Assignment
