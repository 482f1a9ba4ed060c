import ManifestScan.Proofs.Lexing.Chain
import ManifestScan.Registration.Textual

namespace ManifestScan

structure Entry where
  gap : Bytes
  callee : Bytes
  arguments : Bytes

namespace Entry

def call (entry : Entry) : Bytes :=
  entry.callee ++ leftParen :: (entry.arguments ++ [rightParen])

def text (entry : Entry) : Bytes := entry.gap ++ entry.call

/-- The calls as registrations, when the first text starts at the given offset. -/
def registrations (offset : Nat) : List Entry → List Registration
  | [] => []
  | entry :: others =>
    ⟨entry.callee, offset + entry.gap.length, entry.call⟩ ::
      registrations (offset + entry.text.length) others

/-- Calls with a comma and a space in front of each but the first. -/
def separated : List (Bytes × Bytes) → List Entry
  | [] => []
  | (callee, arguments) :: others =>
    ⟨[], callee, arguments⟩ ::
      others.map fun (callee, arguments) => ⟨[comma, space], callee, arguments⟩

end Entry

structure Listing where
  preamble : Bytes
  function : Bytes
  entries : List Entry
  lastGap : Bytes

namespace Listing

def header (listing : Listing) : Bytes := ascii "def " ++ listing.function ++ ascii "():"

def opening : Bytes := ascii "    return Package(plugins=["

/-- The lines below the header, without the last line end. -/
def body (listing : Listing) : Bytes :=
  opening ++ (listing.entries.flatMap Entry.text ++ listing.lastGap ++ ascii "])")

def source (listing : Listing) : Bytes :=
  listing.preamble ++ (listing.header ++ lineFeed :: (listing.body ++ [lineFeed]))

def bodyStart (listing : Listing) : Nat :=
  listing.preamble.length + listing.header.length + 1

def registrations (listing : Listing) : List Registration :=
  Entry.registrations (listing.bodyStart + opening.length) listing.entries

end Listing

end ManifestScan
