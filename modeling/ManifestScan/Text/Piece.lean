import ManifestScan.Text.Literal

namespace ManifestScan

/-- What a bracket scan takes in one step: a string literal, a comment, or a single byte. -/
inductive Piece where
  | byte (b : UInt8)
  | literal (text : Bytes)
  /-- A literal that has no end takes the rest of the text. -/
  | unclosed (text : Bytes)
  | comment (text : Bytes)
deriving DecidableEq, Repr

namespace Piece

def text : Piece → Bytes
  | .byte b => [b]
  | .literal text | .unclosed text | .comment text => text

def width (piece : Piece) : Nat := piece.text.length

/-- The pieces of a text. Where `comments` is off, a `#` is a byte like any other. -/
def cut (comments : Bool) (source : Bytes) : List Piece :=
  match source with
  | [] => []
  | b :: rest =>
    if Literal.isQuote b then
      match _h : Literal.after? (b :: rest) with
      | some after =>
        .literal (b :: rest.take (rest.length - after.length)) :: cut comments after
      | none => [.unclosed (b :: rest)]
    else if comments && b == hash then
      .comment (b :: rest.takeWhile (· != lineFeed)) ::
        cut comments (rest.dropWhile (· != lineFeed))
    else .byte b :: cut comments rest
termination_by source.length
decreasing_by
  · exact Nat.lt_succ_of_le (Literal.after?_suffix _h).length_le
  · exact Nat.lt_succ_of_le (List.dropWhile_suffix _).length_le
  · exact Nat.lt_succ_self _

/-- Cutting loses nothing. -/
theorem flatMap_text_cut (comments : Bool) (source : Bytes) :
    (cut comments source).flatMap text = source := by
  fun_induction cut comments source with
  | case1 => rfl
  | case2 b rest _ after h ih =>
    obtain ⟨front, rfl⟩ := Literal.after?_suffix h
    simp only [List.flatMap_cons, ih, text, List.length_append, Nat.add_sub_cancel,
      List.take_left', List.cons_append]
  | case3 b rest => simp [text]
  | case4 b rest _ _ ih => simp [ih, text, List.takeWhile_append_dropWhile]
  | case5 b rest _ _ ih => simp [ih, text]

end Piece

def pieces (source : Bytes) : List Piece := Piece.cut false source

def codePieces (source : Bytes) : List Piece := Piece.cut true source

end ManifestScan
