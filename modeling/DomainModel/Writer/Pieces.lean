import DomainModel.Text.Pieces
import DomainModel.Writer
/-!
# Pieces — a text written piece by piece

A text is cut at its line ends.  Each piece behind the first starts a line; an empty piece writes nothing more, and
another stands behind the margin where nothing is on the line yet.
-/
namespace DomainModel
namespace Writer

/-- Write the margin, if nothing is on the line yet. -/
def openLine (w : Writer) : Writer :=
  if w.atLineStart then
    { w with
      output := w.output ++ String.ofList (List.replicate (w.level * indentWidth) ' ')
      atLineStart := false }
  else w

/-- A piece with its number; the first has the number zero. -/
def emitPiece (w : Writer) (piece : List Char × Nat) : Writer :=
  let w := if 0 < piece.2 then w.newline else w
  if piece.1.isEmpty then w
  else { w.openLine with output := w.openLine.output ++ String.ofList piece.1 }

/-- **A text, piece by piece.** -/
def emitPieces (w : Writer) (text : String) : Writer :=
  (Text.pieces (· == '\n') text.toList).zipIdx.foldl emitPiece w

end Writer
end DomainModel
