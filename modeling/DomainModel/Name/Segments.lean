import DomainModel.Name.Qualified
/-!
# Segments — a chain segment by segment

A chain is written by going through its segments, with a dot before each but the first.  It is compared with a raw text
by going through its segments and taking a piece of the text for each; it is what the text spells if each is its piece
and no piece is left.  Two chains are compared by the bytes of their segments, up to the first two that differ; where
there are none, the shorter chain comes first.
-/
namespace DomainModel

/-- The bytes of a text. -/
def Text.bytes (text : String) : List UInt8 := text.toUTF8.data.toList

namespace QualifiedName

/-- Write a segment with its number; the first has the number zero. -/
def writeSegment (text : String) (segment : Identifier × Nat) : String :=
  let text := if 0 < segment.2 then text ++ "." else text
  text ++ segment.1.text

/-- **A chain, segment by segment.** -/
def written (n : QualifiedName) : String := n.segments.zipIdx.foldl writeSegment ""

/-- Each segment is the next piece, and no piece is left. -/
def takePieces : List Identifier → List (List Char) → Bool
  | [], pieces => pieces.isEmpty
  | _ :: _, [] => false
  | i :: is, piece :: pieces => String.ofList piece == i.text && takePieces is pieces

/-- **A chain against a raw text**, segment by segment. -/
def takesPieces (n : QualifiedName) (text : String) : Bool :=
  takePieces n.segments (Text.pieces (· == '.') text.toList)

/-- **Two chains, segment against segment.** -/
def compareSegments (a b : QualifiedName) : Ordering :=
  (a.segments.zip b.segments).foldr (fun p later => (compare (Text.bytes p.1.text) (Text.bytes p.2.text)).then later)
    (compare a.size b.size)

end QualifiedName
end DomainModel
