import MeteredStorage.Text.Pieces

namespace MeteredStorage

abbrev Path := List String

namespace Path

def ofText (text : String) : Path := (Text.pieces '/' text.toList).map String.ofList

def unclosed (path : Path) : Path := if path.getLast? = some "" then path.dropLast else path

def join (path : Path) (text : String) : Path :=
  match ofText text with
  | "" :: piece :: pieces => piece :: pieces
  | pieces => unclosed path ++ pieces

def size (path : Path) : Nat := path.foldr (fun piece n => piece.utf8ByteSize + 1 + n) 0

def hasNul (path : Path) : Bool := path.any (·.toList.contains (Char.ofNat 0))

/-- The piece leads nowhere else. -/
def stays (piece : String) : Bool := piece = "" || piece = "."

def above : List String → List Path
  | [] => []
  | piece :: outer =>
    if stays piece then above outer else (outer.dropWhile stays).reverse :: above outer

def ancestors (path : Path) : List Path := path :: above path.reverse

end Path

end MeteredStorage
