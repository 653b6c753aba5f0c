import MeteredStorage.Text.Decimal

namespace MeteredStorage.SegmentName

def extension : List Char := ['.', 'd', 'a', 't']

def ofIndex (archive : String) (index : UInt32) : String :=
  archive ++ String.ofList ('_' :: (Decimal.padded 8 index.toNat ++ extension))

def word? (s : List Char) : Option UInt32 := do
  let digits := match s with
    | '+' :: ds => ds
    | ds => ds
  let n ← Decimal.toNat? digits
  if n < 0x100000000 then some (UInt32.ofNat n) else none

def index? (archive file : String) : Option UInt32 := do
  let s ← (archive.toList ++ ['_']).isPrefixOf? file.toList
  word? (← extension.isSuffixOf? s)

end MeteredStorage.SegmentName
