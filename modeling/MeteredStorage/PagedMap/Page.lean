import MeteredStorage.Event
import MeteredStorage.PagedMap.Dimensions
import MeteredStorage.PagedMap.Key

namespace MeteredStorage.Page

open BigEndian

def fresh (bucket : Nat) : Bytes := Bytes.overlay 0 (encode 4 bucket) (Bytes.zeros pageSize)

def index (page : Bytes) : Int32 := toInt32 (page.take 4)

def storedCount (page : Bytes) : Int32 := toInt32 (Bytes.slice 4 4 page)

def count (f : PageForm) (page : Bytes) : Nat := min (storedCount page).toInt.toNat f.perPage

def next (page : Bytes) : Int64 := toInt64 (Bytes.slice 8 8 page)

def validate (f : PageForm) (bucket : Nat) (page : Bytes) : Except MapError Unit :=
  if (index page).toInt ≠ bucket then .error (.pageMismatch bucket (index page))
  else if (storedCount page).toInt < 0 ∨ f.perPage < (storedCount page).toInt then
    .error (.pageCorrupt bucket (storedCount page))
  else .ok ()

def entryOf (f : PageForm) (bs : Bytes) : PageEntry where
  hash := toInt32 (bs.take 4)
  version := toInt32 (Bytes.slice 4 4 bs)
  key := Bytes.slice 8 f.keySize bs
  value := toInt64 (Bytes.slice f.valueOffset 8 bs)

def entriesOf (f : PageForm) : Nat → Bytes → List PageEntry
  | 0, _ => []
  | n + 1, bs => entryOf f (bs.take f.entrySize) :: entriesOf f n (bs.drop f.entrySize)

def entries (f : PageForm) (page : Bytes) : List PageEntry :=
  entriesOf f (count f page) (page.drop PageForm.headerSize)

def listing (f : PageForm) (page : Bytes) : PageListing := ⟨index page, next page, entries f page⟩

variable {K : Type} [FixedKey K]

def isFor (hash : Int32) (key : K) (e : PageEntry) : Bool :=
  e.hash == hash && FixedKey.matches? key e.version e.key

def value? (f : PageForm) (hash : Int32) (key : K) (page : Bytes) : Option Int64 :=
  ((entries f page).find? (isFor hash key)).map PageEntry.value

def addEntry (f : PageForm) (hash : Int32) (key : K) (value : Int64) (page : Bytes) : Bytes :=
  let n := count f page
  let entry := ofInt32 hash ++ ofInt32 (FixedKey.version K) ++ FixedKey.write key ++ ofInt64 value
  Bytes.overlay 4 (encode 4 (n + 1)) (Bytes.overlay (f.entryOffset n) entry page)

def put (f : PageForm) (hash : Int32) (key : K) (value : Int64) (page : Bytes) :
    Except MapError Bytes :=
  match (entries f page).findIdx? (isFor hash key) with
  | some i => .ok (Bytes.overlay (f.entryOffset i + f.valueOffset) (ofInt64 value) page)
  | none =>
    if f.perPage ≤ count f page then .error (.pageFull (index page))
    else .ok (addEntry f hash key value page)

end MeteredStorage.Page
