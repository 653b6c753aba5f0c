import MeteredStorage.Archive.Error
import MeteredStorage.Bytes.Basic

namespace MeteredStorage

structure PageEntry where
  hash : Int32
  version : Int32
  key : Bytes
  value : Int64
  deriving DecidableEq

structure PageListing where
  index : Int32
  next : Int64
  entries : List PageEntry

inductive Event
  | segmentLoaded (index : UInt32)
  | incompleteRemoved (index : UInt32)
  | coveredRemoved (index : UInt32)
  | sessionStarted (index : UInt32)
  | recordStored (key location : Int64)
  | sessionCompleted (index : UInt32) (items size : Nat)
  | mergeStarted (index : UInt32) (inputs : Nat) (generation : UInt64)
  | mergeCompleted (index : UInt32) (moved size removed : Nat)
  | closedInSession (index : UInt32)
  | directoryKept (error : DiskError)
  | recordsIgnored (ignored buckets : Nat)
  | mapOpened (map : String) (stored buckets perPage : Nat)
  | pageRelocated (bucket : Nat) (source target : Int64)
  | sessionNotEnded (error : ArchiveError)
  | pageOverflow (page : PageListing) (changes : Nat)
  | pageStored (bucket : Nat) (location : Int64)
  | pagesWritten (map : String) (buckets : Nat)
  | mapMergeStarted (map : String) (files : Nat)
  | mapMergeCompleted (map : String) (files relocated : Nat)
  | noMapSession (map : String)
  | mapSession (map : String) (touched buckets : Nat)
  | bucketChanges (bucket count : Nat)
  | bucketOverflows (bucket count perPage : Nat)
  | mapClosedInSession (map : String)

namespace PageEntry

def text (e : PageEntry) : String :=
  s!"\x7bhash={e.hash.toInt}, version={e.version.toInt}, key={Bytes.hex e.key}, value={e.value.toInt}\x7d"

end PageEntry

namespace PageListing

def text (p : PageListing) : String :=
  let entries := ", ".intercalate (p.entries.map PageEntry.text)
  s!"Bucket \x7b index: {p.index.toInt}, entry_count: {p.entries.length}, next_bucket_location: {p.next.toInt}, entries: [" ++ entries ++ "] \x7d"

end PageListing

namespace Event

def text : Event → String
  | segmentLoaded i => s!"DEBUG loaded data file index={i.toNat}"
  | incompleteRemoved i => s!"WARN removing incomplete data file index={i.toNat}"
  | coveredRemoved i => s!"WARN removing merged data file index={i.toNat}"
  | sessionStarted i => s!"DEBUG started write session index={i.toNat}"
  | recordStored key location => s!"TRACE stored record key={key.toInt} location={location.toInt}"
  | sessionCompleted i items size =>
      s!"DEBUG completed write session index={i.toNat} items={items} size={size}"
  | mergeStarted i inputs generation =>
      s!"DEBUG merging data files index={i.toNat} inputs={inputs} generation={generation.toNat}"
  | mergeCompleted i moved size removed =>
      s!"DEBUG merged data files index={i.toNat} moved={moved} size={size} removed={removed}"
  | closedInSession i => s!"WARN closing with active write session index={i.toNat}"
  | directoryKept e => s!"DEBUG data file directory not removed error={e.message}"
  | recordsIgnored ignored buckets =>
      s!"WARN ignored records of unknown buckets ignored={ignored} num_of_buckets={buckets}"
  | mapOpened map stored buckets perPage =>
      s!"DEBUG initialized map map={map} buckets={stored} num_of_buckets={buckets} entries_per_bucket={perPage}"
  | pageRelocated bucket source target =>
      s!"TRACE bucket relocated bucket={bucket} from={source.toInt} to={target.toInt}"
  | sessionNotEnded e => s!"WARN failed to end write session error={e.details}"
  | pageOverflow page changes => s!"WARN bucket overflow bucket={page.text} changes={changes}"
  | pageStored bucket location => s!"TRACE stored bucket bucket={bucket} location={location.toInt}"
  | pagesWritten map buckets => s!"DEBUG wrote buckets map={map} buckets={buckets}"
  | mapMergeStarted map files => s!"DEBUG merging files map={map} files={files}"
  | mapMergeCompleted map files relocated =>
      s!"DEBUG merged files map={map} files={files} relocated={relocated}"
  | noMapSession map => s!"DEBUG no active write session map={map}"
  | mapSession map touched buckets =>
      s!"DEBUG write session map={map} touched={touched} num_of_buckets={buckets}"
  | bucketChanges bucket count => s!"DEBUG session bucket bucket={bucket} count={count}"
  | bucketOverflows bucket count perPage =>
      s!"DEBUG session bucket overflows bucket={bucket} count={count} entries_per_bucket={perPage}"
  | mapClosedInSession map => s!"WARN closing with active write session map={map}"

end Event

end MeteredStorage
