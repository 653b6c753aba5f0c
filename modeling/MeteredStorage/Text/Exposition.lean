import MeteredStorage.Text.Pieces

namespace MeteredStorage

inductive MetricKind
  | counter
  | gauge

structure Metric where
  name : String
  help : String
  kind : MetricKind
  value : Int

namespace MetricKind

def text : MetricKind → String
  | counter => "counter"
  | gauge => "gauge"

def suffix : MetricKind → String
  | counter => "_total"
  | gauge => ""

end MetricKind

namespace Metric

def text (m : Metric) : String :=
  s!"# HELP {m.name} {m.help}.\n# TYPE {m.name} {m.kind.text}\n{m.name}{m.kind.suffix} {m.value}\n"

end Metric

namespace Exposition

def text (metrics : List Metric) : String := String.join (metrics.map Metric.text) ++ "# EOF\n"

def withoutReturn (line : List Char) : List Char :=
  if line.getLast? = some '\r' then line.dropLast else line

def lines (text : String) : List (List Char) :=
  (Text.pieces '\n' text.toList).dropLast.map withoutReturn

def samples (metrics : List Metric) : List String :=
  ((lines (text metrics)).filter fun line => line.head? ≠ some '#').map String.ofList

end Exposition

end MeteredStorage
