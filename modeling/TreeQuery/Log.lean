import TreeQuery.Text.Basic

/-!
# Log lines

Operations return what they have to report as events; a logger decides which of them are shown, and
every event has one written form.

* `Log.Level` in the order of importance, `Log.Event`, `Log.Logger`;
* `Log.Event.lines?`, `Log.Logger.lines`.
-/

namespace TreeQuery.Log

set_option autoImplicit false

/-- Levels from the most to the least important; the first and the last are only thresholds. -/
inductive Level where
  | off | critical | fatal | assertion | error | verification | warning | info | exception | debug
  | trace | all
deriving DecidableEq

namespace Level

def rank : Level → Nat
  | off => 0
  | critical => 1
  | fatal => 2
  | assertion => 3
  | error => 4
  | verification => 5
  | warning => 6
  | info => 7
  | exception => 8
  | debug => 9
  | trace => 10
  | all => 11

/-- How the level of an event is written. -/
def mark? : Level → Option Text
  | off => none
  | critical => some "[CRIT]"
  | fatal => some "[FATAL]"
  | assertion => some "[ASSRT]"
  | error => some "[ERROR]"
  | verification => some "[VERFY]"
  | warning => some "[WARN]"
  | info => some "[INFO]"
  | exception => some "[EXCPT]"
  | debug => some "[DEBUG]"
  | trace => some "[TRACE]"
  | all => none

end Level

/-- A message with its level; events of level `trace` also have a depth. -/
structure Event where
  level : Level
  text : Text
  depth : Nat := 0
deriving DecidableEq

/-- What is shown: events up to a level, and traces up to a depth. -/
structure Logger where
  threshold : Level := .warning
  depth : UInt8 := 0
deriving DecidableEq

def Logger.shows (l : Logger) (e : Event) : Bool :=
  e.level.rank ≤ l.threshold.rank && (e.level != .trace || e.depth ≤ l.depth.toNat)

/-- The text cut at its line feeds. -/
def splitLines : Text → List Text
  | [] => [[]]
  | b :: t =>
    match splitLines t with
    | [] => [[b]]
    | line :: rest => if b = 0x0a then [] :: line :: rest else (b :: line) :: rest

/-- The mark of the level in a column of seven bytes, and the text after it. -/
def withMark (mark text : Text) : Text :=
  "  " ++ mark ++ (List.replicate (7 - mark.length) 0x20 : Text) ++ " " ++ text

/-- The lines of an event, if its level is one that events can have. -/
def Event.lines? (e : Event) : Option (List Text) :=
  e.level.mark?.map fun mark => splitLines (withMark mark e.text)

/-- The lines of the events that are shown. -/
def Logger.lines (l : Logger) (events : List Event) : List Text :=
  (events.filter l.shows).flatMap fun e => e.lines?.getD []

end TreeQuery.Log
