import Gloss.Text.Basic

/-!
# Log records

What happens during a scan is told in records. Every record names a logger at or below one
root, and all are meant for debugging.
-/

namespace Gloss

/-- One line of the log. -/
structure LogRecord where
  /-- The logger. -/
  logger : Text
  /-- What happened. -/
  message : Text
  deriving DecidableEq, Repr

namespace LogRecord

/-- The logger that all others are below. -/
def root : Text := "inlinemath".toList

/-- A record of the root logger. -/
def ofRoot (message : Text) : LogRecord := ⟨root, message⟩

/-- The full name of a logger: the root and names below it stay, any other name is put below
the root. -/
def loggerName (name : Text) : Text :=
  if name = root || (Text.after? (root ++ ['.']) name).isSome then name else root ++ '.' :: name

/-- A record with its logger and level, between bars. -/
def toText (r : LogRecord) : Text := r.logger ++ "|DEBUG|".toList ++ r.message

end LogRecord

end Gloss
