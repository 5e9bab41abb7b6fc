/-!
# Failures of components

A component of the store answers a call or fails.  A failure has a cause, and a
cause may have a cause of its own, so failures form a chain from the outermost
wording to the innermost.  `Failure.text` writes the whole chain in one line.
-/

namespace RecordStore

/-- Why a call failed. -/
inductive Failure where
  /-- Something outside the store failed, in its own words. -/
  | reported (message : String)
  | during (activity : String) (cause : Failure)
  /-- A backend answered that it does not accept a batch. -/
  | batchRefused (backend : String)
  /-- A cache was asked to start after it was shut down. -/
  | cacheShutDown
  /-- A cache could not hand its entries to its backend. -/
  | flush (count : Nat) (cause : Failure)
  deriving DecidableEq

namespace Failure

def flushMessage (count : Nat) : String :=
  "failed to flush " ++ toString count ++ " cached entries"

/-- The outermost wording of a failure. -/
def message : Failure → String
  | reported message => message
  | during activity _ => activity
  | batchRefused backend => "backend " ++ backend ++ " rejected the batch"
  | cacheShutDown => "write-back cache is shut down"
  | flush count _ => flushMessage count

/-- The wordings of a failure and its causes, the outermost first. -/
def chain : Failure → List String
  | during activity cause => activity :: cause.chain
  | flush count cause => flushMessage count :: cause.chain
  | f => [f.message]

/-- A failure with all its causes in one line. -/
def text (f : Failure) : String :=
  ": ".intercalate f.chain

example : (flush 3 (during "while writing" (reported "io"))).text
    = "failed to flush 3 cached entries: while writing: io" := by decide

end Failure

end RecordStore
