import MiniCompiler.Json
import MiniCompiler.Number.Rounding

/-!
# Executions of a command

What a command said, how it ended and how long it took. Two executions of the same command are
compared by all but the time. How a difference of texts is shown is left open: `TextDiff` says only
that nothing is shown of equal texts.
-/

namespace MiniCompiler.Golden

/-- What is recorded of a command. The duration is in nanoseconds. -/
structure Execution where
  stdout : String := ""
  stderr : String := ""
  exitCode : Int := 0
  duration : Int := 0
  timedOut : Bool := false
  deriving DecidableEq, Repr, Inhabited

/-- A way to show how two texts differ. It shows nothing exactly if they are equal. -/
structure TextDiff where
  text : (want got : String) → String
  text_eq_empty_iff : ∀ want got, text want got = "" ↔ want = got

namespace Execution

def toJson (e : Execution) : Json :=
  .object [("stdout", .string e.stdout), ("stderr", .string e.stderr),
    ("exitCode", .ofInt e.exitCode), ("duration", .ofInt e.duration),
    ("timed_out", .bool e.timedOut)]

/-- The difference of two outputs under a heading, if there is one. -/
def outputDiff (d : TextDiff) (stage channel want got : String) : String :=
  let diff := d.text want got
  if diff = "" then "" else stage ++ " " ++ channel ++ " mismatch (-want +got):\n" ++ diff

/-- How an execution differs from the one that is wanted. That it timed out is a difference even if
    the other one did so too. -/
def compare (d : TextDiff) (stage : String) (want got : Execution) : String :=
  (if want.exitCode = got.exitCode then ""
   else stage ++ ": exit code " ++ toString got.exitCode ++ ", want " ++ toString want.exitCode ++
     "\n") ++
    (if got.timedOut then stage ++ ": timed out\n" else "") ++
    outputDiff d stage "STDOUT" want.stdout got.stdout ++
    outputDiff d stage "STDERR" want.stderr got.stderr

end Execution

/-- A number of hundredths with a point before the last two digits. -/
def hundredthsText (n : Nat) : String :=
  toString (n / 100) ++ "." ++ toString (n / 10 % 10) ++ toString (n % 10)

/-- A duration in nanoseconds: in microseconds below one millisecond, else in milliseconds with two
    decimals. Parts of a microsecond are dropped. -/
def durationText (nanos : Int) : String :=
  let micros := nanos.tdiv 1000
  if nanos < 1000000 then toString micros ++ "µs"
  else
    let millis := ((Number.Fraction.mk micros.toNat 1).rounded.dividedBy 1000).rounded
    hundredthsText (millis.times 100).round ++ "ms"

end MiniCompiler.Golden
