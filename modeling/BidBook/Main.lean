import BidBook.Report

/-! # The command line

Checks the settings and the files that are named on the command line, prints a report, and ends with zero if
everything is in order. -/

namespace BidBook

def readContents (p : FilePath) : IO (Option Contents) := do
  let .ok bytes ← (IO.FS.readBinFile p.text).toBaseIO | return none
  return some (.bytes bytes.toList)

end BidBook

open BidBook in
/-- Prints the report on the settings and the named files. -/
def main (names : List String) : IO UInt32 := do
  let files ← names.mapM fun name => do return (name, .ok (← readContents (.ofText name)))
  let outcome := Report.run files
  IO.print outcome.text
  match outcome.verdict with
  | .valid => return 0
  | .invalid => return 1
  | .stopped fault =>
    IO.eprintln fault.message
    return 1
