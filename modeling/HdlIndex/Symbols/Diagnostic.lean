import HdlIndex.Text.Quoted
/-! Remarks on a text that could be understood only in part. -/
namespace HdlIndex

/-- What was left out of a table, or filled up in it. -/
inductive Diagnostic where
  /-- Reading stopped at a size limit before the end of the text. -/
  | truncated (offset size : Nat)
  /-- A declaration list ended before every name had its attributes. -/
  | ragged (category : String) (padded : Nat)
  /-- Generate conditions were still in force at the end. -/
  | unclosedGenerate (depth : Nat)
deriving DecidableEq, Repr

def Diagnostic.message : Diagnostic → String
  | truncated offset size =>
    "scanning stopped at byte " ++ toString offset ++ " of " ++ toString size
  | ragged category padded =>
    toString padded ++ " entries in " ++ Text.quote category ++ " are missing attributes"
  | unclosedGenerate depth => toString depth ++ " generate conditions were never closed"

end HdlIndex
