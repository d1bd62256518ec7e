import Mathlib.Data.List.Basic

/-!
# Reading runs of records

A record array is the list of its records.  `readRecords` is the range read
behind the header store: it shortens the range at the end of the array and
reports a range without any record as an error.
-/

namespace Shulcrum
namespace RecordArray

universe u

variable {α : Type u}

/-- The message of a range read that covers no record. -/
def outOfRangeMsg : String := "readRecords specification is out of range"

/--
`DBRecordArray::readRecords`: at most `count` records from `recNumStart` on, and
the error string, which is empty on success.
-/
def readRecords (recs : List α) (recNumStart count : Nat) : List α × String :=
  let count := if recs.length > recNumStart then min count (recs.length - recNumStart) else 0
  if count = 0 then ([], outOfRangeMsg)
  else ((recs.drop recNumStart).take count, "")

theorem readRecords_zero (recs : List α) (start : Nat) :
    readRecords recs start 0 = ([], outOfRangeMsg) := by
  simp [readRecords]

theorem readRecords_of_le {recs : List α} {start count : Nat} (hpos : 0 < count)
    (h : start + count ≤ recs.length) :
    readRecords recs start count = ((recs.drop start).take count, "") := by
  have hlt : recs.length > start := by omega
  have hmin : min count (recs.length - start) = count := by omega
  simp only [readRecords, if_pos hlt, hmin]
  rw [if_neg (by omega)]

end RecordArray
end Shulcrum
