import WellLog.Proofs.Decoding

/-!
# Records that hold contents

A scan that gets past all records has found contents in each of them, and it gets past all records
that hold contents that fit (`Decoder.exists_contents`, `Decoder.exists_entries`). The rows of a
buffer are those of the contents then, and give back the values of their columns
(`Decoder.value?_decode`).
-/

namespace WellLog

/-- There is a record of the index, it is not encrypted, and these are its bytes. -/
def Source.Holds (source : Source) (index : Nat) (bytes : List UInt8) : Prop :=
  ∃ record, source.record? index = .ok record ∧ record.flags.encrypted = false
    ∧ record.bytes = bytes

theorem Source.Holds.bytes_unique {source : Source} {index : Nat} {a b : List UInt8}
    (ha : source.Holds index a) (hb : source.Holds index b) : a = b := by
  obtain ⟨record, hr, -, rfl⟩ := ha
  obtain ⟨record', hr', -, rfl⟩ := hb
  rw [hr] at hr'
  cases hr'
  rfl

/-- The bytes are in a record, whatever the index. -/
def Source.constant (bytes : List UInt8) : Source := ⟨fun _ => .ok (.frameData bytes)⟩

theorem Source.holds_constant (bytes : List UInt8) (index : Nat) :
    (constant bytes).Holds index bytes := ⟨_, rfl, rfl, rfl⟩

variable {format : FrameFormat}

/-- The rows of the contents that have one. -/
def frameRows (contents : List (FrameContent format)) : List (FrameRow format) :=
  contents.filterMap FrameContent.row?

/-- The entries are those of records with the contents. -/
def Finds (entries : List Entry) (contents : List (FrameContent format)) : Prop :=
  entries.map Entry.row? = contents.map FrameContent.staged?

theorem Finds.cons {entry : Entry} {entries : List Entry} {content : FrameContent format}
    {contents : List (FrameContent format)} (h : entry.row? = content.staged?)
    (hs : Finds entries contents) : Finds (entry :: entries) (content :: contents) := by
  unfold Finds at *
  rw [List.map_cons, List.map_cons, h, hs]

theorem Finds.stagedRows {entries : List Entry} {contents : List (FrameContent format)}
    (h : Finds entries contents) :
    stagedRows entries = (frameRows contents).map FrameRow.staged := by
  have hf := congrArg (List.filterMap id) h
  rw [List.filterMap_map, List.filterMap_map] at hf
  rw [frameRows, List.map_filterMap]
  exact hf

theorem Finds.countP_isNone {entries : List Entry} {contents : List (FrameContent format)}
    (h : Finds entries contents) :
    entries.countP (·.row?.isNone) = contents.countP (·.row?.isNone) := by
  have hc := congrArg (List.countP Option.isNone) h
  rw [List.countP_map, List.countP_map] at hc
  refine hc.trans (List.countP_congr fun content _ => ?_)
  simp [FrameContent.staged?]

/-- The records of the indices hold the contents, and there is room for these. -/
def Source.HoldsAll (source : Source) (identCapacity : Nat) (indices : List Nat)
    (contents : List (FrameContent format)) : Prop :=
  List.Forall₂ (fun index content => source.Holds index content.bytes
    ∧ content.Fits identCapacity) indices contents

theorem Source.HoldsAll.fits {source : Source} {identCapacity : Nat} {indices : List Nat}
    {contents : List (FrameContent format)} {row : FrameRow format}
    (h : source.HoldsAll identCapacity indices contents) (hr : row ∈ frameRows contents) :
    row.Fits identCapacity := by
  obtain ⟨content, hm, hrow⟩ := List.mem_filterMap.mp hr
  clear hr
  induction h with
  | nil => simp at hm
  | cons hc _ ih =>
    rcases List.mem_cons.mp hm with rfl | hm
    · exact hc.2 row hrow
    · exact ih hm

namespace Decoder

variable {s : Settings} {source : Source} {indices : List Nat} {buffer : Buffer}
  {contents : List (FrameContent format)}

/-! ## Scans that find contents -/

theorem exists_contents {entries : List Entry}
    (h : scan s format source indices = (entries, none)) :
    ∃ contents : List (FrameContent format), Finds entries contents
      ∧ source.HoldsAll s.identCapacity indices contents := by
  have hs := scan_eq_none_iff.mp h
  clear h
  induction hs with
  | nil => exact ⟨[], rfl, .nil⟩
  | cons he hs ih =>
    obtain ⟨contents, hr, hc⟩ := ih
    obtain ⟨record, content, hi, hp, hb, hf, rfl⟩ := examine_eq_ok_iff.mp he
    exact ⟨content :: contents, hr.cons rfl, .cons ⟨⟨record, hi, hp, hb.symm⟩, hf⟩ hc⟩

theorem exists_entries (h : source.HoldsAll s.identCapacity indices contents) :
    ∃ entries, Finds entries contents ∧ scan s format source indices = (entries, none) := by
  simp only [scan_eq_none_iff]
  induction h with
  | nil => exact ⟨[], rfl, .nil⟩
  | cons hc hs ih =>
    obtain ⟨entries, hr, he⟩ := ih
    obtain ⟨⟨record, hi, hp, hb⟩, hf⟩ := hc
    have ho := examine_eq_ok_iff.mpr ⟨record, _, hi, hp, hb.symm, hf, rfl⟩
    exact ⟨_ :: entries, hr.cons rfl, .cons ho he⟩

/-! ## Calls that succeed -/

theorem exists_holdsAll_of_decode {report : Report} (hl : buffer.IsLaidOut)
    (h : (decode s format source indices buffer).result = .ok report) :
    checkBuffer s format indices buffer = none
      ∧ ∃ contents : List (FrameContent format),
        source.HoldsAll s.identCapacity indices contents := by
  obtain ⟨hc, entries, hs, -⟩ := scan_of_decode_eq_ok hl h
  obtain ⟨contents, -, hh⟩ := exists_contents hs
  exact ⟨hc, contents, hh⟩

variable (hl : buffer.IsLaidOut) (hc : checkBuffer s format indices buffer = none)
  (h : source.HoldsAll s.identCapacity indices contents)

include hl hc h

theorem result_decode :
    ∃ report, (decode s format source indices buffer).result = .ok report
      ∧ report.rowsWritten = (frameRows contents).length
      ∧ report.emptyRecords = contents.countP (·.row?.isNone) := by
  obtain ⟨entries, he, hs⟩ := exists_entries h
  obtain ⟨report, hok, hw, hn⟩ := result_of_scan hl hc hs
  rw [he.stagedRows, List.length_map] at hw
  rw [he.countP_isNone] at hn
  exact ⟨report, hok, hw, hn⟩

theorem stored?_decode_of_le {k : Nat} (hk : (frameRows contents).length ≤ k) :
    (decode s format source indices buffer).buffer.stored? k = buffer.stored? k := by
  obtain ⟨entries, he, hs⟩ := exists_entries h
  rw [stored?_decode hl hc (congrArg Prod.fst hs), he.stagedRows, List.length_map,
    if_neg (Nat.not_lt.mpr hk)]

/-- The rows of the buffer have the values of the rows that were found, column by column. -/
theorem value?_decode {row : FrameRow format} {k : Nat} (hr : (frameRows contents)[k]? = some row)
    (column : Nat) :
    (decode s format source indices buffer).buffer.value? k column
      = row.fields[column]?.map Datum.value := by
  obtain ⟨entries, he, hs⟩ := exists_entries h
  have hlayout : buffer.layout = .ofSpan (row.fields.map Datum.code) s.identCapacity := by
    rw [row.fields_codes, (checkBuffer_eq_none_iff.mp hc).2]
  have hstored : (decode s format source indices buffer).buffer.stored? k
      = some (buffer.layout.fill row.staged) := by
    have hk : k < (frameRows contents).length := (List.getElem?_eq_some_iff.mp hr).1
    rw [stored?_decode hl hc (congrArg Prod.fst hs), he.stagedRows, List.length_map, if_pos hk,
      List.getElem?_map, hr]
    rfl
  have hv := congrArg (·[column]?) (Datum.map_value?_ofFields (h.fits (List.mem_of_getElem? hr)))
  simp only [List.getElem?_map] at hv
  rw [Buffer.value?, layout_decode hl hc, hstored, hlayout]
  rcases hplace : (Layout.ofSpan (row.fields.map Datum.code) s.identCapacity).columns[column]?
    with _ | place
  · rw [hplace, Option.map_none, eq_comm, Option.map_eq_none_iff] at hv
    rw [hv]
    rfl
  · rw [hplace, Option.map_some, eq_comm, Option.map_eq_some_iff] at hv
    obtain ⟨d, hd, hv⟩ := hv
    rw [hd]
    exact hv.symm

end Decoder

end WellLog
