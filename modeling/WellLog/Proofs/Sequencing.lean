import WellLog.Proofs.Tallying

/-!
# Row indices against what was expected

Which row index is expected for a row is the one behind the row before it, or counts on from the
first one, as the policy has it (`Settings.expectedAt`). A call that succeeds reports just this of
the rows that it found: how many there were, what would be expected next, and the rows that have
another index than was expected, in order (`Decoder.accountsFor_of_decode`).
-/

namespace WellLog

/-- The row index that is expected for the `k`-th row when these have been found. There is none
behind the largest that a word can hold. -/
def Settings.expectedAt (s : Settings) (found : List Nat) : Nat → Nat
  | 0 => s.firstRowIndex.toNat
  | k + 1 =>
    match s.sequencePolicy with
    | .reset => found.getD k 0 + 1
    | .keepExpecting => min (s.firstRowIndex.toNat + (k + 1)) 0xffffffff

/-- The rows that have another index than was expected, each with the index of its record. -/
def Settings.deviations (s : Settings) (rows : List (Nat × Nat)) : List (Nat × Nat × Nat) :=
  rows.zipIdx.filterMap fun (row, k) =>
    if row.2 = s.expectedAt (rows.map Prod.snd) k then none
    else some (row.1, s.expectedAt (rows.map Prod.snd) k, row.2)

def Anomaly.numbers (a : Anomaly) : Nat × Nat × Nat := (a.record, a.expected.toNat, a.found.toNat)

/-- The report says what there is to say of so many records, of which these have a row. -/
structure Report.AccountsFor (s : Settings) (records : Nat) (rows : List (Nat × Nat))
    (r : Report) : Prop where
  rowsWritten : r.rowsWritten = rows.length
  emptyRecords : rows.length + r.emptyRecords = records
  nextExpected : r.nextExpected.toNat = s.expectedAt (rows.map Prod.snd) rows.length
  anomalies : r.anomalies.map Anomaly.numbers = s.deviations rows

variable {s : Settings}

/-! ## One more row -/

/-- What is expected for a row has been settled by the rows before it. -/
theorem Settings.expectedAt_append {found : List Nat} {k : Nat} (h : k ≤ found.length)
    (more : List Nat) : s.expectedAt (found ++ more) k = s.expectedAt found k := by
  cases k with
  | zero => rfl
  | succ k => simp only [expectedAt, List.getD_append _ _ _ _ h]

theorem Settings.deviations_concat (rows : List (Nat × Nat)) (record found : Nat) :
    s.deviations (rows ++ [(record, found)]) = s.deviations rows
      ++ if found = s.expectedAt (rows.map Prod.snd) rows.length then []
        else [(record, s.expectedAt (rows.map Prod.snd) rows.length, found)] := by
  have hle : rows.length ≤ (rows.map Prod.snd).length := Nat.le_of_eq (List.length_map _).symm
  rw [deviations, List.zipIdx_append, List.filterMap_append, List.map_append]
  congr 1
  · refine List.filterMap_congr fun ⟨row, k⟩ hk => ?_
    have hk : k ≤ (rows.map Prod.snd).length := by
      have := (List.mem_zipIdx hk).2.1
      omega
    simp only [s.expectedAt_append hk]
  · simp only [List.zipIdx_singleton, Nat.zero_add, List.filterMap_cons, List.filterMap_nil,
      s.expectedAt_append hle]
    split_ifs <;> rfl

/-- What the policy expects next is what is expected behind the row. -/
theorem SequencePolicy.toNat_next {found : List Nat} {expected index : UInt32}
    (h : expected.toNat = s.expectedAt found found.length) (hi : index.toNat < 0xffffffff) :
    (s.sequencePolicy.next expected index).toNat
      = s.expectedAt (found ++ [index.toNat]) (found.length + 1) := by
  have hfirst := s.firstRowIndex.toNat_lt
  rcases hp : s.sequencePolicy with _ | _
  · simp only [next, toNat_nextIndex, Settings.expectedAt, hp, List.getD_append_right _ _ _ _
      (Nat.le_refl _), Nat.sub_self, List.getD_cons_zero]
    omega
  · simp only [next, toNat_nextIndex, h]
    rcases found.length with _ | k
    · simp only [Settings.expectedAt, hp]
    · simp only [Settings.expectedAt, hp]
      omega

namespace Report

variable {records : Nat} {rows : List (Nat × Nat)} {r : Report}

theorem accountsFor_start : (start s).AccountsFor s 0 [] := ⟨rfl, rfl, rfl, rfl⟩

theorem AccountsFor.addEmpty (h : r.AccountsFor s records rows) :
    r.addEmpty.AccountsFor s (records + 1) rows :=
  ⟨h.rowsWritten, congrArg (· + 1) h.emptyRecords, h.nextExpected, h.anomalies⟩

theorem AccountsFor.numbers_anomaly? (h : r.AccountsFor s records rows) (record : Nat)
    (found : UInt32) :
    (r.anomaly? record found).toList.map Anomaly.numbers
      = if found.toNat = s.expectedAt (rows.map Prod.snd) rows.length then []
        else [(record, s.expectedAt (rows.map Prod.snd) rows.length, found.toNat)] := by
  simp only [anomaly?, ← UInt32.toNat_inj, h.nextExpected]
  split_ifs
  · rfl
  · simp only [Option.toList_some, List.map_cons, List.map_nil, Anomaly.numbers, h.nextExpected]

theorem AccountsFor.addRow (h : r.AccountsFor s records rows) (record : Nat) {found : UInt32}
    (hf : found.toNat < 0xffffffff) :
    (r.addRow s.sequencePolicy record found).AccountsFor s (records + 1)
      (rows ++ [(record, found.toNat)]) := by
  have hn : r.nextExpected.toNat
      = s.expectedAt (rows.map Prod.snd) (rows.map Prod.snd).length := by
    rw [List.length_map, h.nextExpected]
  refine ⟨?_, ?_, ?_, ?_⟩
  · rw [List.length_append, ← h.rowsWritten]
    rfl
  · rw [List.length_append, List.length_singleton, Nat.add_right_comm]
    exact congrArg (· + 1) h.emptyRecords
  · rw [List.map_append, List.length_append, ← List.length_map (f := Prod.snd)]
    exact SequencePolicy.toNat_next hn hf
  · rw [s.deviations_concat, ← h.anomalies, ← h.numbers_anomaly?, ← List.map_append]
    rfl

/-! ## All rows -/

/-- The records that have a row index, each index as a number. -/
def numberedRows (records : List (Nat × Option UInt32)) : List (Nat × Nat) :=
  records.filterMap fun record => record.2.map fun found => (record.1, found.toNat)

theorem accountsFor_tally {records : List (Nat × Option UInt32)}
    (h : ∀ row ∈ numberedRows records, row.2 < 0xffffffff) :
    ((start s).tally s.sequencePolicy records).AccountsFor s records.length
      (numberedRows records) := by
  induction records using List.reverseRecOn with
  | nil => exact accountsFor_start
  | append_singleton records record ih =>
    simp only [numberedRows, List.filterMap_append, List.forall_mem_append] at h ih ⊢
    rw [tally_append, List.length_append]
    obtain ⟨index, _ | found⟩ := record
    · rw [List.filterMap_cons_none rfl, List.filterMap_nil, List.append_nil]
      exact (ih h.1).addEmpty
    · exact (ih h.1).addRow index (h.2 _ (List.mem_singleton.mpr rfl))

end Report

/-! ## Calls -/

variable {format : FrameFormat}

/-- The row indices in the contents, each with the index of its record. -/
def rowIndices (indices : List Nat) (contents : List (FrameContent format)) : List (Nat × Nat) :=
  (indices.zip contents).filterMap fun (index, content) =>
    content.row?.map fun row => (index, row.rowIndex.value)

theorem rowIndices_lt {indices : List Nat} {contents : List (FrameContent format)} :
    ∀ row ∈ rowIndices indices contents, row.2 < 0x40000000 := by
  intro row h
  obtain ⟨⟨index, content⟩, -, hrow⟩ := List.mem_filterMap.mp h
  obtain ⟨frameRow, -, rfl⟩ := Option.map_eq_some_iff.mp hrow
  exact frameRow.rowIndex.value_lt

theorem numberedRows_zipWith (indices : List Nat) (contents : List (FrameContent format)) :
    Report.numberedRows (List.zipWith FrameContent.numbered indices contents)
      = rowIndices indices contents := by
  rw [Report.numberedRows, ← List.map_uncurry_zip_eq_zipWith, List.filterMap_map, rowIndices]
  refine List.filterMap_congr fun ⟨index, content⟩ _ => ?_
  rcases hr : content.row? with _ | row
  · simp [FrameContent.numbered, FrameContent.staged?, hr]
  · have hv : (UInt32.ofNat row.rowIndex.value).toNat = row.rowIndex.value := by
      have := row.rowIndex.value_lt
      rw [UInt32.toNat_ofNat', Nat.mod_eq_of_lt (by omega)]
    simp [FrameContent.numbered, FrameContent.staged?, FrameRow.staged, hr, hv]

/-- The row indices are those in the records, and small enough for each to have one behind it. -/
theorem Decoder.accountsFor_of_decode (s : Settings) (format : FrameFormat) (source : Source)
    {indices : List Nat} {buffer : Buffer} {report : Report} (hl : buffer.IsLaidOut)
    (h : (decode s format source indices buffer).result = .ok report) :
    ∃ contents : List (FrameContent format), source.HoldsAll s.identCapacity indices contents
      ∧ report.AccountsFor s indices.length (rowIndices indices contents)
      ∧ ∀ row ∈ rowIndices indices contents, row.2 < 0x40000000 := by
  obtain ⟨hc, contents, hh⟩ := exists_holdsAll_of_decode hl h
  rw [result_of_holdsAll hl hc hh, Except.ok.injEq] at h
  have hrows := numberedRows_zipWith indices contents
  have hlen : (List.zipWith FrameContent.numbered indices contents).length = indices.length := by
    rw [List.length_zipWith, ← hh.length_eq, Nat.min_self]
  refine ⟨contents, hh, ?_, rowIndices_lt⟩
  rw [← h, ← hrows, ← hlen]
  refine Report.accountsFor_tally fun row hrow => ?_
  rw [hrows] at hrow
  exact Nat.lt_trans (rowIndices_lt row hrow) (by decide)

/-- The first row is expected to have the largest row index of all, and so are the others, as there
is none behind it. The empty record between them is not expected to have any. -/
theorem Decoder.accountsFor_of_decode_largest :
    ∃ rows : List (Nat × Nat), rows.length = 3
      ∧ Settings.expectedAt ⟨255, .keepExpecting, 0xffffffff, true⟩ (rows.map Prod.snd) 3
        = 0xffffffff
      ∧ Settings.deviations ⟨255, .keepExpecting, 0xffffffff, true⟩ rows
        = [(0, 0xffffffff, 5), (2, 0xffffffff, 6), (0, 0xffffffff, 5)] := by
  have hok : (decode ⟨255, .keepExpecting, 0xffffffff, true⟩ (.single .uvari)
      (Store.ofList [.frameData [1, 0, 1, 70, 5, 9], .frameData [1, 0, 1, 70],
        .frameData [1, 0, 1, 70, 6, 9]]) [0, 1, 2, 0]
      (bufferFor ⟨255, .keepExpecting, 0xffffffff, true⟩ (.single .uvari) 4)).result
    = .ok ⟨3, 1, 0xffffffff, [⟨0, 0xffffffff, 5⟩, ⟨2, 0xffffffff, 6⟩, ⟨0, 0xffffffff, 5⟩]⟩ := rfl
  obtain ⟨contents, -, h, -⟩ := accountsFor_of_decode _ _ _ (Buffer.isLaidOut_blank ..) hok
  have hm : (rowIndices [0, 1, 2, 0] contents).length = 3 := h.rowsWritten.symm
  have hn := h.nextExpected
  rw [hm] at hn
  exact ⟨_, hm, hn.symm, h.anomalies.symm⟩

end WellLog
