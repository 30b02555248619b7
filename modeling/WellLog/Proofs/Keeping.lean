import WellLog.Proofs.Locating
import WellLog.Proofs.Slicing

/-!
# A store keeps its records

A record that is added to a store gets the next index, and all others keep the one that they have,
however many more are added (`Store.record?_of_pushAll?`). So a store has the records that it was
made of first and then those that were added, in the order in which they came (`Store.Has`).

What is taken out of it are the records of all indices, in the order of these, or else the first
index that has none (`Store.extract_eq_ok_iff`, `Store.extract_eq_error_iff`). A call of a decoder
that finds a record missing has come to the same index (`Decoder.missing_of_decode`).
-/

namespace WellLog

/-! ## Trying one after another -/

section Trying

variable {α β ε : Type} {f : α → Except ε β} {as : List α} {bs : List β} {e : ε}

theorem mapM_eq_ok_iff : as.mapM f = .ok bs ↔ List.Forall₂ (fun a b => f a = .ok b) as bs := by
  induction as generalizing bs with
  | nil => rw [List.mapM_nil, pure_eq_ok_iff, List.forall₂_nil_left_iff, eq_comm]
  | cons a as ih =>
    simp only [List.mapM_cons, bind_eq_ok_iff, pure_eq_ok_iff, ih, List.forall₂_cons_left_iff]
    constructor
    · rintro ⟨b, hb, rest, hrest, rfl⟩
      exact ⟨b, rest, hb, hrest, rfl⟩
    · rintro ⟨b, rest, hb, hrest, rfl⟩
      exact ⟨b, hb, rest, hrest, rfl⟩

/-- What fails first is the error, and all before it has succeeded. -/
theorem mapM_eq_error_iff : as.mapM f = .error e ↔ ∃ before a after, as = before ++ a :: after
    ∧ (∀ x ∈ before, ∃ y, f x = .ok y) ∧ f a = .error e := by
  induction as with
  | nil =>
    rw [List.mapM_nil]
    exact ⟨fun h => (nomatch h), fun ⟨before, _, _, h, _⟩ => by cases before <;> cases h⟩
  | cons a as ih =>
    simp only [List.mapM_cons, bind_eq_error_iff, ih]
    constructor
    · rintro (h | ⟨b, hb, ⟨before, a', after, rfl, hbefore, ha'⟩ | ⟨_, _, h⟩⟩)
      · exact ⟨[], a, as, rfl, List.forall_mem_nil _, h⟩
      · refine ⟨a :: before, a', after, rfl, ?_, ha'⟩
        exact List.forall_mem_cons.mpr ⟨⟨b, hb⟩, hbefore⟩
      · cases h
    · rintro ⟨before, a', after, h, hbefore, ha'⟩
      rcases before with _ | ⟨first, before⟩
      · obtain ⟨rfl, rfl⟩ := List.cons_eq_cons.mp h
        exact .inl ha'
      · obtain ⟨rfl, rfl⟩ := List.cons_eq_cons.mp h
        obtain ⟨⟨b, hb⟩, hrest⟩ := List.forall_mem_cons.mp hbefore
        exact .inr ⟨b, hb, .inl ⟨before, a', after, rfl, hrest, ha'⟩⟩

end Trying

namespace Store

variable {s t : Store} {records added : List Record} {indices : List Nat} {index : Nat} {r : Record}

/-! ## Adding records -/

/-- A record is put behind the others. Its index is one less than the number of records then. -/
def push? (s : Store) (r : Record) : Option (Nat × Store) :=
  let records := s.records.push r
  (minus? records.size 1).map fun index => (index, ⟨records⟩)

/-- The indices of records that are added one after another, and the store that has all of them. -/
def pushAll? : Store → List Record → Option (List Nat × Store)
  | s, [] => some ([], s)
  | s, r :: added => do
    let (index, t) ← s.push? r
    let (indices, u) ← pushAll? t added
    return (index :: indices, u)

theorem size_push (s : Store) (r : Record) : (s.push r).2.size = s.size + 1 := Array.size_push ..

theorem push?_eq (s : Store) (r : Record) : s.push? r = some (s.push r) := by
  have hminus : minus? (s.records.push r).size 1 = some s.size := by
    rw [minus?, Array.size_push, if_pos (Nat.le_add_left 1 _)]
    rfl
  rw [push?, hminus]
  rfl

theorem pushAll?_cons (s : Store) (r : Record) (added : List Record) :
    s.pushAll? (r :: added)
      = ((s.push r).2.pushAll? added).map fun (indices, t) => (s.size :: indices, t) := by
  rw [pushAll?, push?_eq]
  show ((s.push r).2.pushAll? added).bind _ = _
  rcases (s.push r).2.pushAll? added with _ | ⟨indices, t⟩ <;> rfl

/-- The indices go on where those of the store end. -/
theorem exists_pushAll? (s : Store) (added : List Record) :
    ∃ t, s.pushAll? added = some (List.range' s.size added.length, t)
      ∧ t.records.toList = s.records.toList ++ added := by
  induction added generalizing s with
  | nil => exact ⟨s, rfl, (List.append_nil _).symm⟩
  | cons r added ih =>
    obtain ⟨t, ht, hrecords⟩ := ih (s.push r).2
    refine ⟨t, ?_, ?_⟩
    · rw [pushAll?_cons, ht, size_push]
      rfl
    · rw [hrecords, push, Array.toList_push, List.append_assoc]
      rfl

/-- Records that are added leave the others where they are. -/
theorem record?_of_pushAll? (h : s.pushAll? added = some (indices, t)) (hi : index < s.size) :
    t.record? index = s.record? index := by
  induction added generalizing s indices with
  | nil =>
    cases h
    rfl
  | cons r added ih =>
    rw [pushAll?_cons] at h
    obtain ⟨⟨rest, u⟩, hu, heq⟩ := Option.map_eq_some_iff.mp h
    cases heq
    have hsize : index < (s.push r).2.size := by
      rw [size_push]
      exact Nat.lt_succ_of_lt hi
    rw [ih hu hsize, record?_push_of_lt hi]

/-! ## Finding records -/

/-- The store has these records at their places in the list, and no other. -/
structure Has (s : Store) (records : List Record) : Prop where
  size : s.size = records.length
  found : ∀ index r, s.record? index = .ok r ↔ records[index]? = some r
  missing : ∀ index e, s.record? index = .error e ↔ records.length ≤ index ∧ e = ⟨index⟩

theorem record?_eq_ok_iff : s.record? index = .ok r ↔ s.records.toList[index]? = some r := by
  rw [record?, Array.getElem?_toList]
  cases s.records[index]? <;> simp

theorem record?_eq_error_iff {e : NoRecord} :
    s.record? index = .error e ↔ s.size ≤ index ∧ e = ⟨index⟩ := by
  rw [record?, size, ← Array.getElem?_eq_none_iff]
  cases s.records[index]? <;> simp [eq_comm]

theorem exists_record?_iff : (∃ r, s.record? index = .ok r) ↔ index < s.size := by
  rcases h : s.record? index with e | r
  · obtain ⟨hle, -⟩ := record?_eq_error_iff.mp h
    exact ⟨fun ⟨_, h⟩ => (nomatch h), fun hlt => absurd hlt (Nat.not_lt.mpr hle)⟩
  · obtain ⟨hlt, -⟩ := List.getElem?_eq_some_iff.mp (record?_eq_ok_iff.mp h)
    exact ⟨fun _ => hlt, fun _ => ⟨r, rfl⟩⟩

theorem has_toList (s : Store) : s.Has s.records.toList where
  size := rfl
  found _ _ := record?_eq_ok_iff
  missing _ _ := record?_eq_error_iff

/-! ## Taking records out -/

/-- What is taken out are the records of all indices in their order, and nothing if an index has
none; the first such index is told. -/
structure Extracts (s : Store) (indices : List Nat) : Prop where
  ok_iff : ∀ records, s.extract indices = .ok records ↔ records.length = indices.length
    ∧ ∀ (k index : Nat), indices[k]? = some index →
      ∃ r, records[k]? = some r ∧ s.record? index = .ok r
  exists_iff : (∃ records, s.extract indices = .ok records) ↔ ∀ index ∈ indices, index < s.size
  error_iff : ∀ e, s.extract indices = .error e ↔ ∃ before index after,
    indices = before ++ index :: after ∧ (∀ i ∈ before, i < s.size) ∧ s.size ≤ index
      ∧ e = ⟨index⟩

theorem extract_eq_ok_iff : s.extract indices = .ok records ↔ records.length = indices.length
    ∧ ∀ (k index : Nat), indices[k]? = some index →
      ∃ r, records[k]? = some r ∧ s.record? index = .ok r := by
  rw [extract, mapM_eq_ok_iff, List.forall₂_iff_get, eq_comm]
  refine and_congr_right fun hlength => ⟨fun h k index hk => ?_, fun h k hk hk' => ?_⟩
  · obtain ⟨hlt, rfl⟩ := List.getElem?_eq_some_iff.mp hk
    have hlt' : k < records.length := hlength ▸ hlt
    exact ⟨records[k], List.getElem?_eq_getElem hlt', h k hlt hlt'⟩
  · obtain ⟨r, hr, hrecord⟩ := h k indices[k] (List.getElem?_eq_getElem hk)
    obtain ⟨_, rfl⟩ := List.getElem?_eq_some_iff.mp hr
    exact hrecord

theorem extract_eq_error_iff {e : NoRecord} : s.extract indices = .error e
    ↔ ∃ before index after, indices = before ++ index :: after
      ∧ (∀ i ∈ before, i < s.size) ∧ s.size ≤ index ∧ e = ⟨index⟩ := by
  simp only [extract, mapM_eq_error_iff, exists_record?_iff, record?_eq_error_iff]

theorem exists_extract_iff :
    (∃ records, s.extract indices = .ok records) ↔ ∀ index ∈ indices, index < s.size := by
  rcases he : s.extract indices with e | records
  · obtain ⟨before, index, after, rfl, -, hle, -⟩ := extract_eq_error_iff.mp he
    refine ⟨fun ⟨_, h⟩ => (nomatch h), fun h => ?_⟩
    exact absurd (h index (by simp)) (Nat.not_lt.mpr hle)
  · refine ⟨fun _ index hindex => ?_, fun _ => ⟨records, rfl⟩⟩
    obtain ⟨k, hk⟩ := List.getElem?_of_mem hindex
    obtain ⟨r, -, hr⟩ := (extract_eq_ok_iff.mp he).2 k index hk
    exact exists_record?_iff.mp ⟨r, hr⟩

theorem extracts (s : Store) (indices : List Nat) : s.Extracts indices where
  ok_iff _ := extract_eq_ok_iff
  exists_iff := exists_extract_iff
  error_iff _ := extract_eq_error_iff

end Store

/-! ## Missing records of a call -/

namespace Decoder

variable {s : Settings} {format : FrameFormat} {source : Source} {indices : List Nat}
  {run run' : Run} {failure : Failure} {missing : NoRecord}

/-- A record that is missing is told as it is. -/
theorem missing_of_examine {index : Nat} {stop : Stop}
    (h : examine s format source index = .error stop)
    (hf : stop.failure.fault = .noRecord missing) : source.record? index = .error missing
      ∧ stop.failure = (Fault.noRecord missing).inRecord index := by
  have hl := isLocated_of_examine h
  have hi := record_of_examine h
  unfold Failure.IsLocated at hl
  rw [hf] at hl
  obtain ⟨index', hr, hrecord, hoffset⟩ := hl
  obtain rfl : index' = index := Option.some.inj (hrecord.symm.trans hi)
  refine ⟨hr, ?_⟩
  obtain ⟨events, fault, record, offset⟩ := stop
  simp only at hf hrecord hoffset
  rw [hf, hrecord, hoffset]
  rfl

/-- A step tells that its record is missing, or finds it and fails for another reason if it does. -/
theorem step_cases (s : Settings) (format : FrameFormat) (source : Source) (index : Nat)
    (run : Run) :
    (∃ missing, source.record? index = .error missing
        ∧ step s format source index run = (run, some ((Fault.noRecord missing).inRecord index)))
      ∨ (∃ r, source.record? index = .ok r)
        ∧ ∀ failure missing, (step s format source index run).2 = some failure →
          failure.fault ≠ .noRecord missing := by
  rcases hr : source.record? index with missing | r
  · exact .inl ⟨missing, rfl, by rw [step, hr]⟩
  · refine .inr ⟨⟨r, rfl⟩, fun failure missing h hf => ?_⟩
    rw [step_eq_examine] at h
    rcases he : examine s format source index with stop | ⟨_, event, _ | row⟩
    · simp only [he, Run.halt, Option.some.injEq] at h
      obtain rfl := h
      obtain ⟨hmissing, -⟩ := missing_of_examine he hf
      rw [hr] at hmissing
      cases hmissing
    · simp only [he, reduceCtorEq] at h
    · simp only [he, storeRow] at h
      split at h
      · cases h
      · cases h
        cases hf

/-- A run that finds a record missing has found all records before it. -/
theorem missing_of_walk (h : walk s format source indices run = (run', some failure))
    (hf : failure.fault = .noRecord missing) :
    ∃ before index after, indices = before ++ index :: after
      ∧ (∀ i ∈ before, ∃ r, source.record? i = .ok r) ∧ source.record? index = .error missing
      ∧ failure = (Fault.noRecord missing).inRecord index := by
  induction indices generalizing run with
  | nil => cases h
  | cons index indices ih =>
    unfold walk at h
    rcases step_cases s format source index run with ⟨missing', hr, hstep⟩ | ⟨hr, hother⟩
    · simp only [hstep, Prod.mk.injEq, Option.some.injEq] at h
      obtain ⟨-, rfl⟩ := h
      cases hf
      exact ⟨[], index, indices, rfl, List.forall_mem_nil _, hr, rfl⟩
    · rcases hstep : step s format source index run with ⟨next, _ | stopped⟩
      · simp only [hstep] at h
        obtain ⟨before, index', after, rfl, hbefore, hr', hfailure⟩ := ih h
        refine ⟨index :: before, index', after, rfl, ?_, hr', hfailure⟩
        exact List.forall_mem_cons.mpr ⟨hr, hbefore⟩
      · simp only [hstep, Prod.mk.injEq, Option.some.injEq] at h
        obtain ⟨-, rfl⟩ := h
        exact absurd hf (hother stopped missing (congrArg Prod.snd hstep))

/-- A run that gets through has found all records. -/
theorem found_of_walk (h : walk s format source indices run = (run', none)) :
    ∀ i ∈ indices, ∃ r, source.record? i = .ok r := by
  induction indices generalizing run with
  | nil => exact List.forall_mem_nil _
  | cons index indices ih =>
    unfold walk at h
    rcases step_cases s format source index run with ⟨missing, -, hstep⟩ | ⟨hr, -⟩
    · simp only [hstep, Prod.mk.injEq, reduceCtorEq, and_false] at h
    · rcases hstep : step s format source index run with ⟨next, _ | stopped⟩
      · simp only [hstep] at h
        exact List.forall_mem_cons.mpr ⟨hr, ih h⟩
      · simp only [hstep, Prod.mk.injEq, reduceCtorEq, and_false] at h

variable {buffer : Buffer}

theorem missing_of_decode (h : (decode s format source indices buffer).result = .error failure)
    (hf : failure.fault = .noRecord missing) :
    ∃ before index after, indices = before ++ index :: after
      ∧ (∀ i ∈ before, ∃ r, source.record? i = .ok r) ∧ source.record? index = .error missing
      ∧ failure = (Fault.noRecord missing).inRecord index := by
  unfold decode at h
  split at h
  · next fault hc =>
    cases h
    unfold checkBuffer at hc
    split_ifs at hc <;> cases hc <;> cases hf
  · split at h
    · next hw =>
      cases h
      exact missing_of_walk hw hf
    · cases h

theorem found_of_decode {report : Report}
    (h : (decode s format source indices buffer).result = .ok report) :
    ∀ i ∈ indices, ∃ r, source.record? i = .ok r := by
  unfold decode at h
  split at h
  · cases h
  · split at h
    · cases h
    · next hw => exact found_of_walk hw

end Decoder

namespace Store

/-- A call fails for a missing record only where taking the records out fails, and does not succeed
there. -/
theorem extract_of_decode (s : Store) (settings : Settings) (format : FrameFormat)
    (indices : List Nat) (buffer : Buffer) :
    (∀ failure missing, (Decoder.decode settings format s indices buffer).result = .error failure →
        failure.fault = .noRecord missing → s.extract indices = .error missing
          ∧ failure = (Fault.noRecord missing).inRecord missing.index)
      ∧ ∀ report, (Decoder.decode settings format s indices buffer).result = .ok report →
        ∃ taken, s.extract indices = .ok taken := by
  constructor
  · intro failure missing h hf
    obtain ⟨before, index, after, rfl, hbefore, hr, hfailure⟩ := Decoder.missing_of_decode h hf
    obtain ⟨hle, rfl⟩ := record?_eq_error_iff.mp hr
    refine ⟨extract_eq_error_iff.mpr ⟨before, index, after, rfl, ?_, hle, rfl⟩, hfailure⟩
    exact fun i hi => exists_record?_iff.mp (hbefore i hi)
  · intro report h
    refine exists_extract_iff.mpr fun index hindex => ?_
    exact exists_record?_iff.mp (Decoder.found_of_decode h index hindex)

/-- Whatever is added to a store, it has its records and those that were added at the indices that
were told, and keeps them there. What is taken out of it is all or the first that is missing, also
for a call of a decoder. -/
theorem keeps_records (records added : List Record) :
    ∃ s, (ofList records).pushAll? added = some (List.range' records.length added.length, s)
      ∧ s.Has (records ++ added)
      ∧ (∀ more, ∃ indices t, s.pushAll? more = some (indices, t)
        ∧ ∀ index < s.size, t.record? index = s.record? index)
      ∧ (∀ indices, s.Extracts indices)
      ∧ ∀ (settings : Settings) (format : FrameFormat) (indices : List Nat) (buffer : Buffer),
        (∀ failure missing,
            (Decoder.decode settings format s indices buffer).result = .error failure →
            failure.fault = .noRecord missing → s.extract indices = .error missing
              ∧ failure = (Fault.noRecord missing).inRecord missing.index)
          ∧ ∀ report, (Decoder.decode settings format s indices buffer).result = .ok report →
            ∃ taken, s.extract indices = .ok taken := by
  obtain ⟨s, hs, hrecords⟩ := exists_pushAll? (ofList records) added
  refine ⟨s, hs, ?_, fun more => ?_, s.extracts, s.extract_of_decode⟩
  · have h := s.has_toList
    rwa [hrecords] at h
  · obtain ⟨t, ht, -⟩ := exists_pushAll? s more
    exact ⟨_, t, ht, fun index hindex => record?_of_pushAll? ht hindex⟩

/-- Of the two indices that are missing the one that comes first is told, which is the larger. -/
theorem keeps_records_order : ∃ s : Store,
    (ofList [.frameData [1]]).pushAll? [.frameData [1, 0, 1, 70], .frameData [2]] = some ([1, 2], s)
      ∧ s.record? 1 = .ok (.frameData [1, 0, 1, 70])
      ∧ (Decoder.decode .standard (.single .uvari) s [1, 7, 5]
          (Decoder.bufferFor .standard (.single .uvari) 3)).result
        = .error ((Fault.noRecord ⟨7⟩).inRecord 7)
      ∧ s.extract [1, 7, 5] = .error ⟨7⟩ := by
  obtain ⟨s, hs, hhas, -, -, hdecode⟩ :=
    keeps_records [.frameData [1]] [.frameData [1, 0, 1, 70], .frameData [2]]
  obtain rfl : s = ⟨#[.frameData [1], .frameData [1, 0, 1, 70], .frameData [2]]⟩ :=
    congrArg Prod.snd (Option.some.inj hs.symm)
  have hresult : (Decoder.decode .standard (.single .uvari)
      (Store.mk #[.frameData [1], .frameData [1, 0, 1, 70], .frameData [2]]) [1, 7, 5]
      (Decoder.bufferFor .standard (.single .uvari) 3)).result
    = .error ((Fault.noRecord ⟨7⟩).inRecord 7) := rfl
  exact ⟨_, hs, (hhas.found 1 _).mpr rfl, hresult, ((hdecode _ _ _ _).1 _ ⟨7⟩ hresult rfl).1⟩

end Store

end WellLog
