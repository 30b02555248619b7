import WellLog.Proofs.Telling

/-!
# Buffers that are used again

What a call does has nothing to do with what its buffer holds. On two buffers of the same layout and
the same size a call has the same result and the same log. Its rows are the first ones of both
buffers then, with nothing left of the rows that were there, and behind them each buffer is as it
was (`Decoder.unite_decode`). So it is with calls that use a buffer one after another
(`Decoder.callAll_alike`).
-/

namespace WellLog

/-- The buffers have the same number of rows, all of the same layout. -/
structure Buffer.Alike (a b : Buffer) : Prop where
  layout : a.layout = b.layout
  size : a.size = b.size

theorem Buffer.Alike.trans {a b c : Buffer} (hab : a.Alike b) (hbc : b.Alike c) : a.Alike c :=
  ⟨hab.layout.trans hbc.layout, hab.size.trans hbc.size⟩

theorem Buffer.Alike.symm {a b : Buffer} (h : a.Alike b) : b.Alike a :=
  ⟨h.layout.symm, h.size.symm⟩

/-- The first rows of two buffers have become the same, and the others are those that they had. -/
structure Buffer.Unite (m : Nat) (a a' b b' : Buffer) : Prop where
  same : ∀ row < m, a'.stored? row = b'.stored? row
  left : ∀ row, m ≤ row → a'.stored? row = a.stored? row
  right : ∀ row, m ≤ row → b'.stored? row = b.stored? row

theorem Buffer.unite_zero (a b : Buffer) : Unite 0 a a b b :=
  ⟨fun row h => absurd h (Nat.not_lt_zero row), fun _ _ => rfl, fun _ _ => rfl⟩

theorem Buffer.Unite.trans {m n : Nat} {a a₁ a₂ b b₁ b₂ : Buffer} (h : Unite m a a₁ b b₁)
    (h' : Unite n a₁ a₂ b₁ b₂) : Unite (max m n) a a₂ b b₂ := by
  refine ⟨fun row hrow => ?_, fun row hrow => ?_, fun row hrow => ?_⟩
  · -- A row that the second call does not reach is one that the first has made the same.
    by_cases hn : row < n
    · exact h'.same row hn
    · rw [h'.left row (by omega), h'.right row (by omega), h.same row (by omega)]
  · rw [h'.left row (by omega), h.left row (by omega)]
  · rw [h'.right row (by omega), h.right row (by omega)]

/-- The rows that a log tells of. -/
def committed (log : List Event) : Nat := log.countP fun event => event.level = "TRACE"

/-- What a run tells and reports does not come from its buffer. -/
theorem Run.enterAll_congr {s : Settings} (a b : Buffer) (r : Report) (log : List Event)
    (entries : List Entry) :
    (enterAll s ⟨a, r, log⟩ entries).report = (enterAll s ⟨b, r, log⟩ entries).report
      ∧ (enterAll s ⟨a, r, log⟩ entries).log = (enterAll s ⟨b, r, log⟩ entries).log := by
  induction entries generalizing a b r log with
  | nil => exact ⟨rfl, rfl⟩
  | cons entry entries ih =>
    obtain ⟨index, opened, _ | row⟩ := entry
    · exact ih a b _ _
    · exact ih _ _ _ _

namespace Decoder

variable {s : Settings} {format : FrameFormat} {source : Source} {indices : List Nat}
  {a b : Buffer}

/-! ## One call -/

theorem checkBuffer_alike (h : a.Alike b) :
    checkBuffer s format indices a = checkBuffer s format indices b := by
  rw [checkBuffer, checkBuffer, h.layout, h.size]

theorem alike_decode (ha : a.IsLaidOut) :
    (decode s format source indices a).buffer.Alike a := by
  rcases hc : checkBuffer s format indices a with _ | fault
  · rw [buffer_decode ha hc]
    exact ⟨rfl, rfl⟩
  · rw [decode_of_check hc]
    exact ⟨rfl, rfl⟩

theorem result_alike (ha : a.IsLaidOut) (hb : b.IsLaidOut) (h : a.Alike b) :
    (decode s format source indices a).result = (decode s format source indices b).result
      ∧ (decode s format source indices a).log = (decode s format source indices b).log := by
  rcases hc : checkBuffer s format indices a with _ | fault
  · have hc' := (checkBuffer_alike h).symm.trans hc
    rw [decode_eq_outcome ha hc, decode_eq_outcome hb hc']
    obtain ⟨hr, hlog⟩ : (Run.enterAll s ⟨a, .start s, []⟩ _).report = _ ∧ _ :=
      Run.enterAll_congr a b (.start s) [] (scan s format source indices).1
    rcases (scan s format source indices).2 with _ | stop
    · simp only [Run.outcome, hr, hlog, and_self]
    · simp only [Run.outcome, hlog, and_self]
  · rw [decode_of_check hc, decode_of_check ((checkBuffer_alike h).symm.trans hc)]
    exact ⟨rfl, rfl⟩

theorem unite_decode (ha : a.IsLaidOut) (hb : b.IsLaidOut) (h : a.Alike b) :
    Buffer.Unite (committed (decode s format source indices a).log)
      a (decode s format source indices a).buffer b (decode s format source indices b).buffer := by
  rcases hc : checkBuffer s format indices a with _ | fault
  · have hc' := (checkBuffer_alike h).symm.trans hc
    rw [committed, countP_log_decode ha hc]
    refine ⟨fun row hrow => ?_, fun row hrow => ?_, fun row hrow => ?_⟩
    · rw [stored?_decode ha hc rfl, stored?_decode hb hc' rfl, if_pos hrow, if_pos hrow, h.layout]
    · rw [stored?_decode ha hc rfl, if_neg (Nat.not_lt.mpr hrow)]
    · rw [stored?_decode hb hc' rfl, if_neg (Nat.not_lt.mpr hrow)]
  · rw [decode_of_check hc, decode_of_check ((checkBuffer_alike h).symm.trans hc)]
    exact Buffer.unite_zero a b

theorem rowsWritten_eq_committed {report : Report} (ha : a.IsLaidOut)
    (hok : (decode s format source indices a).result = .ok report) :
    report.rowsWritten = committed (decode s format source indices a).log := by
  obtain ⟨hc, entries, hs, -⟩ := scan_of_decode_eq_ok ha hok
  obtain ⟨report', hok', hw, -⟩ := result_of_scan ha hc hs
  obtain rfl : report = report' := Except.ok.inj (hok.symm.trans hok')
  rw [committed, countP_log_decode ha hc, hs, hw]

end Decoder

/-! ## Calls one after another -/

/-- All that a call is given but its buffer. -/
structure Call where
  settings : Settings
  format : FrameFormat
  source : Source
  indices : List Nat

namespace Decoder

def call (c : Call) (buffer : Buffer) : Outcome :=
  decode c.settings c.format c.source c.indices buffer

/-- What each of the calls results in and tells, and the buffer that all of them have used. -/
def callAll : List Call → Buffer → List (Except Failure Report × List Event) × Buffer
  | [], buffer => ([], buffer)
  | c :: calls, buffer =>
    (((call c buffer).result, (call c buffer).log) :: (callAll calls (call c buffer).buffer).1,
      (callAll calls (call c buffer).buffer).2)

/-- The most rows that one of the calls tells of. -/
def mostCommitted : List (Except Failure Report × List Event) → Nat
  | [] => 0
  | outcome :: outcomes => max (committed outcome.2) (mostCommitted outcomes)

theorem callAll_alike (calls : List Call) {a b : Buffer} (ha : a.IsLaidOut) (hb : b.IsLaidOut)
    (h : a.Alike b) :
    (callAll calls a).1 = (callAll calls b).1
      ∧ Buffer.Unite (mostCommitted (callAll calls a).1) a (callAll calls a).2
        b (callAll calls b).2 := by
  induction calls generalizing a b with
  | nil => exact ⟨rfl, Buffer.unite_zero a b⟩
  | cons c calls ih =>
    have ha' : (call c a).buffer.IsLaidOut := isLaidOut_decode ha
    have hb' : (call c b).buffer.IsLaidOut := isLaidOut_decode hb
    have hfirst : Buffer.Unite (committed (call c a).log) a (call c a).buffer b (call c b).buffer :=
      unite_decode ha hb h
    obtain ⟨hresult, hlog⟩ : (call c a).result = (call c b).result
        ∧ (call c a).log = (call c b).log :=
      result_alike ha hb h
    obtain ⟨hlater, hrest⟩ := ih ha' hb'
      (((alike_decode ha).trans h).trans (alike_decode hb).symm)
    refine ⟨?_, hfirst.trans hrest⟩
    rw [callAll, callAll, hresult, hlog, hlater]

/-- The settings, the format, the source and the indices are the same for both buffers, and a call
may fail. -/
theorem decode_reused {a b : Buffer} (ha : a.IsLaidOut) (hb : b.IsLaidOut) (h : a.Alike b) :
    (∀ s format source indices,
        (decode s format source indices a).result = (decode s format source indices b).result
          ∧ (decode s format source indices a).log = (decode s format source indices b).log
          ∧ Buffer.Unite (committed (decode s format source indices a).log)
            a (decode s format source indices a).buffer b (decode s format source indices b).buffer
          ∧ ∀ report, (decode s format source indices a).result = .ok report →
            report.rowsWritten = committed (decode s format source indices a).log)
      ∧ ∀ calls, (callAll calls a).1 = (callAll calls b).1
        ∧ Buffer.Unite (mostCommitted (callAll calls a).1) a (callAll calls a).2
          b (callAll calls b).2 := by
  refine ⟨fun s format source indices => ?_, fun calls => callAll_alike calls ha hb h⟩
  obtain ⟨hresult, hlog⟩ := result_alike ha hb h
  exact ⟨hresult, hlog, unite_decode ha hb h, fun report => rowsWritten_eq_committed ha⟩

/-- The second buffer has identifiers of three characters in both rows. A call stores one of a
single character in the first row and then finds no record. -/
theorem decode_reused_ident :
    ∃ held : Buffer,
      held = (decode ⟨3, .reset, 1, true⟩ (.single .ident)
          (.constant [1, 0, 1, 70, 1, 3, 65, 66, 67]) [0, 0]
          (bufferFor ⟨3, .reset, 1, true⟩ (.single .ident) 2)).buffer
        ∧ Buffer.Unite 1 (bufferFor ⟨3, .reset, 1, true⟩ (.single .ident) 2)
          (decode ⟨3, .reset, 1, true⟩ (.single .ident)
            (Store.ofList [.frameData [1, 0, 1, 70, 1, 1, 90]]) [0, 5]
            (bufferFor ⟨3, .reset, 1, true⟩ (.single .ident) 2)).buffer
          held
          (decode ⟨3, .reset, 1, true⟩ (.single .ident)
            (Store.ofList [.frameData [1, 0, 1, 70, 1, 1, 90]]) [0, 5] held).buffer := by
  refine ⟨_, rfl, ?_⟩
  have hblank : (bufferFor ⟨3, .reset, 1, true⟩ (.single .ident) 2).IsLaidOut :=
    isLaidOut_bufferFor 2
  have hone : committed (decode ⟨3, .reset, 1, true⟩ (.single .ident)
      (Store.ofList [.frameData [1, 0, 1, 70, 1, 1, 90]]) [0, 5]
      (bufferFor ⟨3, .reset, 1, true⟩ (.single .ident) 2)).log = 1 := rfl
  rw [← hone]
  exact ((decode_reused hblank (isLaidOut_decode hblank) (alike_decode hblank).symm).1
    ⟨3, .reset, 1, true⟩ (.single .ident) _ [0, 5]).2.2.1

end Decoder

end WellLog
