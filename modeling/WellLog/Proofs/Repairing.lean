import WellLog.Proofs.Encoded

/-!
# Texts with degree signs

A character of a text is a `Piece` of its bytes: it is encoded, or it is a degree sign as a stray
byte. The bytes determine the pieces (`Piece.flatMap_bytes_inj`), so a text with a stray byte is not
well-formed as it stands (`Piece.flatMap_bytes_eq_utf8_iff`). Replacing the degree signs makes it so
exactly if no encoded character has such a byte in it (`Piece.widenDegrees_eq_iff`).

That is, each run of bytes between the degree signs has to be well-formed by itself
(`Piece.exists_iff_runs`, `RecordText.decode_eq_iff`). Beside a character that has the byte of a
degree sign among its own, as a degree sign in UTF-8 has, stray ones are not repaired
(`RecordText.decode_pieces`).
-/

namespace WellLog

open String (utf8EncodeChar)

/-- A character of a text as it may stand in a record. -/
inductive Piece where
  | encoded (c : Char)
  /-- A degree sign as the single byte of Latin-1. -/
  | stray
  deriving DecidableEq, Repr

namespace Piece

def bytes : Piece → List UInt8
  | encoded c => utf8EncodeChar c
  | stray => [degree]

def char : Piece → Char
  | encoded c => c
  | stray => '°'

/-- No byte of it is taken for a degree sign that is none. -/
def IsClear : Piece → Prop
  | encoded c => degree ∉ utf8EncodeChar c
  | stray => True

instance : ∀ p : Piece, Decidable p.IsClear
  | encoded c => inferInstanceAs (Decidable (degree ∉ utf8EncodeChar c))
  | stray => .isTrue trivial

/-! ## Pieces and their bytes -/

theorem degree_not_first : ¬degree.IsUTF8FirstByte := by decide

theorem bytes_ne_nil : ∀ p : Piece, p.bytes ≠ []
  | encoded _ => String.utf8EncodeChar_ne_nil
  | stray => List.cons_ne_nil _ _

/-- A stray byte begins no character. -/
theorem encoded_append_ne (c : Char) (r s : List UInt8) :
    utf8EncodeChar c ++ r ≠ degree :: s := by
  obtain ⟨first, tail, hc, hfirst, -⟩ := exists_utf8EncodeChar_eq_cons c
  rw [hc, List.cons_append]
  intro h
  exact degree_not_first ((List.cons_eq_cons.mp h).1 ▸ hfirst)

theorem append_inj {p q : Piece} {r s : List UInt8} (h : p.bytes ++ r = q.bytes ++ s) :
    p = q ∧ r = s := by
  cases p with
  | encoded c =>
    cases q with
    | encoded d => exact (utf8EncodeChar_append_inj h).imp_left (congrArg encoded)
    | stray => exact absurd h (encoded_append_ne c r s)
  | stray =>
    cases q with
    | encoded d => exact absurd h.symm (encoded_append_ne d s r)
    | stray => exact ⟨rfl, List.append_cancel_left h⟩

theorem flatMap_bytes_inj : ∀ {ps qs : List Piece},
    ps.flatMap bytes = qs.flatMap bytes → ps = qs
  | [], [], _ => rfl
  | [], q :: qs, h => absurd (List.append_eq_nil_iff.mp h.symm).1 q.bytes_ne_nil
  | p :: ps, [], h => absurd (List.append_eq_nil_iff.mp h).1 p.bytes_ne_nil
  | p :: ps, q :: qs, h => by
    rw [List.flatMap_cons, List.flatMap_cons] at h
    obtain ⟨rfl, hrest⟩ := append_inj h
    rw [flatMap_bytes_inj hrest]

theorem utf8_eq_pieces (s : String) : utf8 s = (s.toList.map encoded).flatMap bytes := by
  rw [utf8_eq_flatMap, List.flatMap_map]
  rfl

theorem map_encoded_char : ∀ {ps : List Piece}, stray ∉ ps → (ps.map char).map encoded = ps
  | [], _ => rfl
  | stray :: _, h => absurd List.mem_cons_self h
  | encoded c :: ps, h => by
    have ih := map_encoded_char fun hp => h (List.mem_cons_of_mem (encoded c) hp)
    rw [List.map_cons, List.map_cons, ih, char]

/-- A text with a stray byte is not well-formed, and one without is. -/
theorem flatMap_bytes_eq_utf8_iff {ps : List Piece} {s : String} :
    ps.flatMap bytes = utf8 s ↔ stray ∉ ps ∧ s = .ofList (ps.map char) := by
  rw [utf8_eq_pieces]
  constructor
  · intro h
    rw [flatMap_bytes_inj h]
    refine ⟨by simp, ?_⟩
    rw [List.map_map, show char ∘ encoded = id from rfl, List.map_id, String.ofList_toList]
  · rintro ⟨h, rfl⟩
    rw [String.toList_ofList, map_encoded_char h]

/-- A degree sign that is not in the front lies behind it. -/
theorem exists_append_of_notMem {front rest before after : List UInt8} (hf : degree ∉ front)
    (h : front ++ rest = before ++ degree :: after) :
    ∃ more, before = front ++ more ∧ rest = more ++ degree :: after := by
  rcases List.append_eq_append_iff.mp h with ⟨more, hbefore, hrest⟩ | ⟨more, hfront, hrest⟩
  · exact ⟨more, hbefore, hrest⟩
  · rcases more with _ | ⟨b, more⟩
    · rw [List.append_nil] at hfront
      exact ⟨[], by rw [hfront, List.append_nil], hrest.symm⟩
    · obtain ⟨rfl, -⟩ := List.cons_eq_cons.mp hrest
      exact absurd (by rw [hfront]; simp) hf

/-- The byte of a degree sign is a stray one wherever it stands, if all pieces are clear. -/
theorem exists_stray : ∀ {ps : List Piece} {before after : List UInt8}, (∀ p ∈ ps, p.IsClear) →
    ps.flatMap bytes = before ++ degree :: after → ∃ front back, ps = front ++ stray :: back
      ∧ before = front.flatMap bytes ∧ after = back.flatMap bytes
  | [], _, _, _, h => absurd h.symm (by simp)
  | encoded c :: ps, before, after, hclear, h => by
    obtain ⟨hp, hps⟩ := List.forall_mem_cons.mp hclear
    obtain ⟨more, rfl, hrest⟩ := exists_append_of_notMem hp h
    obtain ⟨front, back, rfl, rfl, hback⟩ := exists_stray hps hrest
    exact ⟨encoded c :: front, back, rfl, rfl, hback⟩
  | stray :: ps, before, after, hclear, h => by
    rcases before with _ | ⟨b, before⟩
    · exact ⟨[], ps, rfl, rfl, (List.cons_eq_cons.mp h).2.symm⟩
    · obtain ⟨rfl, hrest⟩ := List.cons_eq_cons.mp h
      obtain ⟨front, back, rfl, rfl, hback⟩ := exists_stray (List.forall_mem_cons.mp hclear).2 hrest
      exact ⟨stray :: front, back, rfl, rfl, hback⟩

/-! ## Replacing the degree signs -/

theorem widenDegrees_append (a b : List UInt8) :
    widenDegrees (a ++ b) = widenDegrees a ++ widenDegrees b := List.flatMap_append

theorem widenDegrees_degree_cons (raw : List UInt8) :
    widenDegrees (degree :: raw) = utf8EncodeChar '°' ++ widenDegrees raw := rfl

theorem widenDegrees_cons {b : UInt8} (hb : b ≠ degree) (raw : List UInt8) :
    widenDegrees (b :: raw) = b :: widenDegrees raw := by
  rw [widenDegrees, List.flatMap_cons, if_neg hb, List.singleton_append]
  rfl

theorem widenDegrees_of_notMem : ∀ {bytes : List UInt8}, degree ∉ bytes →
    widenDegrees bytes = bytes
  | [], _ => rfl
  | b :: bytes, h => by
    obtain ⟨hb, hbytes⟩ := List.ne_and_not_mem_of_not_mem_cons h
    rw [widenDegrees_cons (Ne.symm hb), widenDegrees_of_notMem hbytes]

theorem widenDegrees_bytes : ∀ {p : Piece}, p.IsClear → widenDegrees p.bytes = utf8EncodeChar p.char
  | encoded _, h => widenDegrees_of_notMem h
  | stray, _ => rfl

theorem widenDegrees_flatMap_bytes : ∀ {ps : List Piece}, (∀ p ∈ ps, p.IsClear) →
    widenDegrees (ps.flatMap bytes) = (ps.map char).flatMap utf8EncodeChar
  | [], _ => rfl
  | p :: ps, h => by
    obtain ⟨hp, hps⟩ := List.forall_mem_cons.mp h
    rw [List.flatMap_cons, widenDegrees_append, widenDegrees_bytes hp,
      widenDegrees_flatMap_bytes hps, List.map_cons, List.flatMap_cons]

/-- Bytes within a character come from themselves, as the first byte of a degree sign is none. -/
theorem exists_of_widenDegrees_append {rest : List UInt8} : ∀ {tail raw : List UInt8},
    (∀ b ∈ tail, ¬b.IsUTF8FirstByte) → widenDegrees raw = tail ++ rest →
      ∃ behind, raw = tail ++ behind ∧ degree ∉ tail ∧ widenDegrees behind = rest
  | [], raw, _, h => ⟨raw, rfl, List.not_mem_nil, h⟩
  | b :: tail, [], _, h => nomatch h
  | b :: tail, x :: raw, hlater, h => by
    obtain ⟨hb, htail⟩ := List.forall_mem_cons.mp hlater
    by_cases hx : x = degree
    · subst hx
      obtain ⟨rfl, -⟩ := List.cons_eq_cons.mp h
      exact absurd (by decide) hb
    · rw [widenDegrees_cons hx] at h
      obtain ⟨rfl, hrest⟩ := List.cons_eq_cons.mp h
      obtain ⟨behind, rfl, hd, hbehind⟩ := exists_of_widenDegrees_append htail hrest
      exact ⟨behind, rfl, List.not_mem_cons_of_ne_of_not_mem (Ne.symm hx) hd, hbehind⟩

theorem exists_pieces_of_widenDegrees : ∀ {cs : List Char} {raw : List UInt8},
    widenDegrees raw = cs.flatMap utf8EncodeChar →
      ∃ ps : List Piece, raw = ps.flatMap bytes ∧ (∀ p ∈ ps, p.IsClear) ∧ cs = ps.map char
  | [], [], _ => ⟨[], rfl, fun _ h => (nomatch h), rfl⟩
  | [], x :: raw, h => by
    rw [widenDegrees, List.flatMap_cons, List.flatMap_nil, List.append_eq_nil_iff] at h
    split at h <;> simp at h
  | c :: cs, [], h => absurd (List.append_eq_nil_iff.mp h.symm).1 String.utf8EncodeChar_ne_nil
  | c :: cs, x :: raw, h => by
    rw [List.flatMap_cons] at h
    by_cases hx : x = degree
    · subst hx
      rw [widenDegrees_degree_cons] at h
      obtain ⟨rfl, hrest⟩ := utf8EncodeChar_append_inj h
      obtain ⟨ps, rfl, hclear, rfl⟩ := exists_pieces_of_widenDegrees hrest
      exact ⟨stray :: ps, rfl, List.forall_mem_cons.mpr ⟨trivial, hclear⟩, rfl⟩
    · -- Any other byte begins a character, and the later bytes of that one were not replaced.
      obtain ⟨first, tail, hc, -, htail⟩ := exists_utf8EncodeChar_eq_cons c
      rw [widenDegrees_cons hx, hc, List.cons_append] at h
      obtain ⟨rfl, hrest⟩ := List.cons_eq_cons.mp h
      obtain ⟨behind, rfl, hd, hbehind⟩ := exists_of_widenDegrees_append htail hrest
      obtain ⟨ps, rfl, hclear, rfl⟩ := exists_pieces_of_widenDegrees hbehind
      have hp : (encoded c).IsClear := by
        rw [IsClear, hc]
        exact List.not_mem_cons_of_ne_of_not_mem (Ne.symm hx) hd
      refine ⟨encoded c :: ps, ?_, List.forall_mem_cons.mpr ⟨hp, hclear⟩, rfl⟩
      rw [List.flatMap_cons, bytes, hc, List.cons_append]

/-- The replacement gives a well-formed text where all pieces are clear, and nowhere else. -/
theorem widenDegrees_eq_iff {raw : List UInt8} {s : String} :
    widenDegrees raw = utf8 s ↔ ∃ ps : List Piece,
      raw = ps.flatMap bytes ∧ (∀ p ∈ ps, p.IsClear) ∧ s = .ofList (ps.map char) := by
  rw [utf8_eq_flatMap]
  constructor
  · intro h
    obtain ⟨ps, hraw, hclear, hs⟩ := exists_pieces_of_widenDegrees h
    exact ⟨ps, hraw, hclear, by rw [← hs, String.ofList_toList]⟩
  · rintro ⟨ps, rfl, hclear, rfl⟩
    rw [widenDegrees_flatMap_bytes hclear, String.toList_ofList]

/-! ## Runs between degree signs -/

theorem notMem_of_mem_splitOn : ∀ {bytes run : List UInt8}, run ∈ bytes.splitOn degree →
    degree ∉ run
  | [], run, h => by
    rw [List.splitOn_nil, List.mem_singleton] at h
    rw [h]
    exact List.not_mem_nil
  | b :: bytes, run, h => by
    rw [List.splitOn_cons_eq_if_modifyHead] at h
    split at h
    · rcases List.mem_cons.mp h with rfl | h
      · exact List.not_mem_nil
      · exact notMem_of_mem_splitOn h
    · next hb =>
      obtain ⟨r, rs, hr⟩ := List.exists_cons_of_ne_nil (List.splitOn_ne_nil degree bytes)
      rw [hr, List.modifyHead_cons] at h
      rcases List.mem_cons.mp h with rfl | h
      · refine List.not_mem_cons_of_ne_of_not_mem (fun he => hb (beq_iff_eq.mpr he.symm)) ?_
        exact notMem_of_mem_splitOn (hr ▸ List.mem_cons_self)
      · exact notMem_of_mem_splitOn (hr ▸ List.mem_cons_of_mem _ h)

theorem splitOn_append_of_notMem {rest : List UInt8} : ∀ {front : List UInt8}, degree ∉ front →
    (front ++ rest).splitOn degree = (rest.splitOn degree).modifyHead (front ++ ·)
  | [], _ => by
    obtain ⟨r, rs, hr⟩ := List.exists_cons_of_ne_nil (List.splitOn_ne_nil degree rest)
    simp only [List.nil_append, hr, List.modifyHead_cons]
  | b :: front, h => by
    obtain ⟨hb, hfront⟩ := List.ne_and_not_mem_of_not_mem_cons h
    rw [List.cons_append, List.splitOn_cons_eq_if_modifyHead, if_neg,
      splitOn_append_of_notMem hfront, List.modifyHead_modifyHead]
    · rfl
    · exact fun he => hb (beq_iff_eq.mp he).symm

/-- Runs that are well-formed are made of encoded characters, and stray bytes lie between them. -/
theorem exists_pieces_of_runs : ∀ {texts : List String},
    (∀ t ∈ texts, degree ∉ utf8 t) → ∃ ps : List Piece,
      [degree].intercalate (texts.map utf8) = ps.flatMap bytes ∧ ∀ p ∈ ps, p.IsClear
  | [], _ => ⟨[], rfl, fun _ h => (nomatch h)⟩
  | t :: texts, h => by
    obtain ⟨ht, htexts⟩ := List.forall_mem_cons.mp h
    have hclear : ∀ p ∈ t.toList.map encoded, p.IsClear := by
      rw [utf8_eq_flatMap] at ht
      rintro _ hp
      obtain ⟨c, hc, rfl⟩ := List.mem_map.mp hp
      exact fun hd => ht (List.mem_flatMap.mpr ⟨c, hc, hd⟩)
    rcases texts with _ | ⟨u, texts⟩
    · refine ⟨t.toList.map encoded, ?_, hclear⟩
      rw [List.map_singleton, List.intercalate_singleton, utf8_eq_pieces]
    · obtain ⟨ps, hps, hpsclear⟩ := exists_pieces_of_runs htexts
      refine ⟨t.toList.map encoded ++ stray :: ps, ?_, ?_⟩
      · rw [List.map_cons, List.map_cons, List.intercalate_cons_cons, ← List.map_cons, hps,
          utf8_eq_pieces, List.flatMap_append, List.flatMap_cons, List.append_assoc]
        rfl
      · exact List.forall_mem_append.mpr ⟨hclear, List.forall_mem_cons.mpr ⟨trivial, hpsclear⟩⟩

theorem exists_runs_of_pieces : ∀ {ps : List Piece}, (∀ p ∈ ps, p.IsClear) →
    ∃ texts : List String, (ps.flatMap bytes).splitOn degree = texts.map utf8
      ∧ .ofList (ps.map char) = "°".intercalate texts
  | [], _ => ⟨[""], rfl, by simp⟩
  | p :: ps, h => by
    obtain ⟨hp, hps⟩ := List.forall_mem_cons.mp h
    obtain ⟨texts, hruns, htext⟩ := exists_runs_of_pieces hps
    obtain ⟨t, texts, rfl⟩ : ∃ t ts, texts = t :: ts := by
      refine List.exists_cons_of_ne_nil fun hn => ?_
      rw [hn] at hruns
      exact List.splitOn_ne_nil _ _ hruns
    cases p with
    | encoded c =>
      refine ⟨(String.singleton c ++ t) :: texts, ?_, ?_⟩
      · have hu : utf8 (String.singleton c ++ t) = utf8EncodeChar c ++ utf8 t := by
          simp [utf8_eq_flatMap]
        rw [List.flatMap_cons, bytes, splitOn_append_of_notMem hp, hruns, List.map_cons,
          List.modifyHead_cons, List.map_cons, hu]
      · rw [String.intercalate_cons_append, ← htext]
        apply String.toList_injective
        simp [char]
    | stray =>
      refine ⟨"" :: t :: texts, ?_, ?_⟩
      · rw [List.flatMap_cons, bytes, List.singleton_append, List.splitOn_cons_eq_if_modifyHead,
          if_pos (beq_self_eq_true degree), hruns]
        rfl
      · rw [String.intercalate_cons_cons, ← htext]
        apply String.toList_injective
        simp [char]

/-- Clear pieces are well-formed runs with stray bytes between them. -/
theorem exists_iff_runs {raw : List UInt8} :
    (∃ ps : List Piece, raw = ps.flatMap bytes ∧ ∀ p ∈ ps, p.IsClear)
      ↔ ∃ runs : List String, raw.splitOn degree = runs.map utf8 := by
  constructor
  · rintro ⟨ps, rfl, hclear⟩
    obtain ⟨runs, hruns, -⟩ := exists_runs_of_pieces hclear
    exact ⟨runs, hruns⟩
  · rintro ⟨runs, hruns⟩
    have hclear : ∀ t ∈ runs, degree ∉ utf8 t := fun t ht =>
      notMem_of_mem_splitOn (hruns ▸ List.mem_map_of_mem ht)
    obtain ⟨ps, hps, hpsclear⟩ := exists_pieces_of_runs hclear
    rw [← hruns, List.intercalate_splitOn] at hps
    exact ⟨ps, hps, hpsclear⟩

end Piece

/-! ## Reading a text -/

namespace RecordText

/-- What bytes are as a text. -/
inductive Means : List UInt8 → RecordText → Prop
  | whole (s : String) : Means (utf8 s) (text s)
  | repaired {raw : List UInt8} {runs : List String} (h : ¬∃ s, raw = utf8 s)
    (hruns : raw.splitOn degree = runs.map utf8) : Means raw (text ("°".intercalate runs))
  | kept {raw : List UInt8} (h : ¬∃ s, raw = utf8 s)
    (hruns : ¬∃ runs : List String, raw.splitOn degree = runs.map utf8) : Means raw (bytes raw)

theorem utf8_injective {s t : String} (h : utf8 s = utf8 t) : s = t :=
  text.inj ((decode_utf8 s).symm.trans (h ▸ decode_utf8 t))

theorem ofUtf8?_eq_none_iff {raw : List UInt8} :
    ofUtf8? raw = none ↔ ¬∃ s, raw = utf8 s := by
  simp only [Option.eq_none_iff_forall_ne_some, ne_eq, ofUtf8?_eq_some_iff, not_exists]

/-- The second reading counts only for what is not well-formed. -/
theorem decode_of_not_utf8 {raw : List UInt8} (h : ¬∃ s, raw = utf8 s) :
    decode raw = (ofUtf8? (widenDegrees raw)).elim (bytes raw) text := by
  rw [decode, ofUtf8?_eq_none_iff.mpr h]
  cases ofUtf8? (widenDegrees raw) <;> rfl

theorem decode_eq_text_iff {raw : List UInt8} (h : ¬∃ s, raw = utf8 s) {s : String} :
    decode raw = text s ↔ ∃ ps : List Piece,
      raw = ps.flatMap Piece.bytes ∧ (∀ p ∈ ps, p.IsClear) ∧ s = .ofList (ps.map Piece.char) := by
  rw [← Piece.widenDegrees_eq_iff, ← ofUtf8?_eq_some_iff, decode_of_not_utf8 h]
  cases ofUtf8? (widenDegrees raw) with
  | some t => rw [Option.elim_some, text.injEq, Option.some.injEq]
  | none => simp only [Option.elim_none, reduceCtorEq]

theorem decode_eq_bytes {raw : List UInt8} (h : ¬∃ s, raw = utf8 s)
    (hp : ¬∃ ps : List Piece, raw = ps.flatMap Piece.bytes ∧ ∀ p ∈ ps, p.IsClear) :
    decode raw = bytes raw := by
  have hnone : ofUtf8? (widenDegrees raw) = none := by
    rw [ofUtf8?_eq_none_iff]
    rintro ⟨s, hs⟩
    obtain ⟨ps, hraw, hclear, -⟩ := Piece.widenDegrees_eq_iff.mp hs
    exact hp ⟨ps, hraw, hclear⟩
  rw [decode_of_not_utf8 h, hnone, Option.elim_none]

theorem means_decode (raw : List UInt8) : Means raw (decode raw) := by
  by_cases hu : ∃ s, raw = utf8 s
  · obtain ⟨s, rfl⟩ := hu
    rw [decode_utf8]
    exact .whole s
  by_cases hp : ∃ ps : List Piece, raw = ps.flatMap Piece.bytes ∧ ∀ p ∈ ps, p.IsClear
  · obtain ⟨ps, rfl, hclear⟩ := hp
    obtain ⟨runs, hruns, htext⟩ := Piece.exists_runs_of_pieces hclear
    rw [(decode_eq_text_iff hu).mpr ⟨ps, rfl, hclear, rfl⟩, htext]
    exact .repaired hu hruns
  · rw [decode_eq_bytes hu hp]
    exact .kept hu fun hruns => hp (Piece.exists_iff_runs.mpr hruns)

theorem Means.unique {raw : List UInt8} {t u : RecordText} (ht : Means raw t) (hu : Means raw u) :
    t = u := by
  cases ht with
  | whole s =>
    generalize hraw : utf8 s = raw at hu
    cases hu with
    | whole s' => rw [utf8_injective hraw]
    | repaired h _ => exact absurd ⟨s, hraw.symm⟩ h
    | kept h _ => exact absurd ⟨s, hraw.symm⟩ h
  | @repaired _ runs h hruns =>
    cases hu with
    | whole s' => exact absurd ⟨s', rfl⟩ h
    | @repaired _ runs' _ hruns' =>
      have heq : runs = runs' :=
        (List.map_inj_right fun _ _ => utf8_injective).mp (hruns.symm.trans hruns')
      rw [heq]
    | kept _ hnone => exact absurd ⟨runs, hruns⟩ hnone
  | kept h hnone =>
    cases hu with
    | whole s' => exact absurd ⟨s', rfl⟩ h
    | repaired _ hruns' => exact absurd ⟨_, hruns'⟩ hnone
    | kept _ _ => rfl

/-- What is well-formed is read as it is. Where each run between the degree signs is well-formed,
they are joined, and no character of the text is made from a part of another. Anything else stays as
bytes. -/
theorem decode_eq_iff (raw : List UInt8) :
    (∀ t, decode raw = t ↔ Means raw t)
      ∧ ∀ s, decode raw = text s → raw = utf8 s ∨ ∃ ps : List Piece,
        raw = ps.flatMap Piece.bytes ∧ s = .ofList (ps.map Piece.char)
          ∧ ∀ before after, raw = before ++ degree :: after → ∃ front back,
            ps = front ++ .stray :: back ∧ before = front.flatMap Piece.bytes
              ∧ after = back.flatMap Piece.bytes := by
  refine ⟨fun t => ⟨?_, fun ht => (means_decode raw).unique ht⟩, fun s hs => ?_⟩
  · rintro rfl
    exact means_decode raw
  · by_cases hu : ∃ s, raw = utf8 s
    · obtain ⟨s', rfl⟩ := hu
      rw [decode_utf8, text.injEq] at hs
      exact .inl (congrArg utf8 hs)
    · obtain ⟨ps, hraw, hclear, hs⟩ := (decode_eq_text_iff hu).mp hs
      exact .inr ⟨ps, hraw, hs, fun before after h => Piece.exists_stray hclear (hraw ▸ h)⟩

/-- The byte of a degree sign, between two letters. -/
theorem decode_eq_iff_stray : Means [68, 0xb0, 67] (text "D°C")
    ∧ decode [68, 0xb0, 67] = text "D°C" := by
  have hraw : ([68, 0xb0, 67] : List UInt8)
      = [Piece.encoded 'D', .stray, .encoded 'C'].flatMap Piece.bytes := rfl
  have hu : ¬∃ s, ([68, 0xb0, 67] : List UInt8) = utf8 s := by
    rintro ⟨s, hs⟩
    exact (Piece.flatMap_bytes_eq_utf8_iff.mp (hraw ▸ hs)).1 (by decide)
  have hm : Means [68, 0xb0, 67] (text ("°".intercalate ["D", "C"])) := .repaired hu rfl
  exact ⟨hm, ((decode_eq_iff _).1 _).mpr hm⟩

theorem decode_of_stray {ps : List Piece} (h : .stray ∈ ps) (hc : ¬∀ p ∈ ps, p.IsClear) :
    decode (ps.flatMap Piece.bytes) = bytes (ps.flatMap Piece.bytes) := by
  refine decode_eq_bytes ?_ ?_
  · rintro ⟨s, hs⟩
    exact (Piece.flatMap_bytes_eq_utf8_iff.mp hs).1 h
  · rintro ⟨qs, hqs, hclear⟩
    rw [Piece.flatMap_bytes_inj hqs] at hc
    exact hc hclear

/-- Encoded characters and stray degree signs in any order. The stray ones become characters where
no encoded one has their byte, and else nothing does. -/
theorem decode_pieces (ps : List Piece) :
    decode (ps.flatMap Piece.bytes) =
      if .stray ∈ ps → ∀ p ∈ ps, p.IsClear then text (.ofList (ps.map Piece.char))
      else bytes (ps.flatMap Piece.bytes) := by
  by_cases hs : .stray ∈ ps
  · by_cases hc : ∀ p ∈ ps, p.IsClear
    · have hu : ¬∃ s, ps.flatMap Piece.bytes = utf8 s := fun ⟨_, h⟩ =>
        (Piece.flatMap_bytes_eq_utf8_iff.mp h).1 hs
      rw [if_pos fun _ => hc, (decode_eq_text_iff hu).mpr ⟨ps, rfl, hc, rfl⟩]
    · rw [if_neg fun h => hc (h hs), decode_of_stray hs hc]
  · rw [if_pos fun h => absurd h hs, Piece.flatMap_bytes_eq_utf8_iff.mpr ⟨hs, rfl⟩, decode_utf8]

/-- A degree sign in UTF-8 keeps a stray one beside it from being repaired. -/
theorem decode_degree_beside_stray :
    [Piece.encoded '°', .stray].flatMap Piece.bytes = [0xc2, 0xb0, 0xb0]
      ∧ String.ofList ([Piece.encoded '°', .stray].map Piece.char) = "°°"
      ∧ decode [0xc2, 0xb0, 0xb0] ≠ text "°°" := by
  have h : decode ([Piece.encoded '°', .stray].flatMap Piece.bytes) = bytes [0xc2, 0xb0, 0xb0] :=
    decode_of_stray (by decide) (by decide)
  refine ⟨rfl, rfl, ?_⟩
  rw [show [0xc2, 0xb0, 0xb0] = [Piece.encoded '°', .stray].flatMap Piece.bytes from rfl, h]
  exact nofun

end RecordText

end WellLog
