import WellLog.Proofs.Reading

/-!
# Formats in letters

Each code has a letter, and a text is a span if all its characters are such letters; the span has a
code for each character then, and is written as the text again (`Span.parse_eq_ok_iff`). In any
other text the first character that is no letter is at fault (`Span.parse_eq_error_iff`). It is told
with the number of characters in front of it, however many bytes these take.

Of the three texts of a format the first one with a fault decides, and that there are no columns is
noticed only where none has one (`FrameFormat.parse_eq_error_iff`).
-/

namespace WellLog

/-! ## Letters -/

/-- The letters of the codes, in the order of their numbers. -/
def Code.letters : List Char :=
  ['r', 'f', 'b', 'B', 'x', 'V', 'F', 'z', 'Z', 'c', 'C', 'd', 'D', 'l', 'u', 'U', 'L', 'i', 's',
    'S', 'j', 'J', 'o', 'O', 'A', 'q', 'Q']

theorem Code.map_symbol_all : all.map symbol = letters := rfl

theorem Code.nodup_letters : letters.Nodup := by decide

theorem Code.mem_letters_iff {c : Char} : c ∈ letters ↔ ∃ code : Code, code.symbol = c := by
  rw [← map_symbol_all, List.mem_map]
  exact ⟨fun ⟨code, _, h⟩ => ⟨code, h⟩, fun ⟨code, h⟩ => ⟨code, mem_all code, h⟩⟩

theorem Code.ofSymbol?_of_not_mem {c : Char} (h : c ∉ letters) : ofSymbol? c = none := by
  rw [Option.eq_none_iff_forall_ne_some]
  exact fun code hcode => h (mem_letters_iff.mpr ⟨code, ofSymbol?_eq_some_iff.mp hcode⟩)

/-- All characters of the text are letters of codes. -/
def Spelled (s : String) : Prop := ∀ c ∈ s.toList, c ∈ Code.letters

instance (s : String) : Decidable (Spelled s) := List.decidableBAll (· ∈ Code.letters) s.toList

/-- The first character of the text that is no letter of a code. So many characters stand in front
of it. -/
def FirstStray (s : String) (c : Char) (position : Nat) : Prop :=
  ∃ before after, s.toList = before ++ c :: after ∧ before.length = position
    ∧ (∀ d ∈ before, d ∈ Code.letters) ∧ c ∉ Code.letters

theorem spelled_or_firstStray (s : String) : Spelled s ∨ ∃ c position, FirstStray s c position := by
  rcases hf : s.toList.find? (· ∉ Code.letters) with _ | c
  · rw [List.find?_eq_none] at hf
    exact .inl fun c hc => by simpa using hf c hc
  · obtain ⟨hc, before, after, hs, hbefore⟩ := List.find?_eq_some_iff_append.mp hf
    exact .inr ⟨c, before.length, before, after, hs, rfl, fun d hd => by simpa using hbefore d hd,
      of_decide_eq_true hc⟩

/-! ## Spans -/

namespace Span

variable {s : String} {span : Span} {fault : FormatFault}

theorem exists_map_symbol_eq : ∀ {cs : List Char}, (∀ c ∈ cs, c ∈ Code.letters) →
    ∃ span : Span, span.map Code.symbol = cs
  | [], _ => ⟨[], rfl⟩
  | c :: cs, h => by
    obtain ⟨hc, hcs⟩ := List.forall_mem_cons.mp h
    obtain ⟨code, rfl⟩ := Code.mem_letters_iff.mp hc
    obtain ⟨span, rfl⟩ := exists_map_symbol_eq hcs
    exact ⟨code :: span, rfl⟩

theorem parseFrom_of_stray {c : Char} {after : List Char} (hc : c ∉ Code.letters) :
    ∀ {before : List Char} {position : Nat}, (∀ d ∈ before, d ∈ Code.letters) →
      parseFrom position (before ++ c :: after)
        = .error (.unknownSymbol c (position + before.length))
  | [], position, _ => by
    rw [List.nil_append, parseFrom, Code.ofSymbol?_of_not_mem hc]
    rfl
  | d :: before, position, h => by
    obtain ⟨hd, hbefore⟩ := List.forall_mem_cons.mp h
    obtain ⟨code, rfl⟩ := Code.mem_letters_iff.mp hd
    rw [List.cons_append, parseFrom, Code.ofSymbol?_eq_some_iff.mpr rfl]
    simp only [parseFrom_of_stray hc hbefore, List.length_cons, Nat.add_assoc, Nat.add_comm 1]
    rfl

theorem parse_of_firstStray {c : Char} {position : Nat} (h : FirstStray s c position) :
    parse s = .error (.unknownSymbol c position) := by
  obtain ⟨before, after, hs, rfl, hbefore, hc⟩ := h
  rw [parse, hs, parseFrom_of_stray hc hbefore, Nat.zero_add]

theorem exists_parse_of_spelled (h : Spelled s) :
    ∃ span : Span, parse s = .ok span ∧ span.map Code.symbol = s.toList := by
  obtain ⟨span, hspan⟩ := exists_map_symbol_eq h
  exact ⟨span, by rw [parse, ← hspan, parseFrom_symbols], hspan⟩

theorem parse_eq_ok_iff : parse s = .ok span ↔ span.map Code.symbol = s.toList := by
  constructor
  · intro h
    rcases spelled_or_firstStray s with hs | ⟨c, position, hstray⟩
    · obtain ⟨span', hparse, hspan'⟩ := exists_parse_of_spelled hs
      obtain rfl : span = span' := Except.ok.inj (h.symm.trans hparse)
      exact hspan'
    · rw [parse_of_firstStray hstray] at h
      cases h
  · intro h
    rw [parse, ← h, parseFrom_symbols]

theorem parse_eq_error_iff : parse s = .error fault
    ↔ ∃ c position, FirstStray s c position ∧ fault = .unknownSymbol c position := by
  constructor
  · intro h
    rcases spelled_or_firstStray s with hs | ⟨c, position, hstray⟩
    · obtain ⟨span, hparse, -⟩ := exists_parse_of_spelled hs
      rw [hparse] at h
      cases h
    · rw [parse_of_firstStray hstray] at h
      cases h
      exact ⟨c, position, hstray, rfl⟩
  · rintro ⟨c, position, hstray, rfl⟩
    exact parse_of_firstStray hstray

theorem parse_eq_ok_iff_text_eq : parse s = .ok span ↔ span.text = s := by
  rw [parse_eq_ok_iff, text, ← String.toList_inj, String.toList_ofList]

theorem text_eq_empty_iff : span.text = "" ↔ span = [] := by
  rw [← parse_eq_ok_iff_text_eq, parse_eq_ok_iff]
  exact List.map_eq_nil_iff

theorem spelled_text (span : Span) : Spelled span.text := by
  intro c hc
  rw [text, String.toList_ofList, List.mem_map] at hc
  obtain ⟨code, -, rfl⟩ := hc
  exact Code.mem_letters_iff.mpr ⟨code, rfl⟩

/-- A text is read as long as there are letters in it only. -/
theorem exists_parse_iff : (∃ span, parse s = .ok span) ↔ Spelled s := by
  constructor
  · rintro ⟨span, h⟩
    rw [← parse_eq_ok_iff_text_eq.mp h]
    exact span.spelled_text
  · intro h
    obtain ⟨span, hparse, -⟩ := exists_parse_of_spelled h
    exact ⟨span, hparse⟩

/-- The position counts a sign of two bytes once. -/
example : parse "f°Xf" = .error (.unknownSymbol '°' 1) := by decide

end Span

/-! ## Formats -/

/-- What is at fault with the three texts of a format: a character of the first text that has a
stray one, or that there are no columns if no text has one. -/
inductive FormatFault.Arises (leading fields trailing : String) : FormatFault → Prop
  | leading {c : Char} {position : Nat} (h : FirstStray leading c position) :
    Arises leading fields trailing (.unknownSymbol c position)
  | fields {c : Char} {position : Nat} (hl : Spelled leading) (h : FirstStray fields c position) :
    Arises leading fields trailing (.unknownSymbol c position)
  | trailing {c : Char} {position : Nat} (hl : Spelled leading) (hf : Spelled fields)
    (h : FirstStray trailing c position) :
    Arises leading fields trailing (.unknownSymbol c position)
  | noColumns (hl : Spelled leading) (hf : fields = "") (ht : Spelled trailing) :
    Arises leading fields trailing .noColumns

namespace FrameFormat

variable {leading fields trailing : String} {format : FrameFormat} {fault : FormatFault}

theorem ofSpans_eq_ok_iff {a b c : Span} : ofSpans a b c = .ok format
    ↔ a = format.leading ∧ b = format.fields ∧ c = format.trailing := by
  unfold ofSpans
  constructor
  · intro h
    split at h
    · cases h
    · cases h
      exact ⟨rfl, rfl, rfl⟩
  · rintro ⟨rfl, rfl, rfl⟩
    exact dif_neg format.fields_ne_nil

theorem ofSpans_eq_error_iff {a b c : Span} : ofSpans a b c = .error fault
    ↔ b = [] ∧ fault = .noColumns := by
  unfold ofSpans
  split
  · next h => simp [h, eq_comm]
  · next h => simp [h]

theorem parse_eq_ok_iff : parse leading fields trailing = .ok format
    ↔ format.leading.text = leading ∧ format.fields.text = fields
      ∧ format.trailing.text = trailing := by
  simp only [parse, bind_eq_ok_iff, ofSpans_eq_ok_iff, Span.parse_eq_ok_iff_text_eq]
  constructor
  · rintro ⟨_, ha, _, hb, _, hc, rfl, rfl, rfl⟩
    exact ⟨ha, hb, hc⟩
  · rintro ⟨ha, hb, hc⟩
    exact ⟨_, ha, _, hb, _, hc, rfl, rfl, rfl⟩

theorem exists_parse_iff : (∃ format, parse leading fields trailing = .ok format)
    ↔ Spelled leading ∧ Spelled fields ∧ Spelled trailing ∧ fields ≠ "" := by
  constructor
  · rintro ⟨format, h⟩
    obtain ⟨rfl, rfl, rfl⟩ := parse_eq_ok_iff.mp h
    refine ⟨format.leading.spelled_text, format.fields.spelled_text, format.trailing.spelled_text,
      fun hnil => format.fields_ne_nil (Span.text_eq_empty_iff.mp hnil)⟩
  · rintro ⟨hl, hf, ht, hne⟩
    obtain ⟨a, ha⟩ := Span.exists_parse_iff.mpr hl
    obtain ⟨b, hb⟩ := Span.exists_parse_iff.mpr hf
    obtain ⟨c, hc⟩ := Span.exists_parse_iff.mpr ht
    rw [Span.parse_eq_ok_iff_text_eq] at ha hb hc
    have hnil : b ≠ [] := fun h => hne (hb ▸ Span.text_eq_empty_iff.mpr h)
    exact ⟨⟨a, b, c, hnil⟩, parse_eq_ok_iff.mpr ⟨ha, hb, hc⟩⟩

theorem parse_eq_error_iff : parse leading fields trailing = .error fault
    ↔ fault.Arises leading fields trailing := by
  simp only [parse, bind_eq_error_iff, ofSpans_eq_error_iff]
  constructor
  · rintro (h | ⟨a, ha, h | ⟨b, hb, h | ⟨c, hc, rfl, rfl⟩⟩⟩)
    · obtain ⟨c, position, hstray, rfl⟩ := Span.parse_eq_error_iff.mp h
      exact .leading hstray
    · obtain ⟨c, position, hstray, rfl⟩ := Span.parse_eq_error_iff.mp h
      exact .fields (Span.exists_parse_iff.mp ⟨a, ha⟩) hstray
    · obtain ⟨c, position, hstray, rfl⟩ := Span.parse_eq_error_iff.mp h
      exact .trailing (Span.exists_parse_iff.mp ⟨a, ha⟩) (Span.exists_parse_iff.mp ⟨b, hb⟩) hstray
    · exact .noColumns (Span.exists_parse_iff.mp ⟨a, ha⟩)
        (Span.parse_eq_ok_iff_text_eq.mp hb).symm (Span.exists_parse_iff.mp ⟨c, hc⟩)
  · rintro (hstray | ⟨hl, hstray⟩ | ⟨hl, hf, hstray⟩ | ⟨hl, rfl, ht⟩)
    · exact .inl (Span.parse_of_firstStray hstray)
    · obtain ⟨a, ha⟩ := Span.exists_parse_iff.mpr hl
      exact .inr ⟨a, ha, .inl (Span.parse_of_firstStray hstray)⟩
    · obtain ⟨a, ha⟩ := Span.exists_parse_iff.mpr hl
      obtain ⟨b, hb⟩ := Span.exists_parse_iff.mpr hf
      exact .inr ⟨a, ha, .inr ⟨b, hb, .inl (Span.parse_of_firstStray hstray)⟩⟩
    · obtain ⟨a, ha⟩ := Span.exists_parse_iff.mpr hl
      obtain ⟨c, hc⟩ := Span.exists_parse_iff.mpr ht
      exact .inr ⟨a, ha, .inr ⟨[], rfl, .inr ⟨c, hc, rfl, rfl⟩⟩⟩

/-- A text is read in just one way, and what comes first decides what is wrong with it. -/
theorem parse_spelled :
    (Code.letters.length = 27 ∧ Code.letters.Nodup)
    ∧ (∀ s : String, (∃ span, Span.parse s = .ok span) ↔ Spelled s)
    ∧ (∀ (s : String) (span : Span), Span.parse s = .ok span ↔ span.map Code.symbol = s.toList)
    ∧ (∀ (s : String) (span : Span), Span.parse s = .ok span ↔ span.text = s)
    ∧ (∀ (s : String) (fault : FormatFault), Span.parse s = .error fault
      ↔ ∃ c position, FirstStray s c position ∧ fault = .unknownSymbol c position)
    ∧ (∀ span : Span, Span.parse span.text = .ok span)
    ∧ (∀ leading fields trailing : String, (∃ format, parse leading fields trailing = .ok format)
      ↔ Spelled leading ∧ Spelled fields ∧ Spelled trailing ∧ fields ≠ "")
    ∧ (∀ (leading fields trailing : String) (format : FrameFormat),
      parse leading fields trailing = .ok format
        ↔ format.leading.text = leading ∧ format.fields.text = fields
          ∧ format.trailing.text = trailing)
    ∧ ∀ (leading fields trailing : String) (fault : FormatFault),
      parse leading fields trailing = .error fault ↔ fault.Arises leading fields trailing :=
  ⟨⟨rfl, Code.nodup_letters⟩, fun _ => Span.exists_parse_iff, fun _ _ => Span.parse_eq_ok_iff,
    fun _ _ => Span.parse_eq_ok_iff_text_eq, fun _ _ => Span.parse_eq_error_iff, Span.parse_text,
    fun _ _ _ => exists_parse_iff, fun _ _ _ _ => parse_eq_ok_iff,
    fun _ _ _ _ => parse_eq_error_iff⟩

/-- The second text is at fault before the third, at its second character. -/
theorem parse_spelled_stray : Spelled "fS" ∧ FirstStray "i°X" '°' 1
    ∧ parse "fS" "i°X" "X" = .error (.unknownSymbol '°' 1) := by
  have hl : Spelled "fS" := by decide
  have hf : FirstStray "i°X" '°' 1 :=
    ⟨['i'], ['X'], by decide, rfl, List.forall_mem_singleton.mpr (by decide), by decide⟩
  exact ⟨hl, hf, (parse_spelled.2.2.2.2.2.2.2.2 _ _ _ _).mpr (.fields hl hf)⟩

end FrameFormat

end WellLog
