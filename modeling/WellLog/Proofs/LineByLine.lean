import Mathlib.Data.List.Basic
import Mathlib.Tactic.IntervalCases
import WellLog.Toml.Document

/-!
# Documents of one entry a line

A document may be a list of entries on lines of their own, each with a bare key and a value on the
rest of the line. Such a line is read as its entry wherever it stands
(`Line.IsPlain.statement?_append`), and the document as the table of its entries in their order
(`parse?_eq_of_lines`), as long as no key is given twice.

What can stand behind a key are numbers in decimal (`isTextOf_integer`), truth values
(`isTextOf_boolean`) and names between quotes (`isTextOf_text`).
-/

namespace WellLog.Toml

/-! ## Bare keys -/

section Bare

variable {c : Char} {s : List Char} (h : isBare c = true)
include h

theorem ne_of_isBare {d : Char} (hd : isBare d = false) : c ≠ d := by
  rintro rfl
  rw [h] at hd
  cases hd

theorem isBlank_bare : isBlank c = false := by
  have hspace : c ≠ ' ' := ne_of_isBare h (by decide)
  have htab : c ≠ '\t' := ne_of_isBare h (by decide)
  simp [isBlank, hspace, htab]

theorem skipBlanks_bare : skipBlanks (c :: s) = c :: s := by
  rw [skipBlanks, List.dropWhile_cons, isBlank_bare h]
  rfl

theorem lineEnd?_bare : lineEnd? (c :: s) = none := by
  have hcons : ∀ {d t}, c :: s = d :: t → isBare d = true := fun hs =>
    (List.cons_eq_cons.mp hs).1 ▸ h
  unfold lineEnd?
  rw [skipBlanks_bare h]
  split
  · next hs => cases hcons hs
  · dsimp only
    split
    · next hs => cases hs
    · next hs => cases hcons hs
    · rfl

theorem dropMark_bare : dropMark (c :: s) = c :: s := by
  rw [dropMark]
  exact fun _ hs => ne_of_isBare h (by decide) (List.cons_eq_cons.mp hs).1

end Bare

theorem key?_append {key rest : List Char} {c : Char} (hkey : key ≠ [])
    (hbare : ∀ c ∈ key, isBare c = true) (hc : isBare c = false) :
    key? (key ++ c :: rest) = some (.ofList key, c :: rest) := by
  have htake : (key ++ c :: rest).takeWhile isBare = key := by
    rw [List.takeWhile_append_of_pos hbare, List.takeWhile_cons, hc]
    exact List.append_nil key
  have hdrop : (key ++ c :: rest).dropWhile isBare = c :: rest := by
    rw [List.dropWhile_append_of_pos hbare, List.dropWhile_cons, hc]
    rfl
  obtain ⟨first, key, rfl⟩ := List.exists_cons_of_ne_nil hkey
  have hfirst := hbare first List.mem_cons_self
  unfold key?
  split
  · next hs => exact absurd (List.cons_eq_cons.mp hs).1 (ne_of_isBare hfirst (by decide))
  · next hs => exact absurd (List.cons_eq_cons.mp hs).1 (ne_of_isBare hfirst (by decide))
  · simp only [htake, hdrop, List.isEmpty_cons, Bool.false_eq_true, if_false]

theorem path?_append {key rest : List Char} (fuel : Nat) (hkey : key ≠ [])
    (hbare : ∀ c ∈ key, isBare c = true) :
    path? (fuel + 1) (key ++ ' ' :: '=' :: rest) = some ([.ofList key], '=' :: rest) := by
  have hblanks : skipBlanks (key ++ ' ' :: '=' :: rest) = key ++ ' ' :: '=' :: rest := by
    obtain ⟨first, key, rfl⟩ := List.exists_cons_of_ne_nil hkey
    exact skipBlanks_bare (hbare first List.mem_cons_self)
  rw [path?, hblanks, key?_append hkey hbare (by decide)]
  rfl

/-! ## Numbers -/

theorem digit?_of_isDigit {c : Char} (h : c.isDigit = true) :
    digit? 10 c = some (c.toNat - '0'.toNat) := by
  have hrange : '0' ≤ c ∧ c ≤ '9' := by
    simpa [Char.isDigit, Char.le_def] using h
  have hlt : c.toNat - '0'.toNat < 10 := by
    have hle : c.toNat ≤ '9'.toNat := hrange.2
    rw [show '9'.toNat = 57 from rfl] at hle
    rw [show '0'.toNat = 48 from rfl]
    omega
  simp only [digit?, hrange, and_self, if_true, hlt]

theorem moreDigits_append : ∀ {cs : List Char} (n : Nat) (rest : List Char),
    (∀ c ∈ cs, c.isDigit = true) →
      moreDigits 10 n (cs ++ '\n' :: rest) = (Nat.ofDigitChars 10 cs n, '\n' :: rest)
  | [], _, _, _ => rfl
  | c :: cs, n, rest, h => by
    obtain ⟨hc, hcs⟩ := List.forall_mem_cons.mp h
    have hne : c ≠ '_' := by
      rintro rfl
      cases hc
    rw [List.cons_append, moreDigits, digit?_of_isDigit hc, Nat.ofDigitChars_cons]
    · exact moreDigits_append _ rest hcs
    · exact fun _ _ hc => absurd hc hne

/-- A number begins with a digit that is not zero, unless it is zero. -/
theorem exists_toDigits_eq_cons {n : Nat} (h : 0 < n) : ∃ d cs, 0 < d ∧ d < 10
    ∧ Nat.toDigits 10 n = Nat.digitChar d :: cs := by
  induction n using Nat.strongRecOn with
  | ind n ih =>
    rcases Nat.lt_or_ge n 10 with hlt | hge
    · exact ⟨n, [], h, hlt, Nat.toDigits_of_lt_base hlt⟩
    · obtain ⟨d, cs, hd, hlt, hcs⟩ := ih (n / 10) (by omega) (by omega)
      have happend := Nat.toDigits_append_toDigits (b := 10) (n := n / 10) (d := n % 10)
        (by decide) (by omega) (Nat.mod_lt n (by decide))
      rw [Nat.div_add_mod, hcs] at happend
      exact ⟨d, _, hd, hlt, happend.symm⟩

theorem decimal?_toDigits (n : Nat) (rest : List Char) :
    decimal? (Nat.toDigits 10 n ++ '\n' :: rest) = some (n, '\n' :: rest) := by
  rcases Nat.eq_zero_or_pos n with rfl | hn
  · rfl
  obtain ⟨d, cs, hd, hlt, hcs⟩ := exists_toDigits_eq_cons hn
  have hdigits : ∀ c ∈ Nat.digitChar d :: cs, c.isDigit = true := fun c hc =>
    Nat.isDigit_of_mem_toDigits (by decide) (by decide) (hcs ▸ hc)
  obtain ⟨hfirst, hmore⟩ := List.forall_mem_cons.mp hdigits
  have hn : Nat.ofDigitChars 10 (Nat.toDigits 10 n) 0 = n :=
    Nat.ofDigitChars_toDigits (by decide) (by decide)
  rw [hcs, Nat.ofDigitChars_cons, Nat.mul_zero, Nat.zero_add] at hn
  have hread : ∀ s, decimal? (Nat.digitChar d :: s) = natural? 10 (Nat.digitChar d :: s) := by
    interval_cases d <;> exact fun _ => rfl
  rw [hcs, List.cons_append, hread, natural?, digit?_of_isDigit hfirst, Option.map_some,
    moreDigits_append _ _ hmore, hn]

theorem exists_toDigits_eq (n : Nat) :
    ∃ d cs, d < 10 ∧ Nat.toDigits 10 n = Nat.digitChar d :: cs := by
  rcases Nat.eq_zero_or_pos n with rfl | hn
  · exact ⟨0, [], by decide, rfl⟩
  · obtain ⟨d, cs, -, hlt, hcs⟩ := exists_toDigits_eq_cons hn
    exact ⟨d, cs, hlt, hcs⟩

theorem signed?_toDigits (n : Nat) (rest : List Char) :
    signed? (Nat.toDigits 10 n ++ '\n' :: rest) = some ((n : Int), '\n' :: rest) := by
  rcases Nat.eq_zero_or_pos n with rfl | hn
  · rfl
  obtain ⟨d, cs, hd, hlt, hcs⟩ := exists_toDigits_eq_cons hn
  have hread : ∀ s, signed? (Nat.digitChar d :: s)
      = (decimal? (Nat.digitChar d :: s)).map fun r => ((r.1 : Int), r.2) := by
    interval_cases d <;> exact fun _ => rfl
  rw [hcs, List.cons_append, hread, ← List.cons_append, ← hcs, decimal?_toDigits]
  rfl

theorem integer?_of_signed? {n : Int} {s rest : List Char} (hs : signed? s = some (n, rest))
    (h : -0x8000000000000000 ≤ n ∧ n < 0x8000000000000000) : integer? s = some (n, rest) := by
  rw [integer?, hs]
  simp only [Option.bind_eq_bind, Option.bind_some]
  exact if_pos h

theorem value?_digitChar {d : Nat} (h : d < 10) (fuel : Nat) (s : List Char) :
    value? (fuel + 1) (Nat.digitChar d :: s)
      = (integer? (Nat.digitChar d :: s)).map fun r => (.integer r.1, r.2) := by
  interval_cases d <;> rfl

theorem value?_toDigits {n : Nat} (h : n < 0x8000000000000000) (fuel : Nat) (rest : List Char) :
    value? (fuel + 1) (Nat.toDigits 10 n ++ '\n' :: rest) = some (.integer n, '\n' :: rest) := by
  obtain ⟨d, cs, hd, hcs⟩ := exists_toDigits_eq n
  have hinteger := integer?_of_signed? (signed?_toDigits n rest) (by omega)
  rw [hcs, List.cons_append] at hinteger ⊢
  rw [value?_digitChar hd, hinteger]
  rfl

/-! ## Names -/

theorem isPlain_of_isBare {c : Char} (h : isBare c = true) : isPlain c = true := by
  have hdelete : c.toNat ≠ 0x7f := fun hc => ne_of_isBare (d := '\x7f') h (by decide)
    (Char.toNat_inj.mp hc)
  have hcontrol : ∀ n < 0x20, isBare (Char.ofNat n) = false := by decide
  have hlow : 0x20 ≤ c.toNat := by
    by_contra hlt
    have hc := hcontrol c.toNat (by omega)
    rw [Char.ofNat_toNat, h] at hc
    cases hc
  simp [isPlain, hdelete, hlow]

theorem basicBody_append : ∀ {name : List Char} (rest : List Char),
    (∀ c ∈ name, isBare c = true) → basicBody none (name ++ '\x22' :: rest) = some (name, rest)
  | [], _, _ => rfl
  | c :: name, rest, h => by
    obtain ⟨hc, hname⟩ := List.forall_mem_cons.mp h
    have hquote : c ≠ '\x22' := ne_of_isBare hc (by decide)
    have hescape : c ≠ '\x5c' := ne_of_isBare hc (by decide)
    rw [List.cons_append, basicBody, if_neg hquote, if_neg hescape, if_pos (isPlain_of_isBare hc),
      basicBody_append rest hname]
    rfl

theorem value?_quoted {name : List Char} (h : ∀ c ∈ name, isBare c = true) (fuel : Nat)
    (rest : List Char) : value? (fuel + 1) ('\x22' :: (name ++ '\x22' :: '\n' :: rest))
      = some (.text (.ofList name), '\n' :: rest) := by
  have hstring : string? ('\x22' :: (name ++ '\x22' :: '\n' :: rest))
      = some (name, '\n' :: rest) := by
    rw [← basicBody_append _ h]
    rcases name with _ | ⟨c, name⟩
    · rfl
    · have hc : c ≠ '\x22' := ne_of_isBare (h c List.mem_cons_self) (by decide)
      rw [List.cons_append, string?]
      exact fun s hs => hc (List.cons_eq_cons.mp hs).1
  rw [value?, hstring]
  all_goals simp

/-! ## Values on a line -/

/-- The text is read as the value where the line ends behind it. -/
structure IsTextOf (text : String) (v : Value) : Prop where
  solid : ∀ c ∈ text.toList, isBlank c = false ∧ c ≠ '\r'
  value?_append : ∀ fuel rest,
    value? (fuel + 1) (text.toList ++ '\n' :: rest) = some (v, '\n' :: rest)

theorem solid_of_isBare {c : Char} (h : isBare c = true) : isBlank c = false ∧ c ≠ '\r' :=
  ⟨isBlank_bare h, ne_of_isBare h (by decide)⟩

theorem isTextOf_integer {n : Nat} (h : n < 0x8000000000000000) :
    IsTextOf (toString n) (.integer n) := by
  have hchars : (toString n).toList = Nat.toDigits 10 n := Nat.toList_repr
  constructor
  · intro c hc
    rw [hchars] at hc
    have hdigit : c.isDigit = true := Nat.isDigit_of_mem_toDigits (by decide) (by decide) hc
    exact solid_of_isBare (by simp [isBare, Char.isAlphanum, hdigit])
  · intro fuel rest
    rw [hchars]
    exact value?_toDigits h fuel rest

theorem isTextOf_boolean (b : Bool) : IsTextOf (if b then "true" else "false") (.boolean b) := by
  have hbare : ∀ c ∈ (if b then "true" else "false").toList, isBare c = true := by
    cases b <;> exact List.all_eq_true.mp rfl
  constructor
  · exact fun c hc => solid_of_isBare (hbare c hc)
  · cases b <;> exact fun _ _ => rfl

theorem isTextOf_text {name : String} (h : ∀ c ∈ name.toList, isBare c = true) :
    IsTextOf ("\x22" ++ name ++ "\x22") (.text name) := by
  have hchars : ("\x22" ++ name ++ "\x22").toList = '\x22' :: (name.toList ++ ['\x22']) := by
    simp
  constructor
  · intro c hc
    rw [hchars, List.mem_cons, List.mem_append, List.mem_singleton] at hc
    rcases hc with rfl | hc | rfl
    · decide
    · exact solid_of_isBare (h c hc)
    · decide
  · intro fuel rest
    have hvalue := value?_quoted h fuel rest
    rw [String.ofList_toList] at hvalue
    rw [hchars, List.cons_append, List.append_assoc]
    exact hvalue

/-! ## Lines -/

/-- A line with one entry. -/
structure Line where
  key : String
  text : String
  value : Value

namespace Line

def chars (l : Line) : List Char := l.key.toList ++ ' ' :: '=' :: ' ' :: l.text.toList ++ ['\n']

def statement (l : Line) : Statement := .entry [l.key] l.value

def entry (l : Line) : String × Value := (l.key, l.value)

/-- The key is a bare one, and the text behind it is read as the value. -/
structure IsPlain (l : Line) : Prop where
  key_ne_nil : l.key.toList ≠ []
  bare : ∀ c ∈ l.key.toList, isBare c = true
  isTextOf : IsTextOf l.text l.value

variable {l : Line} {lines : List Line} {rest : List Char}

theorem chars_append (l : Line) (rest : List Char) : l.chars ++ rest
    = l.key.toList ++ ' ' :: '=' :: ' ' :: (l.text.toList ++ '\n' :: rest) := by
  simp only [chars, List.append_assoc, List.cons_append, List.nil_append]

namespace IsPlain

variable (h : l.IsPlain)
include h

theorem exists_chars_eq : ∃ c s, l.chars = c :: s ∧ isBare c = true := by
  obtain ⟨c, key, hkey⟩ := List.exists_cons_of_ne_nil h.key_ne_nil
  refine ⟨c, _, by rw [chars, hkey]; rfl, h.bare c ?_⟩
  rw [hkey]
  exact List.mem_cons_self

theorem skipBlanks_text : skipBlanks (l.text.toList ++ '\n' :: rest)
    = l.text.toList ++ '\n' :: rest := by
  rcases htext : l.text.toList with _ | ⟨c, s⟩
  · rfl
  · have hblank : isBlank c = false := (h.isTextOf.solid c (by simp [htext])).1
    rw [List.cons_append, skipBlanks, List.dropWhile_cons, hblank]
    rfl

theorem statement?_append :
    statement? (l.chars ++ rest) = some (l.statement, '\n' :: rest) := by
  obtain ⟨c, s, hs, hc⟩ := h.exists_chars_eq
  have hpath : path? (l.chars ++ rest).length (l.chars ++ rest)
      = some ([l.key], '=' :: ' ' :: (l.text.toList ++ '\n' :: rest)) := by
    have hfuel : (l.chars ++ rest).length = (s ++ rest).length + 1 := by
      rw [hs]
      rfl
    rw [hfuel, chars_append, path?_append _ h.key_ne_nil h.bare, String.ofList_toList]
  unfold statement?
  split
  · next hbracket =>
    rw [hs] at hbracket
    exact absurd (List.cons_eq_cons.mp hbracket).1 (ne_of_isBare hc (by decide))
  · rw [hpath]
    have hblanks : skipBlanks (' ' :: (l.text.toList ++ '\n' :: rest))
        = l.text.toList ++ '\n' :: rest := h.skipBlanks_text
    simp only [Option.bind_eq_bind, Option.bind_some, hblanks, List.length_cons,
      h.isTextOf.value?_append]
    rfl

theorem statements?_append (fuel : Nat) : statements? (fuel + 1) (l.chars ++ rest)
    = (statements? fuel rest).map (l.statement :: ·) := by
  have hstatement : statement? (l.chars ++ rest) = some (l.statement, '\n' :: rest) :=
    h.statement?_append
  obtain ⟨c, s, hs, hc⟩ := h.exists_chars_eq
  rw [hs, List.cons_append] at hstatement ⊢
  rw [statements?, lineEnd?_bare hc, skipBlanks_bare hc]
  · simp only [hstatement, Option.bind_eq_bind, Option.bind_some]
    show (statements? fuel rest).bind _ = _
    rcases statements? fuel rest with _ | statements <;> rfl
  · exact List.cons_ne_nil _ _

theorem return_notMem_chars : '\r' ∉ l.chars := by
  have hkey : '\r' ∉ l.key.toList := fun hc => ne_of_isBare (h.bare _ hc) (by decide) rfl
  have htext : '\r' ∉ l.text.toList := fun hc => (h.isTextOf.solid _ hc).2 rfl
  simp [chars, hkey, htext]

end IsPlain

theorem statements?_flatMap (h : ∀ l ∈ lines, l.IsPlain) {fuel : Nat}
    (hfuel : lines.length ≤ fuel) :
    statements? fuel (lines.flatMap chars) = some (lines.map statement) := by
  induction lines generalizing fuel with
  | nil => cases fuel <;> rfl
  | cons l lines ih =>
    obtain ⟨hl, hlines⟩ := List.forall_mem_cons.mp h
    obtain ⟨fuel, rfl⟩ := Nat.exists_eq_succ_of_ne_zero (Nat.ne_zero_of_lt hfuel)
    rw [List.flatMap_cons, hl.statements?_append, ih hlines (Nat.le_of_succ_le_succ hfuel)]
    rfl

theorem length_le_length_flatMap (h : ∀ l ∈ lines, l.IsPlain) :
    lines.length ≤ (lines.flatMap chars).length := by
  induction lines with
  | nil => exact Nat.le_refl 0
  | cons l lines ih =>
    obtain ⟨hl, hlines⟩ := List.forall_mem_cons.mp h
    obtain ⟨c, s, hs, -⟩ := hl.exists_chars_eq
    have hle := ih hlines
    rw [List.flatMap_cons, List.length_append, hs, List.length_cons, List.length_cons]
    omega

end Line

/-! ## Documents -/

theorem unifyLines_of_notMem : ∀ {s : List Char}, '\r' ∉ s → unifyLines s = s
  | [], _ => rfl
  | c :: s, h => by
    obtain ⟨hc, hs⟩ := List.ne_and_not_mem_of_not_mem_cons h
    rw [unifyLines, unifyLines_of_notMem hs]
    exact fun _ hr => absurd hr.symm hc

theorem Table.build_statements : ∀ (lines : List Line) (t : Table),
    (t.map Prod.fst ++ lines.map Line.key).Nodup →
    build [] t (lines.map Line.statement) = some (t ++ lines.map Line.entry)
  | [], t, _ => by rw [List.map_nil, List.map_nil, List.append_nil, build]
  | l :: lines, t, h => by
    have hkeys : t.map Prod.fst ++ (l :: lines).map Line.key
        = (t.insert l.key l.value).map Prod.fst ++ lines.map Line.key := by
      simp [insert]
    have hkey : t.find? l.key = none := by
      have hnew : l.key ∉ t.map Prod.fst := fun hmem =>
        (List.nodup_append.mp h).2.2 _ hmem _ List.mem_cons_self rfl
      rw [find?, List.lookup_eq_none_iff]
      intro entry hentry
      rw [bne_iff_ne]
      rintro heq
      exact hnew (heq ▸ List.mem_map_of_mem hentry)
    have hassign : t.assign [l.key] l.value = some (t.insert l.key l.value) := by
      rw [assign, hkey]
    have ih := build_statements lines (t.insert l.key l.value) (hkeys ▸ h)
    rw [List.map_cons, Line.statement, build, within, hassign]
    refine ih.trans ?_
    rw [insert, List.append_assoc]
    rfl

/-- A document of plain lines is the table of their entries. -/
theorem parse?_eq_of_lines {s : String} {lines : List Line}
    (hs : s.toList = lines.flatMap Line.chars) (h : ∀ l ∈ lines, l.IsPlain)
    (hkeys : (lines.map Line.key).Nodup) : parse? s = some (lines.map Line.entry) := by
  have hreturn : '\r' ∉ lines.flatMap Line.chars := by
    intro hc
    obtain ⟨l, hl, hc⟩ := List.mem_flatMap.mp hc
    exact (h l hl).return_notMem_chars hc
  have hmark : dropMark (lines.flatMap Line.chars) = lines.flatMap Line.chars := by
    rcases lines with _ | ⟨l, lines⟩
    · rfl
    · obtain ⟨c, s, hs, hc⟩ := (h l List.mem_cons_self).exists_chars_eq
      rw [List.flatMap_cons, hs, List.cons_append, dropMark_bare hc]
  have hstatements := Line.statements?_flatMap h (Line.length_le_length_flatMap h)
  have hbuild := Table.build_statements lines [] hkeys
  simp only [parse?, hs, hmark, unifyLines_of_notMem hreturn, hstatements, Option.bind_eq_bind,
    Option.bind_some, hbuild, List.nil_append]

end WellLog.Toml
