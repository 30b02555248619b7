import Mathlib.Data.List.Basic
import Mathlib.Tactic.SplitIfs
import WellLog.Proofs.Quantity
import WellLog.Row

/-!
# Values as a record writes them

A `Datum` is one value of a code together with every choice that its writer had: the width of each
number of variable width, and the parts of a number that is not IEEE 754. What it means is
`Datum.value`, and `Datum.bytes` is what stands in the record.

Where the code is known, the bytes say where they end: behind a datum of the code anything may
follow, and still the datum and what follows are determined (`Datum.append_inj`,
`Datum.flatMap_append_inj`).
-/

namespace WellLog

/-- A number of variable width in one of the widths that can hold it. -/
structure VarNumber where
  width : Uvari.Width
  value : Nat
  fits : value < width.limit

namespace VarNumber

def bytes (n : VarNumber) : List UInt8 := Uvari.encode n.width n.value

@[simp] theorem length_bytes (n : VarNumber) : n.bytes.length = n.width.bytes :=
  Uvari.length_encode ..

theorem value_lt (n : VarNumber) : n.value < 0x40000000 := by
  have h := n.fits
  cases hw : n.width <;> rw [hw] at h <;> simp only [Uvari.Width.limit] at h <;> omega

theorem toInt_ofNat_value (n : VarNumber) : (Int32.ofNat n.value).toInt = n.value := by
  have h := n.value_lt
  rw [Int32.toInt_ofNat_of_lt]
  omega

theorem append_inj {m n : VarNumber} {r s : List UInt8} (h : m.bytes ++ r = n.bytes ++ s) :
    m = n ∧ r = s := by
  have hd := Uvari.decode?_encode m.fits r
  rw [show Uvari.encode m.width m.value ++ r = Uvari.encode n.width n.value ++ s from h,
    Uvari.decode?_encode n.fits s] at hd
  simp only [Option.some.injEq, Prod.mk.injEq] at hd
  obtain ⟨hv, hb⟩ := hd
  obtain ⟨w, v, hm⟩ := m
  obtain ⟨w', v', hn⟩ := n
  obtain rfl : v' = v := hv
  obtain rfl : w' = w := by
    cases w <;> cases w' <;> first | rfl | simp [Uvari.Width.bytes] at hb
  exact ⟨rfl, List.append_cancel_left h⟩

/-- The mark of the width stands above the number. -/
theorem mark_add_mod_limit {first : UInt8} {tail : List UInt8}
    (h : tail.length + 1 = (Uvari.Width.ofFirst first).bytes) :
    (Uvari.Width.ofFirst first).mark
        + ofBigEndian (first :: tail) % (Uvari.Width.ofFirst first).limit
      = ofBigEndian (first :: tail) := by
  have hf := first.toNat_lt
  have h80 : first < 0x80 ↔ first.toNat < 128 := UInt8.lt_iff_toNat_lt
  have hc0 : first < 0xc0 ↔ first.toNat < 192 := UInt8.lt_iff_toNat_lt
  unfold Uvari.Width.ofFirst at h ⊢
  split_ifs at h ⊢ with h1 h2
  · obtain rfl : tail = [] := List.length_eq_zero_iff.mp (Nat.succ.inj h)
    rw [h80] at h1
    simp only [Uvari.Width.mark, Uvari.Width.limit, ofBigEndian, List.foldl_cons, List.foldl_nil]
    omega
  · obtain ⟨b, rfl⟩ := List.length_eq_one_iff.mp (Nat.succ.inj h)
    have hb := b.toNat_lt
    rw [h80] at h1
    rw [hc0] at h2
    simp only [Uvari.Width.mark, Uvari.Width.limit, ofBigEndian, List.foldl_cons, List.foldl_nil]
    omega
  · obtain ⟨b, d, e, rfl⟩ := List.length_eq_three.mp (Nat.succ.inj h)
    have hb := b.toNat_lt
    have hd := d.toNat_lt
    have he := e.toNat_lt
    rw [hc0] at h2
    simp only [Uvari.Width.mark, Uvari.Width.limit, ofBigEndian, List.foldl_cons, List.foldl_nil]
    omega

theorem exists_bytes_eq {first : UInt8} {tail : List UInt8}
    (h : tail.length + 1 = (Uvari.Width.ofFirst first).bytes) :
    ∃ n : VarNumber, n.value = Uvari.value (Uvari.Width.ofFirst first) (first :: tail)
      ∧ n.bytes = first :: tail := by
  have hlt : Uvari.value (Uvari.Width.ofFirst first) (first :: tail)
      < (Uvari.Width.ofFirst first).limit := by
    refine Nat.mod_lt _ ?_
    cases Uvari.Width.ofFirst first <;> decide
  refine ⟨⟨_, _, hlt⟩, rfl, ?_⟩
  simp only [bytes, Uvari.encode, Uvari.value, mark_add_mod_limit h, ← h]
  exact toBigEndian_ofBigEndian (first :: tail)

end VarNumber

/-- The body of an identifier. -/
structure ShortText where
  body : List UInt8
  fits : body.length < 256

namespace ShortText

def bytes (t : ShortText) : List UInt8 := encodeIdent t.body

@[simp] theorem length_bytes (t : ShortText) : t.bytes.length = 1 + t.body.length := by
  rw [bytes, encodeIdent, List.length_cons, Nat.add_comm]

theorem append_inj {t u : ShortText} {r s : List UInt8} (h : t.bytes ++ r = u.bytes ++ s) :
    t = u ∧ r = s := by
  have hd := ident?_encodeIdent t.fits r
  rw [show encodeIdent t.body ++ r = encodeIdent u.body ++ s from h,
    ident?_encodeIdent u.fits s] at hd
  simp only [Option.some.injEq, Prod.mk.injEq] at hd
  obtain ⟨b, ht⟩ := t
  obtain ⟨b', hu⟩ := u
  obtain rfl : b' = b := hd.1
  exact ⟨rfl, List.append_cancel_left h⟩

end ShortText

/-- The body of a text, and the width of its count. -/
structure CountedText where
  width : Uvari.Width
  body : List UInt8
  fits : body.length < width.limit

namespace CountedText

def count (t : CountedText) : VarNumber := ⟨t.width, t.body.length, t.fits⟩

def bytes (t : CountedText) : List UInt8 := encodeAscii t.width t.body

theorem bytes_eq (t : CountedText) : t.bytes = t.count.bytes ++ t.body := rfl

theorem append_inj {t u : CountedText} {r s : List UInt8} (h : t.bytes ++ r = u.bytes ++ s) :
    t = u ∧ r = s := by
  simp only [bytes_eq, List.append_assoc] at h
  obtain ⟨hc, hrest⟩ := VarNumber.append_inj h
  simp only [count, VarNumber.mk.injEq] at hc
  obtain ⟨hb, hr⟩ := List.append_inj hrest hc.2
  obtain ⟨w, b, ht⟩ := t
  obtain ⟨w', b', hu⟩ := u
  obtain rfl : w = w' := hc.1
  obtain rfl : b = b' := hb
  exact ⟨rfl, hr⟩

end CountedText

/-- The name of an object. -/
structure WrittenName where
  origin : VarNumber
  copy : UInt8
  id : ShortText

namespace WrittenName

def bytes (n : WrittenName) : List UInt8 := n.origin.bytes ++ n.copy :: n.id.bytes

/-- Its origin and copy number. -/
def head (n : WrittenName) : Int32 × UInt8 := (Int32.ofNat n.origin.value, n.copy)

def name (n : WrittenName) : ObjectName := ⟨Int32.ofNat n.origin.value, n.copy, latin1 n.id.body⟩

theorem append_inj {m n : WrittenName} {r s : List UInt8} (h : m.bytes ++ r = n.bytes ++ s) :
    m = n ∧ r = s := by
  simp only [bytes, List.append_assoc, List.cons_append] at h
  obtain ⟨ho, hrest⟩ := VarNumber.append_inj h
  obtain ⟨hc, hrest⟩ := List.cons_eq_cons.mp hrest
  obtain ⟨hi, hr⟩ := ShortText.append_inj hrest
  obtain ⟨o, c, i⟩ := m
  obtain ⟨o', c', i'⟩ := n
  obtain rfl : o = o' := ho
  obtain rfl : c = c' := hc
  obtain rfl : i = i' := hi
  exact ⟨rfl, hr⟩

end WrittenName

/-- Each part has a value that its bits can hold. The calendar is not asked. -/
structure Dtime.IsWritable (t : Dtime) : Prop where
  year : t.year < 256
  zone : t.zone < 16
  month : t.month < 16
  day : t.day < 256
  hour : t.hour < 256
  minute : t.minute < 256
  second : t.second < 256
  millisecond : t.millisecond < 65536

/-- The parts as a date and a time of day, whether there is such a day or not. -/
def Dtime.timestamp (t : Dtime) : Timestamp :=
  ⟨1900 + t.year, t.month, t.day, t.hour, t.minute, t.second, 1000000 * t.millisecond⟩

structure WrittenTime where
  time : Dtime
  fits : time.IsWritable

namespace WrittenTime

def bytes (t : WrittenTime) : List UInt8 :=
  [.ofNat t.time.year, .ofNat (16 * t.time.zone + t.time.month), .ofNat t.time.day,
    .ofNat t.time.hour, .ofNat t.time.minute, .ofNat t.time.second,
    .ofNat (t.time.millisecond / 256), .ofNat t.time.millisecond]

@[simp] theorem length_bytes (t : WrittenTime) : t.bytes.length = 8 := rfl

theorem ofBytes_bytes (t : WrittenTime) : Dtime.ofBytes t.bytes = t.time := by
  obtain ⟨⟨y, z, mo, d, h, mi, s, ms⟩, hy, hz, hmo, hd, hh, hmi, hs, hms⟩ := t
  simp only at hy hz hmo hd hh hmi hs hms
  simp only [Dtime.ofBytes, bytes, List.getD_cons_zero, List.getD_cons_succ, UInt8.toNat_ofNat',
    Dtime.mk.injEq]
  omega

theorem eq_of_bytes_eq {t u : WrittenTime} (h : t.bytes = u.bytes) : t = u := by
  have htime : t.time = u.time := by rw [← ofBytes_bytes, h, ofBytes_bytes]
  cases t
  cases u
  cases htime
  rfl

theorem exists_bytes_eq :
    ∀ bytes : List UInt8, bytes.length = 8 → ∃ t : WrittenTime, t.bytes = bytes
  | [y, z, d, h, mi, s, ms, ms'], _ => by
    have hy := y.toNat_lt
    have hz := z.toNat_lt
    have hd := d.toNat_lt
    have hh := h.toNat_lt
    have hmi := mi.toNat_lt
    have hs := s.toNat_lt
    have hms := ms.toNat_lt
    have hms' := ms'.toNat_lt
    have hlow : (256 * ms.toNat + ms'.toNat) / 256 = ms.toNat := by omega
    have hzone : 16 * (z.toNat / 16) + z.toNat % 16 = z.toNat := Nat.div_add_mod ..
    refine ⟨⟨Dtime.ofBytes [y, z, d, h, mi, s, ms, ms'], ?_⟩, ?_⟩
    · constructor <;>
        simp only [Dtime.ofBytes, List.getD_cons_zero, List.getD_cons_succ] <;> omega
    · have hlast : UInt8.ofNat (256 * ms.toNat + ms'.toNat) = ms' := by
        apply UInt8.toNat_inj.mp
        rw [UInt8.toNat_ofNat']
        omega
      simp only [bytes, Dtime.ofBytes, List.getD_cons_zero, List.getD_cons_succ, hlow, hzone,
        hlast, UInt8.ofNat_toNat]

end WrittenTime

/-- One value of a code. -/
inductive Datum where
  | numeric (q : Quantity)
  | uvari (n : VarNumber)
  | origin (n : VarNumber)
  | ident (t : ShortText)
  | units (t : ShortText)
  | ascii (t : CountedText)
  | dtime (t : WrittenTime)
  | obname (n : WrittenName)
  | objref (objectType : ShortText) (n : WrittenName)
  | attref (objectType : ShortText) (n : WrittenName) (label : ShortText)

namespace Datum

def code : Datum → Code
  | numeric q => .numeric q.code
  | uvari _ => .uvari
  | origin _ => .origin
  | ident _ => .ident
  | units _ => .units
  | ascii _ => .ascii
  | dtime _ => .dtime
  | obname _ => .obname
  | objref _ _ => .objref
  | attref _ _ _ => .attref

def bytes : Datum → List UInt8
  | numeric q => q.bytes
  | uvari n | origin n => n.bytes
  | ident t | units t => t.bytes
  | ascii t => t.bytes
  | dtime t => t.bytes
  | obname n => n.bytes
  | objref objectType n => objectType.bytes ++ n.bytes
  | attref objectType n label => objectType.bytes ++ n.bytes ++ label.bytes

/-- What a row gives back for it. An identifier ends at its first null character, and a number of
variable width is a signed word. -/
def value : Datum → Value
  | numeric q => .number q.number
  | uvari n | origin n => .number (.i32 (Int32.ofNat n.value))
  | ident t | units t => .ident (latin1 (t.body.takeWhile (· ≠ 0)))
  | ascii t => .object (.text (.decode t.body))
  | dtime t => .object (.time t.time.timestamp)
  | obname n => .object (.name n.name)
  | objref objectType n => .object (.ref ⟨latin1 objectType.body, n.name⟩)
  | attref objectType n label =>
    .object (.attribute ⟨latin1 objectType.body, n.name, latin1 label.body⟩)

/-- A row whose identifiers have the given room can hold it. -/
def Fits (identCapacity : Nat) : Datum → Prop
  | ident t | units t => t.body.length ≤ identCapacity
  | dtime t => t.time.IsDate ∧ t.time.IsTimeOfDay
  | _ => True

instance (identCapacity : Nat) : ∀ d : Datum, Decidable (d.Fits identCapacity)
  | ident t | units t => inferInstanceAs (Decidable (t.body.length ≤ identCapacity))
  | dtime t => inferInstanceAs (Decidable (t.time.IsDate ∧ t.time.IsTimeOfDay))
  | numeric _ | uvari _ | origin _ | ascii _ | obname _ | objref _ _ | attref _ _ _ =>
    .isTrue trivial

/-- How a row stores it. -/
def field : Datum → Field
  | numeric q => .number q.number
  | uvari n | origin n => .number (.i32 (Int32.ofNat n.value))
  | ident t | units t => .ident t.body
  | ascii t => .object (.text (.decode t.body))
  | dtime t => .object (.time t.time.timestamp)
  | obname n => .object (.name n.name)
  | objref objectType n => .object (.ref ⟨latin1 objectType.body, n.name⟩)
  | attref objectType n label =>
    .object (.attribute ⟨latin1 objectType.body, n.name, latin1 label.body⟩)

def staged (identCapacity : Nat) : Datum → Except Refusal Field
  | ident t | units t => Field.ofIdent identCapacity t.body
  | dtime t => Field.ofTime t.bytes
  | d => .ok d.field

theorem staged_eq_ok_iff {identCapacity : Nat} {d : Datum} {f : Field} :
    d.staged identCapacity = .ok f ↔ d.Fits identCapacity ∧ f = d.field := by
  have hok : (.ok d.field : Except Refusal Field) = .ok f ↔ True ∧ f = d.field := by
    rw [true_and, Except.ok.injEq, eq_comm]
  have hident : ∀ t : ShortText, Field.ofIdent identCapacity t.body = .ok f
      ↔ t.body.length ≤ identCapacity ∧ f = .ident t.body := by
    intro t
    rw [Field.ofIdent]
    split_ifs with h
    · simp only [h, true_and, Except.ok.injEq, eq_comm]
    · simp only [h, false_and]
  cases d with
  | ident t => exact hident t
  | units t => exact hident t
  | dtime t =>
    simp only [staged, Fits, Field.ofTime, t.ofBytes_bytes, field]
    split
    · next s hs =>
      obtain ⟨hfits, rfl⟩ := Dtime.timestamp?_eq_some_iff.mp hs
      simp only [hfits, and_self, true_and, Except.ok.injEq, eq_comm, Dtime.timestamp]
    · next hs =>
      have hfits := Dtime.timestamp?_eq_none_iff.mp hs
      simp only [hfits, false_and, reduceCtorEq]
  | _ => exact hok

theorem length_bytes_pos (d : Datum) : 0 < d.bytes.length := by
  have hv : ∀ n : VarNumber, 0 < n.bytes.length := by
    intro n
    rw [n.length_bytes]
    cases n.width <;> decide
  have ht : ∀ t : ShortText, 0 < t.bytes.length := fun t => by rw [t.length_bytes]; omega
  have hn : ∀ n : WrittenName, 0 < n.bytes.length := fun n => by
    have ho := hv n.origin
    rw [WrittenName.bytes, List.length_append]
    omega
  cases d with
  | numeric q =>
    rw [bytes, q.length_bytes]
    cases q.code <;> decide
  | uvari n => exact hv n
  | origin n => exact hv n
  | ident t => exact ht t
  | units t => exact ht t
  | ascii t =>
    have hc := hv t.count
    rw [bytes, t.bytes_eq, List.length_append]
    omega
  | dtime t => rw [bytes, t.length_bytes]; decide
  | obname n => exact hn n
  | objref objectType n =>
    have ho := ht objectType
    rw [bytes, List.length_append]
    omega
  | attref objectType n label =>
    have ho := ht objectType
    rw [bytes, List.length_append, List.length_append]
    omega

/-- A code and the bytes of one of its data determine the datum, whatever follows it. -/
theorem append_inj {d e : Datum} (hc : d.code = e.code) {r s : List UInt8}
    (h : d.bytes ++ r = e.bytes ++ s) : d = e ∧ r = s := by
  cases d with
  | numeric q =>
    cases e with
    | numeric p =>
      have hcode : q.code = p.code := by simpa only [code, Code.numeric.injEq] using hc
      have hlen : q.bytes.length = p.bytes.length := by
        rw [q.length_bytes, p.length_bytes, hcode]
      obtain ⟨hb, hr⟩ := List.append_inj h hlen
      exact ⟨congrArg numeric (Quantity.eq_of_bytes_eq hcode hb), hr⟩
    | _ => cases hc
  | uvari m =>
    cases e with
    | uvari n => exact (VarNumber.append_inj h).imp_left (congrArg uvari)
    | _ => cases hc
  | origin m =>
    cases e with
    | origin n => exact (VarNumber.append_inj h).imp_left (congrArg origin)
    | _ => cases hc
  | ident t =>
    cases e with
    | ident u => exact (ShortText.append_inj h).imp_left (congrArg ident)
    | _ => cases hc
  | units t =>
    cases e with
    | units u => exact (ShortText.append_inj h).imp_left (congrArg units)
    | _ => cases hc
  | ascii t =>
    cases e with
    | ascii u => exact (CountedText.append_inj h).imp_left (congrArg ascii)
    | _ => cases hc
  | dtime t =>
    cases e with
    | dtime u =>
      obtain ⟨hb, hr⟩ := List.append_inj h (t.length_bytes.trans u.length_bytes.symm)
      exact ⟨congrArg dtime (WrittenTime.eq_of_bytes_eq hb), hr⟩
    | _ => cases hc
  | obname m =>
    cases e with
    | obname n => exact (WrittenName.append_inj h).imp_left (congrArg obname)
    | _ => cases hc
  | objref o m =>
    cases e with
    | objref p n =>
      simp only [bytes, List.append_assoc] at h
      obtain ⟨rfl, hrest⟩ := ShortText.append_inj h
      obtain ⟨rfl, hr⟩ := WrittenName.append_inj hrest
      exact ⟨rfl, hr⟩
    | _ => cases hc
  | attref o m l =>
    cases e with
    | attref p n k =>
      simp only [bytes, List.append_assoc] at h
      obtain ⟨rfl, hrest⟩ := ShortText.append_inj h
      obtain ⟨rfl, htail⟩ := WrittenName.append_inj hrest
      obtain ⟨rfl, hr⟩ := ShortText.append_inj htail
      exact ⟨rfl, hr⟩
    | _ => cases hc

/-- One datum for each code of a span, one behind the other. -/
theorem flatMap_append_inj {r s : List UInt8} :
    ∀ {ds es : List Datum}, ds.map code = es.map code →
      ds.flatMap bytes ++ r = es.flatMap bytes ++ s → ds = es ∧ r = s
  | [], [], _, h => ⟨rfl, h⟩
  | [], e :: es, hc, _ => by simp at hc
  | d :: ds, [], hc, _ => by simp at hc
  | d :: ds, e :: es, hc, h => by
    simp only [List.map_cons, List.cons.injEq] at hc
    simp only [List.flatMap_cons, List.append_assoc] at h
    obtain ⟨rfl, hrest⟩ := append_inj hc.1 h
    obtain ⟨rfl, hr⟩ := flatMap_append_inj hc.2 hrest
    exact ⟨rfl, hr⟩

end Datum

end WellLog
