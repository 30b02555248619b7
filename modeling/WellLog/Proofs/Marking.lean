import Mathlib.Data.Set.Function
import WellLog.Proofs.Moving

/-!
# Marks of widths

The top bits of the first byte are the mark of a width, and a mask takes the mark off the word. What
is read in this way is the number at the start of the bytes (`Uvari.decode?_eq_decodeMasked?`), and
a cursor and a motion read the same, wherever they stand (`Cursor.uvari_eq`, `Motion.run_uvari`).

Nothing is read only where bytes are missing (`Uvari.decode?_eq_none_iff`), and else the bytes that
are read are the number in the width that they announce (`Uvari.decode?_eq_some_iff`). So a number
is written in as many ways as there are widths that can hold it (`Uvari.bijOn_tagged`).
-/

namespace WellLog

namespace Uvari

namespace Width

variable {width : Width} {n : Nat}

/-- The width that the two top bits of the first byte announce. -/
def ofTopBits (first : UInt8) : Width :=
  if first &&& 0x80 = 0 then one else if first &&& 0x40 = 0 then two else four

/-- The word without the mark. -/
def masked : Width → List UInt8 → UInt32
  | one, body => (body.headD 0).toUInt32
  | two, body => (UInt16.ofNat (ofBigEndian body) &&& 0x3fff).toUInt32
  | four, body => UInt32.ofNat (ofBigEndian body) &&& 0x3fffffff

theorem bytes_injective {v w : Width} (h : v.bytes = w.bytes) : v = w := by
  cases v <;> cases w <;> first | rfl | cases h

theorem ofTopBits_eq_ofFirst (first : UInt8) : ofTopBits first = ofFirst first := by
  have hbits : ∀ n < 256, (n &&& 0x80 = 0 ↔ n < 0x80)
      ∧ (¬n < 0x80 → (n &&& 0x40 = 0 ↔ n < 0xc0)) := by
    decide +kernel
  obtain ⟨htop, hnext⟩ := hbits first.toNat first.toNat_lt
  have h₁ : first &&& 0x80 = 0 ↔ first < 0x80 := by
    rw [← UInt8.toNat_inj, UInt8.toNat_and, UInt8.lt_iff_toNat_lt]
    exact htop
  have h₂ : ¬first < 0x80 → (first &&& 0x40 = 0 ↔ first < 0xc0) := by
    rw [← UInt8.toNat_inj, UInt8.toNat_and, UInt8.lt_iff_toNat_lt, UInt8.lt_iff_toNat_lt]
    exact hnext
  unfold ofTopBits ofFirst
  by_cases hlow : first < 0x80
  · rw [if_pos (h₁.mpr hlow), if_pos hlow]
  · rw [if_neg (mt h₁.mp hlow), if_neg hlow]
    simp only [h₂ hlow]

/-- The mask takes off the mark and nothing else. -/
theorem toNat_masked_encode (h : n < width.limit) :
    (width.masked (encode width n)).toNat = n := by
  have hvalue := value_encode h
  have hlt := ofBigEndian_lt (encode width n)
  rw [length_encode] at hlt
  cases width with
  | one =>
    show (UInt8.ofNat (0 + n)).toUInt32.toNat = n
    rw [UInt8.toNat_toUInt32, UInt8.toNat_ofNat', Nat.zero_add]
    exact Nat.mod_eq_of_lt (Nat.lt_trans h (by decide))
  | two =>
    rw [masked, UInt16.toNat_toUInt32, UInt16.toNat_and, UInt16.toNat_ofNat_of_lt' hlt]
    exact (Nat.and_two_pow_sub_one_eq_mod _ 14).trans hvalue
  | four =>
    rw [masked, UInt32.toNat_and, UInt32.toNat_ofNat_of_lt' hlt]
    exact (Nat.and_two_pow_sub_one_eq_mod _ 30).trans hvalue

theorem or_mark (h : n < width.limit) : width.mark ||| n = width.mark + n := by
  cases width with
  | one => exact (Nat.zero_or n).trans (Nat.zero_add n).symm
  | two => exact (Nat.two_pow_add_eq_or_of_lt (Nat.lt_trans h (by decide : 2 ^ 14 < 2 ^ 15)) 1).symm
  | four => exact (Nat.two_pow_add_eq_or_of_lt (i := 30) h 3).symm

end Width

def announced? (bytes : List UInt8) : Option Width := bytes.head?.map Width.ofTopBits

/-- How many bytes the number at the start takes, as far as the bytes tell. -/
def needed : List UInt8 → Nat
  | [] => 1
  | first :: _ => (Width.ofTopBits first).bytes

def decodeMasked? (bytes : List UInt8) : Option (UInt32 × Nat) := do
  let first ← bytes.head?
  let width := Width.ofTopBits first
  let body ← slice? bytes 0 width.bytes
  pure (width.masked body, width.bytes)

/-- The number with the mark of the width. -/
def tagged (width : Width) (n : Nat) : List UInt8 := toBigEndian width.bytes (width.mark ||| n)

variable {width : Width} {bytes rest : List UInt8} {n w : Nat}

theorem tagged_eq_encode (h : n < width.limit) : tagged width n = encode width n := by
  rw [tagged, encode, Width.or_mark h]

/-! ## What is read and what was written -/

theorem decode?_of_lt (h : bytes.length < needed bytes) : decode? bytes = none := by
  rcases bytes with _ | ⟨first, tail⟩
  · rfl
  · rw [needed, Width.ofTopBits_eq_ofFirst, List.length_cons] at h
    exact if_neg (Nat.not_le_of_lt h)

theorem decodeMasked?_of_lt (h : bytes.length < needed bytes) : decodeMasked? bytes = none := by
  rcases bytes with _ | ⟨first, tail⟩
  · rfl
  · have hs : slice? (first :: tail) 0 (Width.ofTopBits first).bytes = none :=
      if_neg fun hs => Nat.not_le_of_lt h hs.2
    simp only [decodeMasked?, List.head?_cons, Option.bind_eq_bind, Option.bind_some, hs,
      Option.bind_none]

theorem decodeMasked?_encode (h : n < width.limit) (rest : List UInt8) :
    ∃ v, v.toNat = n ∧ decodeMasked? (encode width n ++ rest) = some (v, width.bytes) := by
  obtain ⟨first, tail, eq, hw⟩ := encode_eq_cons h
  have hs : slice? (encode width n ++ rest) 0 width.bytes = some (encode width n) := by
    have hs := slice?_append (a := []) (b := encode width n) (c := rest)
    rwa [length_encode, List.length_nil, Nat.zero_add, List.nil_append] at hs
  refine ⟨width.masked (encode width n), Width.toNat_masked_encode h, ?_⟩
  have hhead : (encode width n ++ rest).head? = some first := by rw [eq]; rfl
  simp only [decodeMasked?, hhead, Option.bind_eq_bind, Option.bind_some,
    Width.ofTopBits_eq_ofFirst, hw, hs]
  rfl

/-- Bytes that are not too few begin with a number. -/
theorem exists_eq_bytes_append (h : needed bytes ≤ bytes.length) :
    ∃ (x : VarNumber) (rest : List UInt8), bytes = x.bytes ++ rest := by
  rcases bytes with _ | ⟨first, tail⟩
  · cases h
  · rw [needed, Width.ofTopBits_eq_ofFirst, List.length_cons] at h
    obtain ⟨k, hk⟩ : ∃ k, (Width.ofFirst first).bytes = k + 1 := by
      cases Width.ofFirst first <;> exact ⟨_, rfl⟩
    have hlen : (tail.take k).length + 1 = (Width.ofFirst first).bytes := by
      rw [hk, List.length_take]
      omega
    obtain ⟨x, -, hx⟩ := VarNumber.exists_bytes_eq hlen
    refine ⟨x, tail.drop k, ?_⟩
    rw [hx, List.cons_append, List.take_append_drop]

theorem decode?_eq_decodeMasked? (bytes : List UInt8) :
    decode? bytes = (decodeMasked? bytes).map fun x => (x.1.toNat, x.2) := by
  rcases Nat.lt_or_ge bytes.length (needed bytes) with h | h
  · rw [decode?_of_lt h, decodeMasked?_of_lt h]
    rfl
  · obtain ⟨x, rest, rfl⟩ := exists_eq_bytes_append h
    obtain ⟨v, hv, hd⟩ := decodeMasked?_encode x.fits rest
    rw [VarNumber.bytes, decode?_encode x.fits, hd, Option.map_some, hv]

/-- Nothing is read only where bytes are missing. -/
theorem decode?_eq_none_iff : decode? bytes = none ↔ bytes.length < needed bytes := by
  refine ⟨fun hnone => ?_, decode?_of_lt⟩
  by_contra hge
  obtain ⟨x, rest, rfl⟩ := exists_eq_bytes_append (Nat.le_of_not_lt hge)
  rw [VarNumber.bytes, decode?_encode x.fits] at hnone
  cases hnone

/-- What is read is the number that is written there, in the width that the first byte announces. -/
theorem decode?_eq_some_iff : decode? bytes = some (n, w) ↔
    ∃ x : VarNumber, x.value = n ∧ x.width.bytes = w ∧ bytes.take w = x.bytes := by
  constructor
  · intro h
    have hle : needed bytes ≤ bytes.length := by
      by_contra hlt
      rw [decode?_of_lt (Nat.lt_of_not_le hlt)] at h
      cases h
    obtain ⟨x, rest, rfl⟩ := exists_eq_bytes_append hle
    rw [VarNumber.bytes, decode?_encode x.fits] at h
    cases h
    refine ⟨x, rfl, rfl, ?_⟩
    rw [← x.length_bytes]
    exact List.take_left
  · rintro ⟨x, rfl, rfl, htake⟩
    rw [← List.take_append_drop x.width.bytes bytes, htake]
    exact decode?_encode x.fits _

theorem announced?_encode_append (h : n < width.limit) (rest : List UInt8) :
    announced? (encode width n ++ rest) = some width := by
  obtain ⟨first, tail, eq, hw⟩ := encode_eq_cons h
  rw [eq, announced?, List.cons_append, List.head?_cons, Option.map_some,
    Width.ofTopBits_eq_ofFirst, hw]

/-- A number is written in as many ways as there are widths that can hold it. -/
theorem bijOn_tagged (n : Nat) : Set.BijOn (tagged · n) {width | n < width.limit}
    {bytes | decode? bytes = some (n, bytes.length)} := by
  refine ⟨fun width h => ?_, fun v hv w hw heq => ?_, fun bytes h => ?_⟩
  · have hd := decode?_encode h []
    rw [List.append_nil, ← length_encode width n] at hd
    simpa only [Set.mem_ofPred_eq, tagged_eq_encode h] using hd
  · simp only [tagged_eq_encode hv, tagged_eq_encode hw] at heq
    have hlen := congrArg List.length heq
    rw [length_encode, length_encode] at hlen
    exact Width.bytes_injective hlen
  · obtain ⟨x, rfl, -, htake⟩ := decode?_eq_some_iff.mp h
    rw [List.take_length] at htake
    exact ⟨x.width, x.fits, (tagged_eq_encode x.fits).trans htake.symm⟩

example : decode? [5] = some (5, 1) ∧ decode? [0x80, 5] = some (5, 2)
    ∧ decode? [0xc0, 0, 0, 5] = some (5, 4) := by decide

end Uvari

/-! ## The same where it stands -/

open Uvari

theorem Cursor.uvari_eq (c : Cursor) : c.uvari =
    match decode? c.rest with
    | some (n, w) => .ok (n, c.moved w)
    | none => .error ⟨c.position, needed c.rest, c.rest.length⟩ := by
  obtain ⟨position, rest⟩ := c
  rcases rest with _ | ⟨first, tail⟩
  · rw [uvari, ensure_eq]
    rfl
  · rw [uvari, ensure_one_eq_ok_iff.mpr (List.cons_ne_nil first tail), ok_bind]
    dsimp only [List.headD_cons]
    rw [take_eq, List.length_cons]
    simp only [decode?, needed, Width.ofTopBits_eq_ofFirst]
    split <;> rfl

theorem Motion.run_uvari (before rest : List UInt8) :
    uvari.run (before ++ rest) before.length =
      match decode? rest with
      | some (n, w) => (.ok n, before.length + w)
      | none => (.error ⟨before.length, needed rest, rest.length⟩, before.length) := by
  have heq := Cursor.uvari_eq ⟨before.length, rest⟩
  rcases hd : decode? rest with _ | ⟨n, w⟩ <;> simp only [hd] at heq
  · exact mirrors_uvari.run_of_eq_error heq
  · obtain ⟨_, next, hr, hc⟩ := mirrors_uvari.run_of_eq_ok heq
    obtain ⟨rfl, hnext⟩ := Prod.mk.inj hc
    rw [hr, show next = before.length + w from congrArg Cursor.position hnext]

/-- Reading and writing are inverse to each other, with masks and without, and in place. -/
theorem Uvari.decode?_exact :
    (∀ (width : Width) (n : Nat) (before rest : List UInt8), n < width.limit →
      decode? (tagged width n ++ rest) = some (n, width.bytes)
        ∧ Motion.uvari.run (before ++ (tagged width n ++ rest)) before.length
          = (.ok n, before.length + width.bytes))
    ∧ (∀ (bytes : List UInt8) (n w : Nat), decode? bytes = some (n, w) →
      n < 0x40000000 ∧ 0 ≤ Int32.ofNat n ∧ (Int32.ofNat n).toInt = n
        ∧ ∃ width, announced? bytes = some width ∧ n < width.limit ∧ w = width.bytes
          ∧ bytes.take w = tagged width n)
    ∧ (∀ bytes : List UInt8, decode? bytes = none ↔
      bytes = [] ∨ ∃ width, announced? bytes = some width ∧ bytes.length < width.bytes)
    ∧ (∀ n : Nat, Set.BijOn (tagged · n) {width | n < width.limit}
      {bytes | decode? bytes = some (n, bytes.length)})
    ∧ (∀ bytes : List UInt8,
      decode? bytes = (decodeMasked? bytes).map fun x => (x.1.toNat, x.2))
    ∧ (∀ c : Cursor, c.uvari =
      match decode? c.rest with
      | some (n, w) => .ok (n, c.moved w)
      | none => .error ⟨c.position, needed c.rest, c.rest.length⟩)
    ∧ (∀ before rest : List UInt8, Motion.uvari.run (before ++ rest) before.length =
      match decode? rest with
      | some (n, w) => (.ok n, before.length + w)
      | none => (.error ⟨before.length, needed rest, rest.length⟩, before.length)) := by
  refine ⟨fun width n before rest h => ?_, fun bytes n w h => ?_, fun bytes => ?_, bijOn_tagged,
    decode?_eq_decodeMasked?, Cursor.uvari_eq, Motion.run_uvari⟩
  · have hd : decode? (tagged width n ++ rest) = some (n, width.bytes) := by
      rw [tagged_eq_encode h, decode?_encode h]
    refine ⟨hd, ?_⟩
    rw [Motion.run_uvari, hd]
  · obtain ⟨x, rfl, rfl, htake⟩ := decode?_eq_some_iff.mp h
    have hint := x.toInt_ofNat_value
    refine ⟨x.value_lt, ?_, hint, x.width, ?_, x.fits, rfl, ?_⟩
    · rw [Int32.le_iff_toInt_le, hint]
      exact Int.natCast_nonneg _
    · rw [← List.take_append_drop x.width.bytes bytes, htake]
      exact announced?_encode_append x.fits _
    · rw [htake, tagged_eq_encode x.fits]
      rfl
  · rw [decode?_eq_none_iff]
    rcases bytes with _ | ⟨first, tail⟩
    · simp [needed]
    · simp [needed, announced?]

theorem Uvari.decode?_exact_largest :
    0x3fffffff < Width.four.limit
      ∧ decode? (tagged .four 0x3fffffff ++ [0]) = some (0x3fffffff, 4)
      ∧ Motion.uvari.run ([9] ++ (tagged .four 0x3fffffff ++ [0])) 1 = (.ok 0x3fffffff, 5)
      ∧ decode? [0xbf, 0xff, 0] = some (0x3fff, 2)
      ∧ ∃ width, announced? [0xbf, 0xff, 0] = some width
        ∧ [0xbf, 0xff] = tagged width 0x3fff := by
  have hlt : 0x3fffffff < Width.four.limit := by decide
  have hd : decode? [0xbf, 0xff, 0] = some (0x3fff, 2) := by decide
  obtain ⟨hread, hrun⟩ := decode?_exact.1 .four 0x3fffffff [9] [0] hlt
  obtain ⟨-, -, -, width, hw, -, -, htake⟩ := decode?_exact.2.1 _ _ _ hd
  exact ⟨hlt, hread, hrun, hd, width, hw, htake⟩

end WellLog
