import WellLog.Identity

/-!
# Fingerprints tell objects apart

A fingerprint joins its parts by hyphens, and a hyphen may also stand in the type or in the
identifier, or be the sign of the origin. Under one type two names have different fingerprints all
the same: a number is digits up to the next hyphen, and whatever stands behind the third one is the
identifier (`ObjectName.suffix_injective`).

Where the type ends cannot be seen if there are hyphens in it. References to objects of types without
hyphens are equal if their fingerprints are (`fingerprints_identify`).
-/

namespace WellLog

/-! ## Digits and hyphens -/

/-- The first separator ends what is free of it. -/
theorem append_separator_inj {α : Type} {c : α} {r s : List α} : ∀ {a b : List α},
    c ∉ a → c ∉ b → a ++ c :: r = b ++ c :: s → a = b ∧ r = s
  | [], [], _, _, h => ⟨rfl, (List.cons.inj h).2⟩
  | [], d :: b, _, hb, h => by
    simp only [List.nil_append, List.cons_append, List.cons.injEq] at h
    exact absurd (by simp [h.1]) hb
  | d :: a, [], ha, _, h => by
    simp only [List.nil_append, List.cons_append, List.cons.injEq] at h
    exact absurd (by simp [h.1]) ha
  | d :: a, e :: b, ha, hb, h => by
    simp only [List.mem_cons, not_or] at ha hb
    simp only [List.cons_append, List.cons.injEq] at h
    obtain ⟨rfl, hrest⟩ := h
    obtain ⟨rfl, hr⟩ := append_separator_inj ha.2 hb.2 hrest
    exact ⟨rfl, hr⟩

theorem hyphen_notMem_repr (n : Nat) : '-' ∉ n.repr.toList := by
  intro h
  rw [Nat.toList_repr] at h
  have hdigit : '-'.isDigit = true := Nat.isDigit_of_mem_toDigits (by decide) (by decide) h
  contradiction

theorem repr_append_inj {m n : Nat} {r s : List Char}
    (h : m.repr.toList ++ '-' :: r = n.repr.toList ++ '-' :: s) : m = n ∧ r = s := by
  obtain ⟨hmn, hr⟩ := append_separator_inj (hyphen_notMem_repr m) (hyphen_notMem_repr n) h
  rw [Nat.toList_repr, Nat.toList_repr] at hmn
  have hread : ∀ k : Nat, Nat.ofDigitChars 10 (Nat.toDigits 10 k) 0 = k := fun k =>
    Nat.ofDigitChars_toDigits (by decide) (by decide)
  exact ⟨by rw [← hread m, hmn, hread], hr⟩

/-- A number that is not negative has a digit in front of the first hyphen. -/
theorem repr_append_ne_hyphen (n : Nat) (r s : List Char) :
    n.repr.toList ++ '-' :: r ≠ '-' :: s := by
  intro h
  obtain ⟨hn, -⟩ :=
    append_separator_inj (b := []) (hyphen_notMem_repr n) List.not_mem_nil h
  rw [Nat.toList_repr] at hn
  exact Nat.toDigits_ne_nil hn

theorem toList_toString_negSucc (n : Nat) :
    (toString (Int.negSucc n)).toList = '-' :: (n + 1).repr.toList :=
  String.toList_append

theorem toString_append_inj {m n : Int} {r s : List Char}
    (h : (toString m).toList ++ '-' :: r = (toString n).toList ++ '-' :: s) : m = n ∧ r = s := by
  -- The first character says which sign both have.
  rcases m with m | m <;> rcases n with n | n
  · obtain ⟨rfl, hr⟩ := repr_append_inj (m := m) (n := n) h
    exact ⟨rfl, hr⟩
  · rw [toList_toString_negSucc, List.cons_append] at h
    exact absurd h (repr_append_ne_hyphen m _ _)
  · rw [toList_toString_negSucc, List.cons_append] at h
    exact absurd h.symm (repr_append_ne_hyphen n _ _)
  · simp only [toList_toString_negSucc, List.cons_append, List.cons.injEq, true_and] at h
    obtain ⟨hmn, hr⟩ := repr_append_inj h
    exact ⟨by omega, hr⟩

/-! ## Names -/

namespace ObjectName

/-- What a fingerprint says behind the type and its hyphen. -/
def suffix (name : ObjectName) : List Char :=
  (toString name.origin.toInt).toList ++ '-' ::
    ((toString name.copy.toNat).toList ++ '-' :: name.id.toList)

theorem toList_fingerprint (name : ObjectName) (objectType : String) :
    (name.fingerprint objectType).toList = objectType.toList ++ '-' :: name.suffix := by
  simp [fingerprint, suffix]

theorem suffix_injective {a b : ObjectName} (h : a.suffix = b.suffix) : a = b := by
  obtain ⟨horigin, hrest⟩ := toString_append_inj h
  obtain ⟨hcopy, hid⟩ := repr_append_inj hrest
  obtain ⟨origin, copy, id⟩ := a
  obtain ⟨origin', copy', id'⟩ := b
  obtain rfl : origin = origin' := Int32.toInt_inj.mp horigin
  obtain rfl : copy = copy' := UInt8.toNat_inj.mp hcopy
  obtain rfl : id = id' := String.toList_inj.mp hid
  rfl

theorem eq_of_fingerprint_eq {a b : ObjectName} {objectType : String}
    (h : a.fingerprint objectType = b.fingerprint objectType) : a = b := by
  have hlist := congrArg String.toList h
  simp only [toList_fingerprint, List.append_cancel_left_eq, List.cons.injEq, true_and] at hlist
  exact suffix_injective hlist

end ObjectName

/-! ## References -/

theorem ObjectRef.fingerprint_eq_iff {a b : ObjectRef} (ha : '-' ∉ a.objectType.toList)
    (hb : '-' ∉ b.objectType.toList) : a.fingerprint = b.fingerprint ↔ a = b := by
  refine ⟨fun h => ?_, fun h => h ▸ rfl⟩
  have hlist := congrArg String.toList h
  simp only [fingerprint, ObjectName.toList_fingerprint] at hlist
  obtain ⟨htype, hsuffix⟩ := append_separator_inj ha hb hlist
  obtain ⟨objectType, name⟩ := a
  obtain ⟨objectType', name'⟩ := b
  obtain rfl : objectType = objectType' := String.toList_inj.mp htype
  obtain rfl : name = name' := ObjectName.suffix_injective hsuffix
  rfl

theorem fingerprint_eq_ok_iff {objectType id s : String} {origin copy : Int32} :
    fingerprint objectType id origin copy = .ok s ↔ ∃ c : UInt8, (c.toNat : Int) = copy.toInt
      ∧ ObjectRef.fingerprint ⟨objectType, origin, c, id⟩ = s := by
  unfold fingerprint
  split
  · next h =>
    have hc : ((UInt8.ofNat copy.toInt.toNat).toNat : Int) = copy.toInt := by
      rw [UInt8.toNat_ofNat']
      omega
    constructor
    · intro hs
      exact ⟨_, hc, Except.ok.inj hs⟩
    · rintro ⟨c, hcopy, rfl⟩
      obtain rfl : UInt8.ofNat copy.toInt.toNat = c := by
        rw [← hcopy, Int.toNat_natCast, UInt8.ofNat_toNat]
      rfl
  · next h =>
    constructor
    · rintro ⟨⟩
    · rintro ⟨c, hcopy, -⟩
      have hlt := c.toNat_lt
      omega

theorem fingerprint_eq_error_iff {objectType id : String} {origin copy : Int32}
    {e : CopyOutOfRange} : fingerprint objectType id origin copy = .error e
      ↔ ¬(0 ≤ copy.toInt ∧ copy.toInt ≤ 255) ∧ e = ⟨copy⟩ := by
  unfold fingerprint
  split
  · next h => simp [h]
  · next h => simp only [h, not_false_eq_true, true_and, Except.error.injEq, eq_comm]

/-- Equal fingerprints are those of equal objects. An attribute has the fingerprint of its object,
and one that is made of parts is that of the object which has them, if there can be such an
object. -/
theorem fingerprints_identify :
    (∀ (objectType : String) (a b : ObjectName),
        a.fingerprint objectType = b.fingerprint objectType →
          a.origin = b.origin ∧ a.copy = b.copy ∧ a.id = b.id)
      ∧ (∀ a b : ObjectRef, '-' ∉ a.objectType.toList → '-' ∉ b.objectType.toList →
        (a.fingerprint = b.fingerprint ↔ a = b))
      ∧ (∀ r : AttributeRef, r.fingerprint = ObjectRef.fingerprint ⟨r.objectType, r.name⟩)
      ∧ ∀ (objectType id : String) (origin copy : Int32),
        (∀ s, fingerprint objectType id origin copy = .ok s ↔ ∃ c : UInt8,
            (c.toNat : Int) = copy.toInt
              ∧ ObjectRef.fingerprint ⟨objectType, origin, c, id⟩ = s)
          ∧ ((∃ s, fingerprint objectType id origin copy = .ok s)
            ↔ 0 ≤ copy.toInt ∧ copy.toInt ≤ 255)
          ∧ ∀ e, fingerprint objectType id origin copy = .error e
            ↔ ¬(0 ≤ copy.toInt ∧ copy.toInt ≤ 255) ∧ e = ⟨copy⟩ := by
  refine ⟨fun objectType a b h => ?_, fun a b ha hb => ObjectRef.fingerprint_eq_iff ha hb,
    fun r => rfl, fun objectType id origin copy => ⟨fun s => fingerprint_eq_ok_iff, ?_,
      fun e => fingerprint_eq_error_iff⟩⟩
  · obtain rfl := ObjectName.eq_of_fingerprint_eq h
    exact ⟨rfl, rfl, rfl⟩
  · rcases hf : fingerprint objectType id origin copy with e | s
    · obtain ⟨hrange, -⟩ := fingerprint_eq_error_iff.mp hf
      simp [hrange]
    · obtain ⟨c, hcopy, -⟩ := fingerprint_eq_ok_iff.mp hf
      have hlt := c.toNat_lt
      simp only [Except.ok.injEq, exists_eq', true_iff]
      omega

theorem fingerprints_identify_signed :
    (ObjectName.mk (-1) 0 "-2").fingerprint "A-B"
        = (ObjectName.mk 4294967295 256 "-2").fingerprint "A-B"
      ∧ (-1 : Int32) = 4294967295
      ∧ '-' ∉ "FRAME".toList ∧ '-' ∉ "TOOL".toList
      ∧ ObjectRef.fingerprint ⟨"FRAME", -1, 0, "-2"⟩ ≠ ObjectRef.fingerprint ⟨"TOOL", -1, 0, "-2"⟩
      ∧ (∃ s, fingerprint "FRAME" "-2" (-1) 255 = .ok s) := by
  obtain ⟨hname, href, -, hparts⟩ := fingerprints_identify
  have hf : '-' ∉ "FRAME".toList := by decide
  have ht : '-' ∉ "TOOL".toList := by decide
  refine ⟨rfl, (hname "A-B" ⟨-1, 0, "-2"⟩ ⟨4294967295, 256, "-2"⟩ rfl).1, hf, ht, fun h => ?_,
    (hparts "FRAME" "-2" (-1) 255).2.1.mpr (by decide)⟩
  have heq := (href ⟨"FRAME", -1, 0, "-2"⟩ ⟨"TOOL", -1, 0, "-2"⟩ hf ht).mp h
  exact absurd (congrArg ObjectRef.objectType heq) (by decide)

/-- With a hyphen in a type, two objects may have one fingerprint. -/
example : ObjectRef.fingerprint ⟨"A", 1, 0, "2-B"⟩ = ObjectRef.fingerprint ⟨"A-1", 0, 2, "B"⟩ := rfl

end WellLog
