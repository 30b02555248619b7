import WellLog.Proofs.Datum
import WellLog.Proofs.Placing

/-!
# Data in rows

A layout accepts the fields of data that fit (`Datum.accepts_ofSpan`), and the row that they fill
gives back their values, column by column (`Datum.map_value?_ofFields`). Only an identifier may come
back shorter than it was, as it ends at its first null character (`ofIdentImage_identImage`).
-/

namespace WellLog

/-! ## Identifiers -/

theorem units_flatMap (rest : List UInt8) : ∀ body : List UInt8,
    units (body.flatMap (toLittleEndian 4 ·.toNat) ++ rest) = body.map UInt8.toNat ++ units rest
  | [] => rfl
  | b :: body => by
    have hb : ofLittleEndian (toLittleEndian 4 b.toNat) = b.toNat := by
      have hlt := b.toNat_lt
      rw [ofLittleEndian_toLittleEndian, Nat.mod_eq_of_lt]
      exact Nat.lt_trans hlt (by decide)
    rw [List.flatMap_cons, List.append_assoc, List.map_cons, List.cons_append,
      ← units_flatMap rest body]
    show ofLittleEndian (toLittleEndian 4 b.toNat) :: units _ = _
    rw [hb]
    rfl

theorem units_replicate : ∀ n : Nat, units (List.replicate (4 * n) 0) = List.replicate n 0
  | 0 => rfl
  | n + 1 => by
    show ofLittleEndian [0, 0, 0, 0] :: units (List.replicate (4 * n) 0) = _
    rw [units_replicate n]
    rfl

theorem takeWhile_units (n : Nat) : ∀ body : List UInt8,
    (body.map UInt8.toNat ++ List.replicate n 0).takeWhile (· ≠ 0)
      = (body.takeWhile (· ≠ 0)).map UInt8.toNat
  | [] => by cases n <;> rfl
  | b :: body => by
    by_cases hb : b = 0
    · subst hb
      rfl
    · have hn : b.toNat ≠ 0 := fun h => hb (UInt8.toNat_inj.mp h)
      have ih := takeWhile_units n body
      simp only [List.map_cons, List.cons_append, List.takeWhile_cons, ne_eq, hb, hn] at ih ⊢
      simp only [not_false_eq_true, decide_true, if_true, ih, List.map_cons]

/-- An identifier comes back up to its first null character. -/
theorem ofIdentImage_identImage (identCapacity : Nat) (body : List UInt8) :
    ofIdentImage (identImage (4 * identCapacity) body) = latin1 (body.takeWhile (· ≠ 0)) := by
  have hs : ∀ l : List UInt8, (l.map UInt8.toNat).filterMap scalar? = l.map Char.ofUInt8 := by
    intro l
    have hc : scalar? ∘ UInt8.toNat = some ∘ Char.ofUInt8 :=
      funext fun b => scalar?_toNat (Char.ofUInt8 b)
    rw [List.filterMap_map, hc, List.filterMap_eq_map]
  rw [ofIdentImage, identImage, ← Nat.mul_sub, units_flatMap, units_replicate, takeWhile_units, hs,
    latin1]

theorem ofIdentImage_replicate (identCapacity : Nat) :
    ofIdentImage (List.replicate (4 * identCapacity) 0) = "" :=
  ofIdentImage_identImage identCapacity []

/-! ## Data -/

namespace Datum

variable {identCapacity : Nat}

theorem accepts_inline {d : Datum} {width : Nat} (hf : d.Fits identCapacity)
    (hw : d.code.inlineWidth? identCapacity = some width) (offset : Nat) :
    (Storage.inline offset width).accepts d.field = true
      ∧ Column.valueOf? ⟨d.code, .inline offset width⟩ d.field = some d.value := by
  have hword : ∀ n : VarNumber, some 4 = some width →
      (Storage.inline offset width).accepts (.number (.i32 (.ofNat n.value))) = true
        ∧ some (Value.number (Numeric.slong.ofImage (Number.i32 (.ofNat n.value)).image))
          = some (.number (.i32 (.ofNat n.value))) := by
    rintro n ⟨⟩
    refine ⟨rfl, ?_⟩
    simp only [Numeric.ofImage, Number.image, ofNat_ofLittleEndian_toLittleEndian_four,
      Int32.toInt32_toUInt32]
  have hident : ∀ t : ShortText, t.body.length ≤ identCapacity →
      some (4 * identCapacity) = some width →
      (Storage.inline offset width).accepts (.ident t.body) = true
        ∧ some (Value.ident (ofIdentImage (identImage width t.body)))
          = some (.ident (latin1 (t.body.takeWhile (· ≠ 0)))) := by
    rintro t ht ⟨⟩
    rw [ofIdentImage_identImage]
    exact ⟨decide_eq_true (Nat.mul_le_mul_left 4 ht), rfl⟩
  cases d with
  | numeric q =>
    obtain rfl : q.code.slotWidth = width := Option.some.inj hw
    have hi := q.code.length_image_read q.bytes
    have hv := q.code.ofImage_image_read q.bytes
    rw [q.read_bytes] at hi hv
    refine ⟨beq_iff_eq.mpr hi, ?_⟩
    show some (Value.number _) = _
    rw [hv]
    rfl
  | uvari n => exact hword n hw
  | origin n => exact hword n hw
  | ident t => exact hident t hf hw
  | units t => exact hident t hf hw
  | _ => cases hw

theorem accepts_object {d : Datum} (hw : d.code.inlineWidth? identCapacity = none) (slot : Nat) :
    (Storage.object slot).accepts d.field = true
      ∧ Column.valueOf? ⟨d.code, .object slot⟩ d.field = some d.value := by
  cases d with
  | numeric q => cases hw
  | uvari n => cases hw
  | origin n => cases hw
  | ident t => cases hw
  | units t => cases hw
  | _ => exact ⟨rfl, rfl⟩

theorem accepts_place {ds : List Datum} (offset slot : Nat)
    (hf : ∀ d ∈ ds, d.Fits identCapacity) :
    (Layout.place identCapacity offset slot (ds.map code)).accepts (ds.map field) = true
      ∧ List.zipWith Column.valueOf?
          (Layout.place identCapacity offset slot (ds.map code)).columns (ds.map field)
        = ds.map (some ∘ value) := by
  induction ds generalizing offset slot with
  | nil => exact ⟨rfl, rfl⟩
  | cons d ds ih =>
    obtain ⟨hd, hds⟩ := List.forall_mem_cons.mp hf
    rw [List.map_cons, List.map_cons, List.map_cons]
    rcases hw : d.code.inlineWidth? identCapacity with _ | width
    · obtain ⟨ha, hv⟩ := accepts_object hw slot
      obtain ⟨has, hvs⟩ := ih offset (slot + 1) hds
      simp only [Layout.place, hw, Layout.columns_cons, List.zipWith_cons_cons, hv, hvs]
      exact ⟨Layout.accepts_cons_iff.mpr ⟨_, _, rfl, ha, has⟩, rfl⟩
    · obtain ⟨ha, hv⟩ := accepts_inline hd hw offset
      obtain ⟨has, hvs⟩ := ih (offset + width) slot hds
      simp only [Layout.place, hw, Layout.columns_cons, List.zipWith_cons_cons, hv, hvs]
      exact ⟨Layout.accepts_cons_iff.mpr ⟨_, _, rfl, ha, has⟩, rfl⟩

theorem accepts_ofSpan {ds : List Datum} (hf : ∀ d ∈ ds, d.Fits identCapacity) :
    (Layout.ofSpan (ds.map code) identCapacity).accepts (ds.map field) = true :=
  (accepts_place 0 0 hf).1

/-- A row that data fill gives back the values of the data. -/
theorem map_value?_ofFields {ds : List Datum} (hf : ∀ d ∈ ds, d.Fits identCapacity) :
    (Layout.ofSpan (ds.map code) identCapacity).columns.map
        (Row.ofFields (Layout.ofSpan (ds.map code) identCapacity).columns (ds.map field)).value?
      = ds.map (some ∘ value) := by
  obtain ⟨ha, hv⟩ := accepts_place 0 0 hf
  exact (Row.map_value?_ofFields ⟨[], []⟩ rfl rfl ha).trans hv

end Datum

end WellLog
