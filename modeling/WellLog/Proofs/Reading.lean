import WellLog.Cursor.Lemmas
import WellLog.Field
import WellLog.Proofs.Datum

/-!
# What a read passes over

A read that succeeds has passed over the bytes of something written, and it succeeds wherever such
bytes stand: the values that a read can return are those of the data whose bytes lie between the
cursor before it and the cursor behind it (`Cursor.skip_eq_ok_iff`, `Field.read_eq_ok_iff`).

Reading a value and passing over it end at the same place, or fail in the same way
(`Field.map_snd_read`).
-/

namespace WellLog

theorem ok_bind {ε α β : Type} {a : α} {f : α → Except ε β} : (.ok a >>= f) = f a := rfl

theorem bind_eq_ok_iff {ε α β : Type} {x : Except ε α} {f : α → Except ε β} {b : β} :
    (x >>= f) = .ok b ↔ ∃ a, x = .ok a ∧ f a = .ok b := by
  cases x with
  | error e => exact ⟨fun h => (nomatch h), fun ⟨_, h, _⟩ => (nomatch h)⟩
  | ok a => exact ⟨fun h => ⟨a, rfl, h⟩, fun ⟨_, h, hf⟩ => Except.ok.inj h ▸ hf⟩

theorem bind_eq_error_iff {ε α β : Type} {x : Except ε α} {f : α → Except ε β} {e : ε} :
    (x >>= f) = .error e ↔ x = .error e ∨ ∃ a, x = .ok a ∧ f a = .error e := by
  rcases x with e' | a
  · constructor
    · rintro ⟨⟩
      exact .inl rfl
    · rintro (⟨⟨⟩⟩ | ⟨_, ⟨⟩, _⟩)
      rfl
  · constructor
    · exact fun h => .inr ⟨a, rfl, h⟩
    · rintro (⟨⟨⟩⟩ | ⟨_, ⟨⟩, h⟩)
      exact h

theorem map_eq_ok_iff {ε α β : Type} {x : Except ε α} {f : α → β} {b : β} :
    x.map f = .ok b ↔ ∃ a, x = .ok a ∧ f a = b := by
  cases x with
  | error e => exact ⟨fun h => (nomatch h), fun ⟨_, h, _⟩ => (nomatch h)⟩
  | ok a => exact ⟨fun h => ⟨a, rfl, Except.ok.inj h⟩, fun ⟨_, h, hf⟩ => by cases h; cases hf; rfl⟩

theorem pure_eq_ok_iff {ε α : Type} {a b : α} : (pure a : Except ε α) = .ok b ↔ a = b :=
  ⟨Except.ok.inj, congrArg Except.ok⟩

theorem bind_pure_snd_eq_ok_iff {ε α β : Type} {x : Except ε (α × β)} {b : β} :
    (x >>= fun p => pure p.2) = .ok b ↔ ∃ a, x = .ok (a, b) := by
  rw [bind_eq_ok_iff]
  constructor
  · rintro ⟨⟨a, _⟩, hx, hb⟩
    obtain rfl := pure_eq_ok_iff.mp hb
    exact ⟨a, hx⟩
  · rintro ⟨a, hx⟩
    exact ⟨_, hx, rfl⟩

namespace Cursor

/-- The bytes lie between the two cursors. -/
structure Passes (c : Cursor) (bytes : List UInt8) (c' : Cursor) : Prop where
  rest : c.rest = bytes ++ c'.rest
  position : c'.position = c.position + bytes.length

section Passes

variable {c c' c'' : Cursor} {a b : List UInt8}

theorem Passes.eq_mk (h : c.Passes a c') :
    c = ⟨c.position, a ++ c'.rest⟩ ∧ c' = ⟨c.position + a.length, c'.rest⟩ := by
  obtain ⟨p, r⟩ := c
  obtain ⟨p', r'⟩ := c'
  obtain ⟨hr, hp⟩ := h
  simp only at hr hp
  subst hr hp
  exact ⟨rfl, rfl⟩

theorem passes_nil_iff : c.Passes [] c' ↔ c' = c := by
  constructor
  · intro h
    obtain ⟨h1, h2⟩ := h.eq_mk
    rw [h1, h2]
    rfl
  · rintro rfl
    exact ⟨rfl, rfl⟩

theorem passes_append_iff : c.Passes (a ++ b) c'' ↔ ∃ c', c.Passes a c' ∧ c'.Passes b c'' := by
  constructor
  · intro h
    refine ⟨⟨c.position + a.length, b ++ c''.rest⟩, ⟨?_, rfl⟩, ⟨rfl, ?_⟩⟩
    · rw [h.rest, List.append_assoc]
    · rw [h.position, List.length_append, Nat.add_assoc]
  · rintro ⟨c', h1, h2⟩
    refine ⟨?_, ?_⟩
    · rw [h1.rest, h2.rest, List.append_assoc]
    · rw [h2.position, h1.position, List.length_append, Nat.add_assoc]

end Passes

variable {c c' : Cursor}

theorem take_eq_ok_iff {n : Nat} {bytes : List UInt8} :
    c.take n = .ok (bytes, c') ↔ bytes.length = n ∧ c.Passes bytes c' := by
  constructor
  · intro h
    rw [take_eq] at h
    split at h
    · next hn =>
      simp only [Except.ok.injEq, Prod.mk.injEq] at h
      obtain ⟨rfl, rfl⟩ := h
      have hl : (c.rest.take n).length = n := List.length_take_of_le hn
      refine ⟨hl, ⟨(List.take_append_drop n c.rest).symm, ?_⟩⟩
      rw [hl]
      rfl
    · contradiction
  · rintro ⟨rfl, h⟩
    obtain ⟨hc, hc'⟩ := h.eq_mk
    rw [hc, hc']
    exact take_append _ _ rfl

theorem advance_eq_ok_iff {n : Nat} :
    c.advance n = .ok c' ↔ ∃ bytes : List UInt8, bytes.length = n ∧ c.Passes bytes c' := by
  simp only [← take_eq_ok_iff]
  rw [advance_eq]
  cases c.take n with
  | error e => exact ⟨fun h => (nomatch h), fun ⟨_, h⟩ => (nomatch h)⟩
  | ok a =>
    constructor
    · intro h
      exact ⟨a.1, by rw [← Except.ok.inj h]⟩
    · rintro ⟨bytes, h⟩
      cases h
      rfl

theorem byte_eq_ok_iff {b : UInt8} : c.byte = .ok (b, c') ↔ c.Passes [b] c' := by
  have ht : c.Passes [b] c' ↔ c.take 1 = .ok ([b], c') := by
    rw [take_eq_ok_iff]
    exact ⟨fun h => ⟨rfl, h⟩, And.right⟩
  rw [ht, byte_eq]
  rcases h : c.take 1 with e | ⟨bytes, d⟩
  · exact ⟨fun h => (nomatch h), fun h => (nomatch h)⟩
  · obtain ⟨hl, -⟩ := take_eq_ok_iff.mp h
    obtain ⟨x, rfl⟩ := List.length_eq_one_iff.mp hl
    simp only [Except.map, List.headD_cons, Except.ok.injEq, Prod.mk.injEq, List.cons.injEq,
      and_true]

theorem ensure_one_eq_ok_iff : c.ensure 1 = .ok () ↔ c.rest ≠ [] := by
  rw [ensure_eq]
  cases c.rest <;> simp

theorem uvari_eq_ok_iff {n : Nat} :
    c.uvari = .ok (n, c') ↔ ∃ w : VarNumber, w.value = n ∧ c.Passes w.bytes c' := by
  constructor
  · intro h
    simp only [uvari, bind_eq_ok_iff, pure_eq_ok_iff, Prod.exists, Prod.mk.injEq] at h
    obtain ⟨_, hne, bytes, d, ht, rfl, rfl⟩ := h
    obtain ⟨first, tail, hr⟩ := List.exists_cons_of_ne_nil (ensure_one_eq_ok_iff.mp hne)
    obtain ⟨hl, hp⟩ := take_eq_ok_iff.mp ht
    rw [hr, List.headD_cons] at hl ⊢
    obtain ⟨b, bs, rfl⟩ : ∃ b bs, bytes = b :: bs := by
      refine List.exists_cons_of_ne_nil fun hn => ?_
      rw [hn] at hl
      cases hw : Uvari.Width.ofFirst first <;> rw [hw] at hl <;> simp [Uvari.Width.bytes] at hl
    have hb : first = b := by
      have hrest := hp.rest
      rw [hr, List.cons_append] at hrest
      exact (List.cons_eq_cons.mp hrest).1
    subst hb
    obtain ⟨w, hv, hw⟩ := VarNumber.exists_bytes_eq hl
    exact ⟨w, hv, hw ▸ hp⟩
  · rintro ⟨w, rfl, h⟩
    obtain ⟨hc, hc'⟩ := h.eq_mk
    rw [hc, hc', VarNumber.length_bytes]
    exact uvari_encode _ _ w.fits

theorem ident_eq_ok_iff {body : List UInt8} :
    c.ident = .ok (body, c') ↔ ∃ t : ShortText, t.body = body ∧ c.Passes t.bytes c' := by
  constructor
  · intro h
    simp only [ident, bind_eq_ok_iff, pure_eq_ok_iff, Prod.exists, Prod.mk.injEq] at h
    obtain ⟨_, hne, bytes, d, ht, rfl, rfl⟩ := h
    obtain ⟨count, tail, hr⟩ := List.exists_cons_of_ne_nil (ensure_one_eq_ok_iff.mp hne)
    obtain ⟨hl, hp⟩ := take_eq_ok_iff.mp ht
    rw [hr, List.headD_cons] at hl
    obtain ⟨b, bs, rfl⟩ : ∃ b bs, bytes = b :: bs :=
      List.exists_cons_of_ne_nil fun hn => by rw [hn] at hl; simp at hl; omega
    have hb : count = b := by
      have hrest := hp.rest
      rw [hr, List.cons_append] at hrest
      exact (List.cons_eq_cons.mp hrest).1
    subst hb
    have hbs : bs.length = count.toNat := by
      rw [List.length_cons] at hl
      omega
    have hcount : UInt8.ofNat bs.length = count := by rw [hbs, UInt8.ofNat_toNat]
    refine ⟨⟨bs, hbs ▸ count.toNat_lt⟩, rfl, ?_⟩
    rw [ShortText.bytes, encodeIdent, hcount]
    exact hp
  · rintro ⟨t, rfl, h⟩
    obtain ⟨hc, hc'⟩ := h.eq_mk
    rw [hc, hc', ShortText.length_bytes]
    exact ident_encodeIdent _ _ t.fits

theorem ascii_eq_ok_iff {body : List UInt8} :
    c.ascii = .ok (body, c') ↔ ∃ t : CountedText, t.body = body ∧ c.Passes t.bytes c' := by
  simp only [ascii, bind_eq_ok_iff, Prod.exists, uvari_eq_ok_iff, take_eq_ok_iff]
  constructor
  · rintro ⟨n, d, ⟨w, rfl, hw⟩, hl, hb⟩
    refine ⟨⟨w.width, body, hl ▸ w.fits⟩, rfl, ?_⟩
    rw [CountedText.bytes_eq, passes_append_iff]
    refine ⟨d, ?_, hb⟩
    simpa only [CountedText.count, hl] using hw
  · rintro ⟨t, rfl, h⟩
    rw [CountedText.bytes_eq, passes_append_iff] at h
    obtain ⟨d, hw, hb⟩ := h
    exact ⟨t.body.length, d, ⟨t.count, rfl, hw⟩, rfl, hb⟩

theorem originCopy_eq_ok_iff {head : Int32 × UInt8} :
    c.originCopy = .ok (head, c') ↔ ∃ (n : VarNumber) (copy : UInt8),
      (Int32.ofNat n.value, copy) = head ∧ c.Passes (n.bytes ++ [copy]) c' := by
  simp only [originCopy, bind_eq_ok_iff, pure_eq_ok_iff, Prod.exists, Prod.mk.injEq,
    uvari_eq_ok_iff, byte_eq_ok_iff, passes_append_iff]
  constructor
  · rintro ⟨_, d, ⟨n, rfl, hn⟩, copy, e, hc, rfl, rfl⟩
    exact ⟨n, copy, rfl, d, hn, hc⟩
  · rintro ⟨n, copy, rfl, d, hn, hc⟩
    exact ⟨_, d, ⟨n, rfl, hn⟩, copy, c', hc, rfl, rfl⟩

theorem passes_name_iff {n : WrittenName} :
    c.Passes n.bytes c'
      ↔ ∃ d, c.Passes (n.origin.bytes ++ [n.copy]) d ∧ d.Passes n.id.bytes c' := by
  rw [← passes_append_iff, WrittenName.bytes, List.append_assoc, List.singleton_append]

theorem objectName_eq_ok_iff {name : ObjectName} :
    c.objectName = .ok (name, c') ↔ ∃ n : WrittenName, n.name = name ∧ c.Passes n.bytes c' := by
  simp only [objectName, bind_eq_ok_iff, pure_eq_ok_iff, Prod.exists, Prod.mk.injEq,
    originCopy_eq_ok_iff, ident_eq_ok_iff, passes_name_iff]
  constructor
  · rintro ⟨_, _, d, ⟨o, copy, ⟨rfl, rfl⟩, hd⟩, _, e, ⟨t, rfl, ht⟩, rfl, rfl⟩
    exact ⟨⟨o, copy, t⟩, rfl, d, hd, ht⟩
  · rintro ⟨⟨o, copy, t⟩, rfl, d, hd, ht⟩
    exact ⟨_, _, d, ⟨o, copy, ⟨rfl, rfl⟩, hd⟩, _, c', ⟨t, rfl, ht⟩, rfl, rfl⟩

/-- Reading a name and passing over it are one, the name aside. -/
theorem map_snd_objectName (c : Cursor) : c.objectName.map Prod.snd = c.skipName := by
  simp only [objectName, originCopy, skipName, byte_eq, advance_eq]
  rcases c.uvari with _ | ⟨_, c⟩
  · rfl
  · rw [ok_bind, ok_bind]
    rcases c.take 1 with _ | ⟨_, c⟩
    · rfl
    · show ((c.ident >>= _).map _ : Except OutOfBounds Cursor) = (c.ident >>= _)
      rcases c.ident with _ | ⟨_, _⟩ <;> rfl

theorem nameHead_eq_ok_iff {head : Int32 × UInt8} :
    c.nameHead = .ok (head, c') ↔ ∃ n : WrittenName, n.head = head ∧ c.Passes n.bytes c' := by
  simp only [nameHead, bind_eq_ok_iff, pure_eq_ok_iff, Prod.exists, Prod.mk.injEq,
    originCopy_eq_ok_iff, ident_eq_ok_iff, passes_name_iff]
  constructor
  · rintro ⟨_, _, d, ⟨o, copy, ⟨rfl, rfl⟩, hd⟩, _, e, ⟨t, rfl, ht⟩, rfl, rfl⟩
    exact ⟨⟨o, copy, t⟩, rfl, d, hd, ht⟩
  · rintro ⟨⟨o, copy, t⟩, rfl, d, hd, ht⟩
    exact ⟨_, _, d, ⟨o, copy, ⟨rfl, rfl⟩, hd⟩, _, c', ⟨t, rfl, ht⟩, rfl, rfl⟩

theorem skipName_eq_ok_iff :
    c.skipName = .ok c' ↔ ∃ n : WrittenName, c.Passes n.bytes c' := by
  simp only [skipName, bind_eq_ok_iff, pure_eq_ok_iff, Prod.exists, uvari_eq_ok_iff,
    advance_eq_ok_iff, ident_eq_ok_iff, passes_name_iff, passes_append_iff]
  constructor
  · rintro ⟨_, d, ⟨o, -, ho⟩, e, ⟨bytes, hl, hb⟩, _, f, ⟨t, -, ht⟩, rfl⟩
    obtain ⟨copy, rfl⟩ := List.length_eq_one_iff.mp hl
    exact ⟨⟨o, copy, t⟩, e, ⟨d, ho, hb⟩, ht⟩
  · rintro ⟨⟨o, copy, t⟩, e, ⟨d, ho, hb⟩, ht⟩
    exact ⟨_, d, ⟨o, rfl, ho⟩, e, ⟨[copy], rfl, hb⟩, _, c', ⟨t, rfl, ht⟩, rfl⟩

theorem objectRef_eq_ok_iff {ref : ObjectRef} :
    c.objectRef = .ok (ref, c') ↔ ∃ (t : ShortText) (n : WrittenName),
      ⟨latin1 t.body, n.name⟩ = ref ∧ c.Passes (t.bytes ++ n.bytes) c' := by
  simp only [objectRef, bind_eq_ok_iff, pure_eq_ok_iff, Prod.exists, Prod.mk.injEq,
    ident_eq_ok_iff, objectName_eq_ok_iff, passes_append_iff]
  constructor
  · rintro ⟨_, d, ⟨t, rfl, ht⟩, _, e, ⟨n, rfl, hn⟩, rfl, rfl⟩
    exact ⟨t, n, rfl, d, ht, hn⟩
  · rintro ⟨t, n, rfl, d, ht, hn⟩
    exact ⟨_, d, ⟨t, rfl, ht⟩, _, c', ⟨n, rfl, hn⟩, rfl, rfl⟩

theorem attributeRef_eq_ok_iff {ref : AttributeRef} :
    c.attributeRef = .ok (ref, c') ↔ ∃ (t : ShortText) (n : WrittenName) (l : ShortText),
      ⟨latin1 t.body, n.name, latin1 l.body⟩ = ref
        ∧ c.Passes (t.bytes ++ n.bytes ++ l.bytes) c' := by
  simp only [attributeRef, bind_eq_ok_iff, pure_eq_ok_iff, Prod.exists, Prod.mk.injEq,
    ident_eq_ok_iff, objectRef_eq_ok_iff, passes_append_iff (a := _ ++ _)]
  constructor
  · rintro ⟨_, d, ⟨t, n, rfl, hd⟩, _, e, ⟨l, rfl, hl⟩, rfl, rfl⟩
    exact ⟨t, n, l, rfl, d, hd, hl⟩
  · rintro ⟨t, n, l, rfl, d, hd, hl⟩
    exact ⟨_, d, ⟨t, n, rfl, hd⟩, _, c', ⟨l, rfl, hl⟩, rfl, rfl⟩

theorem skip_of_passes {d : Datum} (h : c.Passes d.bytes c') : c.skip d.code = .ok c' := by
  cases d with
  | numeric q => exact advance_eq_ok_iff.mpr ⟨q.bytes, q.length_bytes, h⟩
  | uvari n => exact bind_eq_ok_iff.mpr ⟨_, uvari_eq_ok_iff.mpr ⟨n, rfl, h⟩, rfl⟩
  | origin n => exact bind_eq_ok_iff.mpr ⟨_, uvari_eq_ok_iff.mpr ⟨n, rfl, h⟩, rfl⟩
  | ident t => exact bind_eq_ok_iff.mpr ⟨_, ident_eq_ok_iff.mpr ⟨t, rfl, h⟩, rfl⟩
  | units t => exact bind_eq_ok_iff.mpr ⟨_, ident_eq_ok_iff.mpr ⟨t, rfl, h⟩, rfl⟩
  | ascii t => exact bind_eq_ok_iff.mpr ⟨_, ascii_eq_ok_iff.mpr ⟨t, rfl, h⟩, rfl⟩
  | dtime t => exact advance_eq_ok_iff.mpr ⟨t.bytes, t.length_bytes, h⟩
  | obname n => exact skipName_eq_ok_iff.mpr ⟨n, h⟩
  | objref t n =>
    obtain ⟨d, ht, hn⟩ := passes_append_iff.mp h
    exact bind_eq_ok_iff.mpr
      ⟨_, ident_eq_ok_iff.mpr ⟨t, rfl, ht⟩, skipName_eq_ok_iff.mpr ⟨n, hn⟩⟩
  | attref t n l =>
    obtain ⟨e, h, hl⟩ := passes_append_iff.mp h
    obtain ⟨d, ht, hn⟩ := passes_append_iff.mp h
    refine bind_eq_ok_iff.mpr ⟨_, ident_eq_ok_iff.mpr ⟨t, rfl, ht⟩, ?_⟩
    refine bind_eq_ok_iff.mpr ⟨_, skipName_eq_ok_iff.mpr ⟨n, hn⟩, ?_⟩
    exact bind_eq_ok_iff.mpr ⟨_, ident_eq_ok_iff.mpr ⟨l, rfl, hl⟩, rfl⟩

theorem skip_eq_ok_iff {code : Code} :
    c.skip code = .ok c' ↔ ∃ d : Datum, d.code = code ∧ c.Passes d.bytes c' := by
  refine ⟨fun h => ?_, fun ⟨d, hc, h⟩ => hc ▸ skip_of_passes h⟩
  cases code with
  | numeric n =>
    obtain ⟨bytes, hl, hp⟩ := advance_eq_ok_iff.mp h
    obtain ⟨q, rfl, rfl⟩ := Quantity.exists_bytes_eq n hl
    exact ⟨.numeric q, rfl, hp⟩
  | uvari =>
    obtain ⟨_, hu⟩ := bind_pure_snd_eq_ok_iff.mp h
    obtain ⟨n, -, hp⟩ := uvari_eq_ok_iff.mp hu
    exact ⟨.uvari n, rfl, hp⟩
  | origin =>
    obtain ⟨_, hu⟩ := bind_pure_snd_eq_ok_iff.mp h
    obtain ⟨n, -, hp⟩ := uvari_eq_ok_iff.mp hu
    exact ⟨.origin n, rfl, hp⟩
  | ident =>
    obtain ⟨_, hi⟩ := bind_pure_snd_eq_ok_iff.mp h
    obtain ⟨t, -, hp⟩ := ident_eq_ok_iff.mp hi
    exact ⟨.ident t, rfl, hp⟩
  | units =>
    obtain ⟨_, hi⟩ := bind_pure_snd_eq_ok_iff.mp h
    obtain ⟨t, -, hp⟩ := ident_eq_ok_iff.mp hi
    exact ⟨.units t, rfl, hp⟩
  | ascii =>
    obtain ⟨_, ha⟩ := bind_pure_snd_eq_ok_iff.mp h
    obtain ⟨t, -, hp⟩ := ascii_eq_ok_iff.mp ha
    exact ⟨.ascii t, rfl, hp⟩
  | dtime =>
    obtain ⟨bytes, hl, hp⟩ := advance_eq_ok_iff.mp h
    obtain ⟨t, rfl⟩ := WrittenTime.exists_bytes_eq bytes hl
    exact ⟨.dtime t, rfl, hp⟩
  | obname =>
    obtain ⟨n, hp⟩ := skipName_eq_ok_iff.mp h
    exact ⟨.obname n, rfl, hp⟩
  | objref =>
    obtain ⟨⟨_, _⟩, hi, hs⟩ := bind_eq_ok_iff.mp h
    obtain ⟨t, -, ht⟩ := ident_eq_ok_iff.mp hi
    obtain ⟨n, hn⟩ := skipName_eq_ok_iff.mp hs
    exact ⟨.objref t n, rfl, passes_append_iff.mpr ⟨_, ht, hn⟩⟩
  | attref =>
    obtain ⟨⟨_, _⟩, hi, hrest⟩ := bind_eq_ok_iff.mp h
    obtain ⟨t, -, ht⟩ := ident_eq_ok_iff.mp hi
    obtain ⟨e, hs, htail⟩ := bind_eq_ok_iff.mp hrest
    obtain ⟨n, hn⟩ := skipName_eq_ok_iff.mp hs
    obtain ⟨_, hl⟩ := bind_pure_snd_eq_ok_iff.mp htail
    obtain ⟨l, -, hlabel⟩ := ident_eq_ok_iff.mp hl
    exact ⟨.attref t n l, rfl,
      passes_append_iff.mpr ⟨e, passes_append_iff.mpr ⟨_, ht, hn⟩, hlabel⟩⟩

end Cursor

theorem Span.skip_eq_ok_iff {c c' : Cursor} : ∀ {span : Span},
    Span.skip span c = .ok c' ↔
      ∃ ds : List Datum, ds.map Datum.code = span ∧ c.Passes (ds.flatMap Datum.bytes) c'
  | [] => by
    simp only [Span.skip, Except.ok.injEq, List.map_eq_nil_iff, exists_eq_left, List.flatMap_nil,
      Cursor.passes_nil_iff, eq_comm]
  | code :: rest => by
    simp only [Span.skip, bind_eq_ok_iff, Cursor.skip_eq_ok_iff, Span.skip_eq_ok_iff,
      List.map_eq_cons_iff]
    constructor
    · rintro ⟨e, ⟨d, hc, hd⟩, ds, hcs, hds⟩
      exact ⟨d :: ds, ⟨d, ds, rfl, hc, hcs⟩, Cursor.passes_append_iff.mpr ⟨e, hd, hds⟩⟩
    · rintro ⟨_, ⟨d, ds, rfl, hc, hcs⟩, h⟩
      obtain ⟨e, hd, hds⟩ := Cursor.passes_append_iff.mp h
      exact ⟨e, ⟨d, hc, hd⟩, ds, hcs, hds⟩

namespace Field

variable {identCapacity : Nat} {c c' : Cursor}

/-- Reading a field and passing over it are one, the value aside. -/
theorem map_snd_read (code : Code) : (read identCapacity code c).map Prod.snd = c.skip code := by
  cases code with
  | numeric n =>
    simp only [read, Cursor.skip, Cursor.advance_eq]
    cases c.take n.width <;> rfl
  | dtime =>
    simp only [read, Cursor.skip, Cursor.advance_eq]
    cases c.take 8 <;> rfl
  | uvari | origin =>
    simp only [read, Cursor.skip]
    cases c.uvari <;> rfl
  | ident | units =>
    simp only [read, Cursor.skip]
    cases c.ident <;> rfl
  | ascii =>
    simp only [read, Cursor.skip]
    cases c.ascii <;> rfl
  | obname =>
    simp only [read, Cursor.skip, ← Cursor.map_snd_objectName]
    cases c.objectName <;> rfl
  | objref =>
    simp only [read, Cursor.skip, Cursor.objectRef]
    rcases c.ident with _ | ⟨_, c⟩
    · rfl
    · rw [ok_bind, ok_bind, ← Cursor.map_snd_objectName]
      rcases c.objectName with _ | ⟨_, _⟩ <;> rfl
  | attref =>
    simp only [read, Cursor.skip, Cursor.attributeRef, Cursor.objectRef]
    rcases c.ident with _ | ⟨_, c⟩
    · rfl
    · rw [ok_bind, ok_bind, ← Cursor.map_snd_objectName]
      rcases c.objectName with _ | ⟨_, c⟩
      · rfl
      · show Except.map _ ((c.ident >>= _) >>= _) = (c.ident >>= _ : Except OutOfBounds Cursor)
        rcases c.ident with _ | ⟨_, _⟩ <;> rfl

theorem read_of_passes {d : Datum} (h : c.Passes d.bytes c') :
    read identCapacity d.code c = .ok (d.staged identCapacity, c') := by
  cases d with
  | numeric q =>
    refine bind_eq_ok_iff.mpr ⟨_, Cursor.take_eq_ok_iff.mpr ⟨q.length_bytes, h⟩, ?_⟩
    simp only [q.read_bytes]
    rfl
  | uvari n => exact bind_eq_ok_iff.mpr ⟨_, Cursor.uvari_eq_ok_iff.mpr ⟨n, rfl, h⟩, rfl⟩
  | origin n => exact bind_eq_ok_iff.mpr ⟨_, Cursor.uvari_eq_ok_iff.mpr ⟨n, rfl, h⟩, rfl⟩
  | ident t => exact bind_eq_ok_iff.mpr ⟨_, Cursor.ident_eq_ok_iff.mpr ⟨t, rfl, h⟩, rfl⟩
  | units t => exact bind_eq_ok_iff.mpr ⟨_, Cursor.ident_eq_ok_iff.mpr ⟨t, rfl, h⟩, rfl⟩
  | ascii t => exact bind_eq_ok_iff.mpr ⟨_, Cursor.ascii_eq_ok_iff.mpr ⟨t, rfl, h⟩, rfl⟩
  | dtime t => exact bind_eq_ok_iff.mpr ⟨_, Cursor.take_eq_ok_iff.mpr ⟨t.length_bytes, h⟩, rfl⟩
  | obname n => exact bind_eq_ok_iff.mpr ⟨_, Cursor.objectName_eq_ok_iff.mpr ⟨n, rfl, h⟩, rfl⟩
  | objref t n =>
    exact bind_eq_ok_iff.mpr ⟨_, Cursor.objectRef_eq_ok_iff.mpr ⟨t, n, rfl, h⟩, rfl⟩
  | attref t n l =>
    exact bind_eq_ok_iff.mpr ⟨_, Cursor.attributeRef_eq_ok_iff.mpr ⟨t, n, l, rfl, h⟩, rfl⟩

/-- A field is read where a datum of its code stands, and nowhere else. -/
theorem read_eq_ok_iff {code : Code} {r : Except Refusal Field} :
    read identCapacity code c = .ok (r, c') ↔
      ∃ d : Datum, d.code = code ∧ c.Passes d.bytes c' ∧ d.staged identCapacity = r := by
  constructor
  · intro h
    have hs : c.skip code = .ok c' := by rw [← map_snd_read, h]; rfl
    obtain ⟨d, rfl, hp⟩ := Cursor.skip_eq_ok_iff.mp hs
    rw [read_of_passes hp] at h
    simp only [Except.ok.injEq, Prod.mk.injEq, and_true] at h
    exact ⟨d, rfl, hp, h⟩
  · rintro ⟨d, rfl, hp, rfl⟩
    exact read_of_passes hp

end Field

end WellLog
