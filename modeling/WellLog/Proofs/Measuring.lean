import WellLog.Proofs.Stepping

/-!
# Widths of spans

A span takes the same bytes wherever they stand. In a record it passes over as many bytes as it takes
of what is left, and what it finds missing it says of the offset in the record (`Span.carries_skip`).
So the width of two spans is that of the one and that of the other behind it (`Span.isAdditive`).

The bytes of a span say where they end: what follows them is not looked at, and no part of them that
is cut off is enough (`Span.isDelimited_of_sourceWidth`).
-/

namespace WellLog

/-- What is missing, if all bytes stand the number of bytes further in. -/
def OutOfBounds.behind (n : Nat) (e : OutOfBounds) : OutOfBounds := { e with offset := n + e.offset }

/-- A read and the same read with all bytes the number of bytes further in. -/
inductive Carries {α β : Type} (n : Nat) (f : α → β) :
    Except OutOfBounds α → Except OutOfBounds β → Prop
  | ok (a : α) : Carries n f (.ok a) (.ok (f a))
  | error (e : OutOfBounds) : Carries n f (.error e) (.error (e.behind n))

section Carries

variable {α β γ : Type} {n : Nat} {f : α → β} {x : Except OutOfBounds α} {y : Except OutOfBounds β}

theorem carries_ok_iff {a : α} : Carries n f (.ok a) y ↔ y = .ok (f a) :=
  ⟨fun | .ok _ => rfl, fun h => h ▸ .ok a⟩

theorem carries_error_iff {e : OutOfBounds} : Carries n f (.error e) y ↔ y = .error (e.behind n) :=
  ⟨fun | .error _ => rfl, fun h => h ▸ .error e⟩

theorem Carries.map (h : Carries n f x y) (g : β → γ) :
    Carries n (fun a => g (f a)) x (y >>= fun b => pure (g b)) := by
  cases h with
  | ok a => exact .ok a
  | error e => exact .error e

theorem Carries.bind {δ : Type} {g : γ → δ} {read : α → Except OutOfBounds γ}
    {read' : β → Except OutOfBounds δ} (h : Carries n f x y)
    (hread : ∀ a, Carries n g (read a) (read' (f a))) : Carries n g (x >>= read) (y >>= read') := by
  cases h with
  | ok a => exact hread a
  | error e => exact .error e

end Carries

/-! ## Reads further in -/

namespace Cursor

variable (c : Cursor) (n : Nat)

/-- The cursor with the same bytes left, the number of bytes further in. -/
def behind : Cursor := ⟨n + c.position, c.rest⟩

/-- A value with the cursor that it leaves. -/
def onward {α : Type} (x : α × Cursor) : α × Cursor := (x.1, x.2.behind n)

theorem moved_behind (m : Nat) : (c.behind n).moved m = (c.moved m).behind n := by
  simp only [moved, behind, Nat.add_assoc]

theorem carries_ensure (m : Nat) : Carries n id (c.ensure m) ((c.behind n).ensure m) := by
  simp only [ensure_eq, behind]
  split
  · exact .ok ()
  · exact .error _

theorem carries_take (m : Nat) : Carries n (onward n) (c.take m) ((c.behind n).take m) := by
  refine (carries_ensure c n m).bind fun _ => ?_
  rw [moved_behind]
  exact .ok _

theorem carries_advance (m : Nat) :
    Carries n (behind · n) (c.advance m) ((c.behind n).advance m) := by
  refine (carries_ensure c n m).bind fun _ => ?_
  rw [moved_behind]
  exact .ok _

theorem carries_uvari : Carries n (onward n) c.uvari (c.behind n).uvari :=
  (carries_ensure c n 1).bind fun _ => (carries_take c n _).bind fun _ => .ok _

theorem carries_ident : Carries n (onward n) c.ident (c.behind n).ident :=
  (carries_ensure c n 1).bind fun _ => (carries_take c n _).bind fun _ => .ok _

theorem carries_ascii : Carries n (onward n) c.ascii (c.behind n).ascii :=
  (carries_uvari c n).bind fun x => carries_take x.2 n x.1

theorem carries_skipName : Carries n (behind · n) c.skipName (c.behind n).skipName :=
  (carries_uvari c n).bind fun x => (carries_advance x.2 n 1).bind fun c =>
    (carries_ident c n).bind fun _ => .ok _

theorem carries_skip (code : Code) :
    Carries n (behind · n) (c.skip code) ((c.behind n).skip code) := by
  cases code with
  | numeric k => exact carries_advance c n k.width
  | dtime => exact carries_advance c n 8
  | uvari | origin => exact (carries_uvari c n).bind fun _ => .ok _
  | ident | units => exact (carries_ident c n).bind fun _ => .ok _
  | ascii => exact (carries_ascii c n).bind fun _ => .ok _
  | obname => exact carries_skipName c n
  | objref => exact (carries_ident c n).bind fun x => carries_skipName x.2 n
  | attref =>
    exact (carries_ident c n).bind fun x => (carries_skipName x.2 n).bind fun c =>
      (carries_ident c n).bind fun _ => .ok _

end Cursor

namespace Span

theorem carries_skip_behind (n : Nat) : ∀ (span : Span) (c : Cursor),
    Carries n (Cursor.behind · n) (span.skip c) (span.skip (c.behind n))
  | [], c => .ok c
  | code :: span, c => (Cursor.carries_skip c n code).bind (carries_skip_behind n span)

theorem skip_append (b : Span) : ∀ (a : Span) (c : Cursor),
    skip (a ++ b) c = a.skip c >>= b.skip
  | [], _ => rfl
  | code :: a, c => by
    rw [List.cons_append, skip, skip]
    rcases c.skip code with e | c'
    · rfl
    · exact skip_append b a c'

/-! ## Widths -/

theorem sourceWidth_eq_ok_iff {span : Span} {bytes : List UInt8} {n : Nat} :
    span.sourceWidth bytes = .ok n ↔ ∃ (ds : List Datum) (rest : List UInt8),
      ds.map Datum.code = span ∧ bytes = ds.flatMap Datum.bytes ++ rest
        ∧ (ds.flatMap Datum.bytes).length = n := by
  simp only [sourceWidth, bind_eq_ok_iff, pure_eq_ok_iff, skip_eq_ok_iff]
  constructor
  · rintro ⟨c, ⟨ds, hc, hp⟩, rfl⟩
    exact ⟨ds, c.rest, hc, hp.rest, by rw [hp.position]; exact (Nat.zero_add _).symm⟩
  · rintro ⟨ds, rest, hc, rfl, rfl⟩
    exact ⟨⟨_, rest⟩, ⟨ds, hc, rfl, (Nat.zero_add _).symm⟩, rfl⟩

theorem skip_ofBytes_of_eq_ok {span : Span} {bytes : List UInt8} {n : Nat}
    (h : span.sourceWidth bytes = .ok n) : span.skip (.ofBytes bytes) = .ok ⟨n, bytes.drop n⟩ := by
  obtain ⟨c, hs, hn⟩ := bind_eq_ok_iff.mp h
  obtain ⟨ds, -, hp⟩ := skip_eq_ok_iff.mp hs
  obtain ⟨rfl, -⟩ := hp.eq_moved
  obtain rfl : 0 + (ds.flatMap Datum.bytes).length = n := pure_eq_ok_iff.mp hn
  rw [hs, Nat.zero_add]
  simp only [Cursor.moved, Cursor.ofBytes, Nat.zero_add]

theorem skip_ofBytes_of_eq_error {span : Span} {bytes : List UInt8} {e : OutOfBounds}
    (h : span.sourceWidth bytes = .error e) : span.skip (.ofBytes bytes) = .error e := by
  rcases bind_eq_error_iff.mp h with hs | ⟨c, -, hc⟩
  · exact hs
  · cases hc

/-- A span passes over as many bytes of a record as it takes of what is left. -/
theorem carries_skip (span : Span) (c : Cursor) :
    Carries c.position c.moved (span.sourceWidth c.rest) (span.skip c) := by
  have hskip : Carries c.position (Cursor.behind · c.position) (span.skip (.ofBytes c.rest))
    (span.skip c) := carries_skip_behind c.position span (.ofBytes c.rest)
  rcases hw : span.sourceWidth c.rest with e | n
  · rw [skip_ofBytes_of_eq_error hw, carries_error_iff] at hskip
    rw [hskip]
    exact .error e
  · rw [skip_ofBytes_of_eq_ok hw, carries_ok_iff] at hskip
    rw [hskip]
    exact .ok n

theorem sourceWidth_append_of_error {a : Span} (b : Span) {bytes : List UInt8} {e : OutOfBounds}
    (h : a.sourceWidth bytes = .error e) : sourceWidth (a ++ b) bytes = .error e := by
  rw [sourceWidth, skip_append, skip_ofBytes_of_eq_error h]
  rfl

/-- The second span takes its bytes behind those of the first. -/
theorem carries_sourceWidth_append {a : Span} (b : Span) {bytes : List UInt8} {m : Nat}
    (h : a.sourceWidth bytes = .ok m) :
    Carries m (m + ·) (b.sourceWidth (bytes.drop m)) (sourceWidth (a ++ b) bytes) := by
  have hskip : Carries m (Cursor.moved ⟨m, bytes.drop m⟩) (b.sourceWidth (bytes.drop m))
    (b.skip ⟨m, bytes.drop m⟩) := carries_skip b ⟨m, bytes.drop m⟩
  have hab : sourceWidth (a ++ b) bytes = b.skip ⟨m, bytes.drop m⟩ >>= fun c => pure c.position := by
    rw [sourceWidth, skip_append, skip_ofBytes_of_eq_ok h]
    rfl
  rw [hab]
  exact hskip.map Cursor.position

/-- The width of two spans is that of the one and that of the other behind it, and what is missing
for the other is missing so much further in. -/
structure IsAdditive (a b : Span) (bytes : List UInt8) : Prop where
  ok_iff : ∀ n, sourceWidth (a ++ b) bytes = .ok n ↔ ∃ m ≤ n,
    a.sourceWidth bytes = .ok m ∧ b.sourceWidth (bytes.drop m) = .ok (n - m)
  front : ∀ e, a.sourceWidth bytes = .error e → sourceWidth (a ++ b) bytes = .error e
  back : ∀ m e, a.sourceWidth bytes = .ok m → b.sourceWidth (bytes.drop m) = .error e →
    sourceWidth (a ++ b) bytes = .error (e.behind m)

/-- The first bytes are those of the span and end where it does. -/
structure IsDelimited (span : Span) (bytes : List UInt8) (n : Nat) : Prop where
  le_length : n ≤ bytes.length
  length_le : span.length ≤ n
  extended : ∀ more, span.sourceWidth (bytes.take n ++ more) = .ok n
  cut : ∀ k < n, ∃ e, span.sourceWidth (bytes.take k) = .error e

theorem isAdditive (a b : Span) (bytes : List UInt8) : IsAdditive a b bytes := by
  rcases ha : a.sourceWidth bytes with e | m
  · have hab := sourceWidth_append_of_error b ha
    exact ⟨fun n => by simp [ha, hab], fun e' he => hab.trans (ha.symm.trans he),
      fun m e' hm => by simp [ha] at hm⟩
  · have hab := carries_sourceWidth_append b ha
    refine ⟨fun n => ?_, fun e he => by simp [ha] at he, fun m' e hm he => ?_⟩
    · rcases hb : b.sourceWidth (bytes.drop m) with e | k
      · rw [hb, carries_error_iff] at hab
        simp [ha, hb, hab]
      · rw [hb, carries_ok_iff] at hab
        simp only [ha, hab, Except.ok.injEq]
        constructor
        · rintro rfl
          exact ⟨m, by omega, rfl, by rw [hb, Nat.add_sub_cancel_left]⟩
        · rintro ⟨m', hle, rfl, hn⟩
          rw [hb, Except.ok.injEq] at hn
          omega
    · obtain rfl : m = m' := by simpa [ha] using hm
      rwa [he, carries_error_iff] at hab

theorem length_le_length_flatMap : ∀ ds : List Datum, ds.length ≤ (ds.flatMap Datum.bytes).length
  | [] => Nat.le_refl 0
  | d :: ds => by
    have hd := d.length_bytes_pos
    have hds := length_le_length_flatMap ds
    simp only [List.flatMap_cons, List.length_append, List.length_cons]
    omega

theorem isDelimited_of_sourceWidth {span : Span} {bytes : List UInt8} {n : Nat}
    (h : span.sourceWidth bytes = .ok n) : span.IsDelimited bytes n := by
  obtain ⟨ds, rest, rfl, rfl, rfl⟩ := sourceWidth_eq_ok_iff.mp h
  constructor
  case le_length => simp
  case length_le =>
    rw [List.length_map]
    exact length_le_length_flatMap ds
  case extended =>
    intro more
    rw [List.take_left]
    exact sourceWidth_eq_ok_iff.mpr ⟨ds, more, rfl, rfl, rfl⟩
  case cut =>
    intro k hk
    rcases hw : sourceWidth _ _ with e | m
    · exact ⟨e, rfl⟩
    · -- The data that are read from the part would be those that the whole begins with.
      obtain ⟨es, tail, hes, htake, rfl⟩ := sourceWidth_eq_ok_iff.mp hw
      have hle := congrArg List.length htake
      have hwhole := List.take_append_drop k (ds.flatMap Datum.bytes ++ rest)
      rw [htake, List.append_assoc] at hwhole
      obtain ⟨rfl, -⟩ := Datum.flatMap_append_inj hes hwhole
      simp only [List.length_take, List.length_append] at hle
      omega

/-- Anywhere in a record, the cursor moves by the width of what is left or stays where it is. -/
theorem run_skipSpan (span : Span) (before rest : List UInt8) :
    (Motion.skipSpan span).run (before ++ rest) before.length =
      match span.sourceWidth rest with
      | .ok n => (.ok (), before.length + n)
      | .error e => (.error (e.behind before.length), before.length) := by
  have hskip : Carries before.length (Cursor.moved ⟨before.length, rest⟩) (span.sourceWidth rest)
    (span.skip ⟨before.length, rest⟩) := carries_skip span ⟨before.length, rest⟩
  rcases hw : span.sourceWidth rest with e | n
  · rw [hw, carries_error_iff] at hskip
    exact (Motion.mirrors_skipSpan span).run_of_eq_error hskip
  · rw [hw, carries_ok_iff] at hskip
    obtain ⟨⟨⟩, next, hr, hc⟩ := (Motion.mirrors_skipSpan span).run_of_eq_ok hskip
    rw [hr, show next = before.length + n from congrArg Cursor.position hc]

/-- Widths add up, each is seen from its own bytes alone, and a cursor moves by them. -/
theorem sourceWidth_additive :
    (∀ (a b : Span) (bytes : List UInt8), IsAdditive a b bytes)
      ∧ (∀ (span : Span) (bytes : List UInt8) (n : Nat),
        span.sourceWidth bytes = .ok n → span.IsDelimited bytes n)
      ∧ ∀ (span : Span) (before rest : List UInt8),
        (Motion.skipSpan span).run (before ++ rest) before.length =
          match span.sourceWidth rest with
          | .ok n => (.ok (), before.length + n)
          | .error e => (.error (e.behind before.length), before.length) :=
  ⟨isAdditive, fun _ _ _ => isDelimited_of_sourceWidth, run_skipSpan⟩

theorem sourceWidth_additive_cut :
    sourceWidth [.ident, .uvari] [2, 65, 66, 128, 1, 255] = .ok 5
      ∧ sourceWidth [.ident, .uvari] [2, 65, 66, 128, 1] = .ok 5
      ∧ (∃ e, sourceWidth [.ident, .uvari] [2, 65, 66, 128] = .error e)
      ∧ sourceWidth ([.ident] ++ [.uvari]) [2, 65, 66, 128] = .error ⟨3 + 0, 2, 1⟩ := by
  obtain ⟨hadd, hdelimited, -⟩ := sourceWidth_additive
  have hw : sourceWidth [.ident, .uvari] [2, 65, 66, 128, 1, 255] = .ok 5 := rfl
  have hd := hdelimited _ _ _ hw
  exact ⟨hw, hd.extended [], hd.cut 4 (by decide),
    (hadd [.ident] [.uvari] [2, 65, 66, 128]).back 3 ⟨0, 2, 1⟩ rfl rfl⟩

end Span

end WellLog
