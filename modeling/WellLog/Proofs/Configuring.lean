import Mathlib.Data.List.Perm.Subperm
import WellLog.Proofs.LineByLine
import WellLog.Settings.Text

/-!
# Settings from changes, from lines and as they are

Settings are changed one at a time, and what a part of them comes to is decided by the last change
of this part alone (`Settings.Part.get_foldl_set`). Whichever way they come, one check decides on
them: when changes are carried out, when a text is read, and when a decoder is made.

The line of a setting is a plain one (`Setting.isPlain_toLine`), so lines with different keys are
read as the changes that they stand for (`Settings.ofToml_lines`). Of the lines of given settings,
any selection in any order is read as just the parts that it holds (`Settings.ofToml_of_subperm`).
-/

namespace WellLog

/-- A decoder keeps its settings. -/
structure FrameDecoder where
  settings : Settings

/-- The settings are checked again, as they need not come from changes or a text. -/
def FrameDecoder.make (s : Settings) : Except SettingsFault FrameDecoder := s.check.map .mk

theorem FrameDecoder.make_eq_ok_iff {s : Settings} {d : FrameDecoder} :
    make s = .ok d ↔ d.settings = s ∧ s.IsValid := by
  obtain ⟨t⟩ := d
  rw [make, Settings.check]
  split
  · next hvalid => simp [Except.map, hvalid, eq_comm]
  · next hvalid => simp [Except.map, hvalid]

namespace Settings

/-! ## Changes -/

theorem set_of_mem_toList {s : Settings} {c : Setting} (h : c ∈ s.toList) : s.set c = s := by
  simp only [toList, List.mem_cons, List.not_mem_nil, or_false] at h
  rcases h with rfl | rfl | rfl | rfl <;> rfl

/-- One of the values that settings have, and the change that sets it. A change of another part
leaves the value alone. -/
structure Part (α : Type) where
  key : String
  get : Settings → α
  setting : α → Setting
  given? : Setting → Option α
  key_setting : ∀ v, (setting v).key = key
  given?_eq_some_iff : ∀ {c v}, given? c = some v ↔ c = setting v
  get_set : ∀ s c, get (s.set c) = (given? c).getD (get s)
  setting_get_mem : ∀ s, setting (get s) ∈ s.toList

namespace Part

def identCapacity : Part Nat where
  key := "ident_capacity"
  get := Settings.identCapacity
  setting := .identCapacity
  given?
    | .identCapacity n => some n
    | _ => none
  key_setting _ := rfl
  given?_eq_some_iff := by rintro (_ | _ | _ | _) v <;> simp
  get_set := by rintro s (_ | _ | _ | _) <;> rfl
  setting_get_mem s := by simp [toList]

def sequencePolicy : Part SequencePolicy where
  key := "sequence_policy"
  get := Settings.sequencePolicy
  setting := .sequencePolicy
  given?
    | .sequencePolicy policy => some policy
    | _ => none
  key_setting _ := rfl
  given?_eq_some_iff := by rintro (_ | _ | _ | _) v <;> simp
  get_set := by rintro s (_ | _ | _ | _) <;> rfl
  setting_get_mem s := by simp [toList]

def firstRowIndex : Part UInt32 where
  key := "first_row_index"
  get := Settings.firstRowIndex
  setting := .firstRowIndex
  given?
    | .firstRowIndex n => some n
    | _ => none
  key_setting _ := rfl
  given?_eq_some_iff := by rintro (_ | _ | _ | _) v <;> simp
  get_set := by rintro s (_ | _ | _ | _) <;> rfl
  setting_get_mem s := by simp [toList]

def logAnomalies : Part Bool where
  key := "log_anomalies"
  get := Settings.logAnomalies
  setting := .logAnomalies
  given?
    | .logAnomalies on => some on
    | _ => none
  key_setting _ := rfl
  given?_eq_some_iff := by rintro (_ | _ | _ | _) v <;> simp
  get_set := by rintro s (_ | _ | _ | _) <;> rfl
  setting_get_mem s := by simp [toList]

variable {α : Type} (p : Part α)

/-- What the part is set to by changes in the end, if it is set. -/
def last? (changes : List Setting) : Option α := (changes.filterMap p.given?).getLast?

/-- The last change of a part counts. -/
theorem get_foldl_set (changes : List Setting) (s : Settings) :
    p.get (changes.foldl set s) = (p.last? changes).getD (p.get s) := by
  induction changes generalizing s with
  | nil => rfl
  | cons c changes ih =>
    rw [List.foldl_cons, ih, p.get_set, last?, last?, List.filterMap_cons]
    rcases p.given? c with _ | v
    · rfl
    · simp only [List.getLast?_cons, Option.getD_some]

/-- Changes of other parts may stand anywhere. -/
theorem last?_filter (changes : List Setting) :
    p.last? (changes.filter (·.key = p.key)) = p.last? changes := by
  have hgiven : ∀ c, (if decide (c.key = p.key) then p.given? c else none) = p.given? c := by
    intro c
    split
    · rfl
    · next hkey =>
      rcases hc : p.given? c with _ | v
      · rfl
      · rw [p.given?_eq_some_iff.mp hc, p.key_setting] at hkey
        simp at hkey
  rw [last?, last?, List.filterMap_filter, funext hgiven]

/-! A selection of the lines of given settings sets the parts that it holds to what they have. -/

variable {s : Settings} {given : List Setting} (h : given ⊆ s.toList)
include h

theorem eq_get_of_mem {v : α} (hv : v ∈ given.filterMap p.given?) : v = p.get s := by
  obtain ⟨c, hc, hv⟩ := List.mem_filterMap.mp hv
  have hget := p.get_set s c
  rw [set_of_mem_toList (h hc), hv] at hget
  exact hget.symm

theorem getD_last? (v : α) [Decidable (p.setting (p.get s) ∈ given)] :
    (p.last? given).getD v = if p.setting (p.get s) ∈ given then p.get s else v := by
  rcases hlast : p.last? given with _ | w
  · have hnil := List.getLast?_eq_none_iff.mp hlast
    have hnot : p.setting (p.get s) ∉ given := by
      intro hmem
      have hv : p.get s ∈ given.filterMap p.given? :=
        List.mem_filterMap.mpr ⟨_, hmem, p.given?_eq_some_iff.mpr rfl⟩
      rw [hnil] at hv
      cases hv
    rw [if_neg hnot]
    rfl
  · have hw := List.mem_of_getLast? hlast
    obtain rfl := p.eq_get_of_mem h hw
    obtain ⟨c, hc, hv⟩ := List.mem_filterMap.mp hw
    rw [p.given?_eq_some_iff.mp hv] at hc
    rw [if_pos hc]
    rfl

end Part

/-- What changes make of the standard settings. -/
def changed (changes : List Setting) : Settings :=
  ⟨(Part.identCapacity.last? changes).getD 255,
    (Part.sequencePolicy.last? changes).getD .reset,
    (Part.firstRowIndex.last? changes).getD 1,
    (Part.logAnomalies.last? changes).getD true⟩

theorem foldl_set_standard (changes : List Setting) :
    changes.foldl set standard = changed changes := by
  have hcapacity : (changes.foldl set standard).identCapacity = _ :=
    Part.identCapacity.get_foldl_set changes standard
  have hpolicy : (changes.foldl set standard).sequencePolicy = _ :=
    Part.sequencePolicy.get_foldl_set changes standard
  have hindex : (changes.foldl set standard).firstRowIndex = _ :=
    Part.firstRowIndex.get_foldl_set changes standard
  have hlog : (changes.foldl set standard).logAnomalies = _ :=
    Part.logAnomalies.get_foldl_set changes standard
  rcases hs : changes.foldl set standard with ⟨capacity, policy, index, log⟩
  rw [hs] at hcapacity hpolicy hindex hlog
  rw [changed, mk.injEq]
  exact ⟨hcapacity, hpolicy, hindex, hlog⟩

theorem build_eq_ok_iff {changes : List Setting} {s : Settings} :
    build changes = .ok s ↔ (changed changes).IsValid ∧ changed changes = s := by
  rw [build, foldl_set_standard, check_eq_ok_iff]

/-- Only the order among changes with the same key matters. -/
theorem build_congr {changes others : List Setting}
    (h : ∀ key, changes.filter (·.key = key) = others.filter (·.key = key)) :
    build changes = build others := by
  have hlast : ∀ {α : Type} (p : Part α), p.last? changes = p.last? others := by
    intro α p
    rw [← p.last?_filter changes, h p.key, p.last?_filter]
  rw [build, build, foldl_set_standard, foldl_set_standard]
  simp only [changed, hlast]

end Settings

/-! ## Lines -/

namespace Setting

def value : Setting → Toml.Value
  | identCapacity n => .integer n
  | sequencePolicy policy => .text policy.name
  | firstRowIndex n => .integer n.toNat
  | logAnomalies on => .boolean on

def toLine (c : Setting) : Toml.Line := ⟨c.key, c.valueText, c.value⟩

theorem ofEntry?_toLine (c : Setting) :
    ofEntry? c.toLine.entry.1 c.toLine.entry.2 = some c := by
  cases c with
  | identCapacity n => rfl
  | sequencePolicy policy => cases policy <;> rfl
  | firstRowIndex n =>
    have hrange : 0 ≤ (n.toNat : Int) ∧ (n.toNat : Int) < 0x100000000 := by
      have := n.toNat_lt
      omega
    simp only [Toml.Line.entry, toLine, key, value, ofEntry?, hrange, and_self, if_true,
      Int.toNat_natCast, UInt32.ofNat_toNat]
  | logAnomalies on => rfl

theorem toList_line (c : Setting) : c.line.toList = c.toLine.chars := by
  simp [line, toLine, Toml.Line.chars]

theorem isPlain_toLine {c : Setting} (h : ∀ n, c = .identCapacity n → n < 0x8000000000000000) :
    c.toLine.IsPlain := by
  constructor
  · cases c <;> simp [toLine, key]
  · cases c <;> simp [toLine, key, Toml.isBare]
  · cases c with
    | identCapacity n => exact Toml.isTextOf_integer (h n rfl)
    | sequencePolicy policy =>
      refine Toml.isTextOf_text ?_
      cases policy <;> exact List.all_eq_true.mp rfl
    | firstRowIndex n =>
      refine Toml.isTextOf_integer ?_
      have := n.toNat_lt
      omega
    | logAnomalies on => exact Toml.isTextOf_boolean on

end Setting

namespace Settings

variable {given : List Setting}

/-- Lines with different keys are read as the changes that they stand for. -/
theorem changes?_lines (hkeys : (given.map Setting.key).Nodup)
    (hsmall : ∀ n, .identCapacity n ∈ given → n < 0x8000000000000000) :
    changes? (String.join (given.map Setting.line)) = some given := by
  have hchars : (String.join (given.map Setting.line)).toList
      = (given.map Setting.toLine).flatMap Toml.Line.chars := by
    rw [String.toList_join, List.flatMap_map, List.flatMap_map, funext Setting.toList_line]
  have hplain : ∀ l ∈ given.map Setting.toLine, l.IsPlain := by
    intro l hl
    obtain ⟨c, hc, rfl⟩ := List.mem_map.mp hl
    exact Setting.isPlain_toLine fun n hn => hsmall n (hn ▸ hc)
  have hnames : ((given.map Setting.toLine).map Toml.Line.key).Nodup := by
    rwa [List.map_map]
  have hentries : ((given.map Setting.toLine).map Toml.Line.entry).mapM
      (fun entry => Setting.ofEntry? entry.1 entry.2) = some given := by
    have hread : ((fun entry => Setting.ofEntry? entry.1 entry.2) ∘ Toml.Line.entry)
        ∘ Setting.toLine = some := funext Setting.ofEntry?_toLine
    rw [List.mapM_map, List.mapM_map, hread]
    exact (List.mapM_pure (f := id)).trans (congrArg some given.map_id)
  rw [changes?, Toml.parse?_eq_of_lines hchars hplain hnames]
  exact hentries

theorem ofToml_lines (hkeys : (given.map Setting.key).Nodup)
    (hsmall : ∀ n, .identCapacity n ∈ given → n < 0x8000000000000000) :
    ofToml (String.join (given.map Setting.line)) = build given := by
  rw [ofToml, changes?_lines hkeys hsmall]

/-! ## Lines of given settings -/

section Selection

variable {s : Settings}

/-- The standard settings, except for the parts of `s` that are among the changes. -/
def selected (s : Settings) (given : List Setting) : Settings :=
  ⟨if .identCapacity s.identCapacity ∈ given then s.identCapacity else 255,
    if .sequencePolicy s.sequencePolicy ∈ given then s.sequencePolicy else .reset,
    if .firstRowIndex s.firstRowIndex ∈ given then s.firstRowIndex else 1,
    if .logAnomalies s.logAnomalies ∈ given then s.logAnomalies else true⟩

theorem changed_eq_selected (h : given ⊆ s.toList) : changed given = s.selected given := by
  rw [changed, selected, mk.injEq]
  exact ⟨Part.identCapacity.getD_last? h 255, Part.sequencePolicy.getD_last? h .reset,
    Part.firstRowIndex.getD_last? h 1, Part.logAnomalies.getD_last? h true⟩

theorem isValid_selected (hs : s.IsValid) : (s.selected given).IsValid := by
  rw [IsValid, selected]
  dsimp only
  split
  · exact hs
  · decide

theorem selected_of_perm (h : given.Perm s.toList) : s.selected given = s := by
  have hmem : ∀ {α : Type} (p : Part α), p.setting (p.get s) ∈ given := fun p =>
    h.mem_iff.mpr (p.setting_get_mem s)
  rw [selected, mk.injEq]
  exact ⟨if_pos (hmem Part.identCapacity), if_pos (hmem Part.sequencePolicy),
    if_pos (hmem Part.firstRowIndex), if_pos (hmem Part.logAnomalies)⟩

theorem ofToml_of_subperm (hs : s.IsValid) (h : given.Subperm s.toList) :
    ofToml (String.join (given.map Setting.line)) = .ok (s.selected given) := by
  have hkeys : (given.map Setting.key).Nodup := by
    obtain ⟨part, hperm, hsub⟩ := h
    have hall : (s.toList.map Setting.key).Nodup := by
      simp only [toList, List.map_cons, List.map_nil, Setting.key]
      decide
    exact ((hperm.map _).nodup_iff).mp (hall.sublist (hsub.map _))
  have hsmall : ∀ n, .identCapacity n ∈ given → n < 0x8000000000000000 := by
    intro n hn
    have hcapacity : n = s.identCapacity :=
      Part.identCapacity.eq_get_of_mem h.subset (List.mem_filterMap.mpr ⟨_, hn, rfl⟩)
    have hle : s.identCapacity ≤ 255 := hs.2
    omega
  have hchanged := changed_eq_selected h.subset
  rw [ofToml_lines hkeys hsmall, build_eq_ok_iff, hchanged]
  exact ⟨isValid_selected hs, rfl⟩

end Selection

theorem isValid_of_ofToml {text : String} {s : Settings} (h : ofToml text = .ok s) :
    s.IsValid := by
  rw [ofToml] at h
  split at h
  · exact isValid_of_build h
  · cases h

end Settings

end WellLog
