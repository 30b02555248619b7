/-!
# Slices of lists

A slice that begins or ends behind the end of a list is none, and so is a list with a slice put
into it that does not fit in. Pieces of one width that stand one behind the other are the slices
that begin at the multiples of the width (`slice?_flatMap_range`, `splice?_flatMap_range`).
-/

namespace WellLog

variable {α : Type}

/-- The elements from an offset up to another one. -/
def slice? (l : List α) (start stop : Nat) : Option (List α) :=
  if start ≤ stop ∧ stop ≤ l.length then some ((l.drop start).take (stop - start)) else none

/-- The list with other elements in the place of those from an offset on. -/
def splice? (l : List α) (start : Nat) (new : List α) : Option (List α) :=
  if start + new.length ≤ l.length then
    some (l.take start ++ new ++ l.drop (start + new.length))
  else none

/-- The elements in front of an offset and those from there on. -/
def split? (l : List α) (offset : Nat) : Option (List α × List α) :=
  if offset ≤ l.length then some (l.splitAt offset) else none

/-- The difference, if it is not negative. -/
def minus? (m n : Nat) : Option Nat := if n ≤ m then some (m - n) else none

variable {l a b c new : List α} {start n : Nat}

theorem slice?_add (h : start + n ≤ l.length) :
    slice? l start (start + n) = some ((l.drop start).take n) := by
  rw [slice?, if_pos ⟨Nat.le_add_right start n, h⟩, Nat.add_sub_cancel_left]

theorem slice?_append : slice? (a ++ b ++ c) a.length (a.length + b.length) = some b := by
  have h : a.length + b.length ≤ (a ++ b ++ c).length := by simp
  rw [slice?_add h, List.append_assoc, List.drop_left, List.take_left]

theorem splice?_of_le (h : start + new.length ≤ l.length) :
    splice? l start new = some (l.take start ++ new ++ l.drop (start + new.length)) := if_pos h

theorem splice?_append (h : new.length = b.length) :
    splice? (a ++ b ++ c) a.length new = some (a ++ new ++ c) := by
  have hle : a.length + new.length ≤ (a ++ b ++ c).length := by
    simp only [List.length_append]
    omega
  have hdrop : (a ++ b ++ c).drop (a.length + new.length) = c := by
    rw [h, ← List.length_append, List.drop_left]
  have htake : (a ++ b ++ c).take a.length = a := by rw [List.append_assoc, List.take_left]
  rw [splice?_of_le hle, htake, hdrop]

/-! ## Pieces of one width -/

section Pieces

variable {f : Nat → List α} {width k : Nat}

theorem length_flatMap_range (hf : ∀ i < n, (f i).length = width) :
    ((List.range n).flatMap f).length = n * width := by
  induction n with
  | zero => exact (Nat.zero_mul width).symm
  | succ n ih =>
    rw [List.range_succ, List.flatMap_append, List.length_append,
      ih fun i hi => hf i (Nat.lt_succ_of_lt hi), List.flatMap_singleton,
      hf n (Nat.lt_succ_self n), Nat.succ_mul]

/-- The slices of a list are the list, as far as they go. -/
theorem flatMap_range_take_drop (l : List α) (width n : Nat) :
    (List.range n).flatMap (fun i => (l.drop (i * width)).take width) = l.take (n * width) := by
  induction n with
  | zero => rw [Nat.zero_mul, List.take_zero, List.range_zero, List.flatMap_nil]
  | succ n ih =>
    rw [List.range_succ, List.flatMap_append, ih, List.flatMap_singleton, Nat.succ_mul,
      List.take_add]

/-- The pieces in front of one, that piece, and the pieces behind it. -/
theorem flatMap_range_eq (f : Nat → List α) (hk : k < n) :
    (List.range n).flatMap f
      = (List.range k).flatMap f ++ f k
        ++ (List.range (n - (k + 1))).flatMap fun i => f (k + 1 + i) := by
  obtain ⟨m, rfl⟩ := Nat.exists_eq_add_of_le hk
  rw [Nat.add_sub_cancel_left, Nat.succ_eq_add_one, List.range_add, List.range_succ,
    List.flatMap_append, List.flatMap_append, List.flatMap_singleton, List.flatMap_map]

theorem slice?_flatMap_range (hf : ∀ i < n, (f i).length = width) (hk : k < n) :
    slice? ((List.range n).flatMap f) (k * width) ((k + 1) * width) = some (f k) := by
  have hfront : ((List.range k).flatMap f).length = k * width :=
    length_flatMap_range fun i hi => hf i (Nat.lt_trans hi hk)
  rw [flatMap_range_eq f hk, Nat.succ_mul, ← hfront, ← hf k hk, slice?_append]

theorem splice?_flatMap_range (hf : ∀ i < n, (f i).length = width) (hk : k < n)
    (hnew : new.length = width) :
    splice? ((List.range n).flatMap f) (k * width) new
      = some ((List.range n).flatMap fun i => if i = k then new else f i) := by
  have hfront : ((List.range k).flatMap f).length = k * width :=
    length_flatMap_range fun i hi => hf i (Nat.lt_trans hi hk)
  have hbefore : ((List.range k).flatMap fun i => if i = k then new else f i)
      = (List.range k).flatMap f := by
    rw [List.flatMap_def, List.flatMap_def]
    exact congrArg List.flatten (List.map_congr_left fun i hi =>
      if_neg (Nat.ne_of_lt (List.mem_range.mp hi)))
  have hbehind : (fun i => if k + 1 + i = k then new else f (k + 1 + i))
      = fun i => f (k + 1 + i) := funext fun i => if_neg (by omega)
  rw [flatMap_range_eq f hk, flatMap_range_eq _ hk, hbefore, hbehind, if_pos rfl, ← hfront,
    splice?_append (hnew.trans (hf k hk).symm)]

end Pieces

end WellLog
