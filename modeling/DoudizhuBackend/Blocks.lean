/-
# Blocks of memory

A block of memory is a list of cells.  Loading, storing and copying inside it are errors (`none`) where
they leave the block, and a copy is one where its two ranges overlap.  Resizing keeps the cells up to the
new size and gives new cells any content.

The lemmas tell what is loaded of a range after each operation.
-/
import Mathlib.Data.List.Basic
import Mathlib.Tactic.Common

namespace Block

variable {α : Type}

/-- The `n` cells from `pos` on. -/
def load (mem : List α) (pos n : ℕ) : Option (List α) :=
  if pos + n ≤ mem.length then some ((mem.drop pos).take n) else none

/-- Writes `xs` at `pos`, if that lies within the memory. -/
def store (mem : List α) (pos : ℕ) (xs : List α) : Option (List α) :=
  if pos + xs.length ≤ mem.length then some (mem.take pos ++ xs ++ mem.drop (pos + xs.length)) else none

/-- `memcpy` of `n` cells inside the block. -/
def copy (mem : List α) (dst src n : ℕ) : Option (List α) :=
  if dst + n ≤ src ∨ src + n ≤ dst then (load mem src n).bind (store mem dst) else none

/-- A block of `n` cells with the first ones of this block; `fresh` gives the others. -/
def resize (mem : List α) (n : ℕ) (fresh : ℕ → α) : List α :=
  mem.take n ++ (List.range (n - mem.length)).map fresh

variable {mem mem' xs ys : List α} {pos n k : ℕ}

/-! ## Loading -/

/-- What is loaded lies within the memory. -/
theorem load_eq_some : load mem pos n = some xs ↔ pos + n ≤ mem.length ∧ xs = (mem.drop pos).take n := by
  rw [load]
  split_ifs with h
  · simp [h, eq_comm]
  · simp [h]

/-- A load brings as many items as it asks for. -/
theorem length_of_load (h : load mem pos n = some xs) : xs.length = n := by
  obtain ⟨hle, rfl⟩ := load_eq_some.mp h
  rw [List.length_take, List.length_drop]
  omega

/-- Nothing can be loaded from anywhere in the memory. -/
theorem load_zero (h : pos ≤ mem.length) : load mem pos 0 = some [] := by
  rw [load, Nat.add_zero, if_pos h, List.take_zero]

/-- A part of a range. -/
theorem load_part (h : load mem pos n = some xs) {i : ℕ} (hpart : i + k ≤ n) :
    load mem (pos + i) k = some ((xs.drop i).take k) := by
  obtain ⟨hle, rfl⟩ := load_eq_some.mp h
  rw [load, if_pos (by omega), List.drop_take, List.take_take, List.drop_drop,
    Nat.min_eq_left (by omega)]

/-- The end of what is loaded. -/
theorem load_drop (h : load mem pos n = some xs) {i : ℕ} (hi : i ≤ n) :
    load mem (pos + i) (n - i) = some (xs.drop i) := by
  have hlength := length_of_load h
  rw [load_part h (by omega), List.take_of_length_le (by rw [List.length_drop]; omega)]

/-! ## Storing -/

/-- What a store leaves, if it lies within the memory. -/
theorem store_eq_some : store mem pos xs = some mem' ↔
    pos + xs.length ≤ mem.length ∧ mem' = mem.take pos ++ xs ++ mem.drop (pos + xs.length) := by
  rw [store]
  split_ifs with h
  · simp [h, eq_comm]
  · simp [h]

/-- A store within the memory succeeds and keeps its size. -/
theorem exists_store (mem : List α) (pos : ℕ) (xs : List α) (h : pos + xs.length ≤ mem.length) :
    ∃ mem', store mem pos xs = some mem' ∧ mem'.length = mem.length := by
  refine ⟨_, store_eq_some.mpr ⟨h, rfl⟩, ?_⟩
  simp only [List.length_append, List.length_take, List.length_drop]
  omega

/-- What is stored behind a range makes it longer. -/
theorem load_store_append (hload : load mem pos n = some ys) (hstore : store mem (pos + n) xs = some mem') :
    load mem' pos (n + xs.length) = some (ys ++ xs) := by
  obtain ⟨hle, rfl⟩ := load_eq_some.mp hload
  obtain ⟨hfits, rfl⟩ := store_eq_some.mp hstore
  have hlength : (mem.take (pos + n) ++ xs).length = pos + n + xs.length := by
    rw [List.length_append, List.length_take]
    omega
  rw [load, if_pos (by simp only [List.length_append, List.length_drop] at hlength ⊢; omega),
    List.drop_append_of_le_length (by omega), List.take_append_of_le_length (by
      rw [List.length_drop]; omega), List.drop_append_of_le_length (by rw [List.length_take]; omega),
    List.take_of_length_le]
  · rw [List.drop_take]
    congr 3
    omega
  · simp only [List.length_append, List.length_drop, List.length_take]
    omega

/-- What has been stored is loaded. -/
theorem load_store_self (hstore : store mem pos xs = some mem') : load mem' pos xs.length = some xs := by
  have hle := (store_eq_some.mp hstore).1
  have hload := load_store_append (load_zero (show pos ≤ mem.length by omega)) hstore
  rwa [Nat.zero_add, List.nil_append] at hload

/-! ## Copying and resizing -/

/-- A copy between places that are apart brings what was loaded. -/
theorem exists_copy (dst : ℕ) {src : ℕ} (happart : dst + n ≤ src ∨ src + n ≤ dst)
    (hload : load mem src n = some xs) (hdst : dst + n ≤ mem.length) :
    ∃ mem', copy mem dst src n = some mem' ∧ mem'.length = mem.length ∧ load mem' dst n = some xs := by
  have hlength := length_of_load hload
  obtain ⟨mem', hstore, hlength'⟩ := exists_store mem dst xs (by omega)
  refine ⟨mem', ?_, hlength', ?_⟩
  · rw [copy, if_pos happart, hload, Option.bind_some, hstore]
  · rw [← hlength]
    exact load_store_self hstore

/-- The memory has the new size. -/
theorem length_resize (mem : List α) (n : ℕ) (fresh : ℕ → α) : (resize mem n fresh).length = n := by
  simp only [resize, List.length_append, List.length_take, List.length_map, List.length_range]
  omega

/-- A range up to the new size is kept. -/
theorem load_resize (h : load mem pos k = some xs) (hk : pos + k ≤ n) (fresh : ℕ → α) :
    load (resize mem n fresh) pos k = some xs := by
  obtain ⟨hle, rfl⟩ := load_eq_some.mp h
  rw [load, length_resize, if_pos hk, resize, List.drop_append_of_le_length (by rw [List.length_take]; omega),
    List.take_append_of_le_length (by rw [List.length_drop, List.length_take]; omega), List.drop_take,
    List.take_take, Nat.min_eq_left (by omega)]

end Block
