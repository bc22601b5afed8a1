import Mathlib.Data.List.Basic

-- A buffer of samples. The newest sample takes the place of the oldest one.
structure Samples (ν : Type) where
  width : Nat
  cells : List ν
  ptrs : List Nat
  layout : ptrs.Perm ((List.range ptrs.length).map (· * width))
  size : cells.length = ptrs.length * width
  ne_nil : ptrs ≠ []

namespace Samples

open List

variable {s : Samples ν}

section Overwrite

def overwrite (p : Nat) (vs l : List ν) : List ν :=
  l.mapIdx fun i v => if p ≤ i then vs.getD (i - p) v else v

variable {l vs : List ν}

@[simp]
theorem overwrite_length : (overwrite p vs l).length = l.length :=
  length_mapIdx

theorem overwrite_beyond (h : p + vs.length ≤ i) : (overwrite p vs l)[i]? = l[i]? := by
  have hl : vs.length ≤ i - p := by omega
  simp [overwrite, getElem?_eq_none hl]

theorem overwrite_at (h : i < vs.length) (hl : p + i < l.length) :
    (overwrite p vs l)[p + i]? = vs[i]? := by
  simp [overwrite, h, hl]

theorem overwrite_self (h : p + vs.length ≤ l.length) :
    ((overwrite p vs l).drop p).take vs.length = vs := by
  apply ext_getElem?
  intro i
  simp only [getElem?_take, getElem?_drop]
  split
  case isTrue hi => exact overwrite_at hi (by omega)
  case isFalse hi => exact (getElem?_eq_none (by omega)).symm

end Overwrite

theorem ptr_mul (h : p ∈ s.ptrs) : ∃ k, k < s.ptrs.length ∧ p = k * s.width := by
  obtain ⟨k, hk, rfl⟩ := mem_map.mp (s.layout.mem_iff.mp h)
  exact ⟨k, mem_range.mp hk, rfl⟩

theorem fits (h : p ∈ s.ptrs) : p + s.width ≤ s.cells.length := by
  obtain ⟨k, hk, rfl⟩ := ptr_mul h
  rw [s.size, ← Nat.succ_mul]
  exact Nat.mul_le_mul_right _ hk

def last (s : Samples ν) : Nat :=
  s.ptrs.getLast s.ne_nil

theorem rotate_perm (s : Samples ν) : (s.last :: s.ptrs.dropLast).Perm s.ptrs :=
  (perm_append_singleton _ _).symm.trans
    (.of_eq (dropLast_append_getLast s.ne_nil))

theorem rotate_layout (s : Samples ν) : (s.last :: s.ptrs.dropLast).Perm
    ((range (s.last :: s.ptrs.dropLast).length).map (· * s.width)) :=
  s.rotate_perm.length_eq ▸ s.rotate_perm.trans s.layout

def rotate (s : Samples ν) : Samples ν where
  width := s.width
  cells := s.cells
  ptrs := s.last :: s.ptrs.dropLast
  layout := s.rotate_layout
  size := s.rotate_perm.length_eq ▸ s.size
  ne_nil := List.cons_ne_nil _ _

def first (s : Samples ν) : Nat :=
  s.ptrs.head s.ne_nil

theorem first_mem : s.first ∈ s.ptrs :=
  head_mem _

def store (s : Samples ν) (vs : List ν) : Samples ν where
  width := s.width
  cells := overwrite s.first (vs.take s.width) s.cells
  ptrs := s.ptrs
  layout := s.layout
  size := overwrite_length.trans s.size
  ne_nil := s.ne_nil

def slice (s : Samples ν) (p : Nat) : List ν :=
  (s.cells.drop p).take s.width

def all (s : Samples ν) : List (List ν) :=
  s.ptrs.map s.slice

def now (s : Samples ν) : List ν :=
  s.slice s.first

theorem slice_length (h : p ∈ s.ptrs) : (s.slice p).length = s.width := by
  have := fits h
  simp only [slice, length_take, length_drop]
  omega

@[simp]
theorem now_length : s.now.length = s.width :=
  slice_length first_mem

@[simp]
theorem store_width : (s.store vs).width = s.width :=
  rfl

theorem store_now_of_lt (h : i < vs.length) (hi : i < s.width) :
    (s.store vs).now[i]? = vs[i]? := by
  have hf := fits s.first_mem
  have hl : i < (vs.take s.width).length := by
    rw [length_take]
    exact Nat.lt_min.mpr ⟨hi, h⟩
  have ha : s.first + i < s.cells.length := by omega
  have he := overwrite_at hl ha
  simp only [getElem?_take, hi] at he
  simp only [now, slice, store_width, getElem?_take, hi, getElem?_drop]
  exact he

theorem store_now_of_le (h : vs.length ≤ i) : (s.store vs).now[i]? = s.now[i]? := by
  simp only [now, slice, store_width, getElem?_take, getElem?_drop]
  split
  case isFalse => rfl
  case isTrue hi =>
    refine overwrite_beyond ?_
    have : (vs.take s.width).length ≤ vs.length := length_take_le' ..
    show s.first + _ ≤ s.first + i
    omega

theorem store_now (h : vs.length = s.width) : (s.store vs).now = vs := by
  have hf := fits s.first_mem
  have ht : vs.take s.width = vs := take_of_length_le (Nat.le_of_eq h)
  have hs : s.first + vs.length ≤ s.cells.length := by omega
  show ((overwrite s.first (vs.take s.width) s.cells).drop s.first).take s.width = vs
  rw [ht, ← h]
  exact overwrite_self hs

theorem single_layout : [0].Perm ((range [0].length).map (· * n)) :=
  .of_eq (by simp)

def single (vs : List ν) : Samples ν where
  width := vs.length
  cells := vs
  ptrs := [0]
  layout := single_layout
  size := (Nat.one_mul _).symm
  ne_nil := List.cons_ne_nil _ _

@[simp]
theorem single_now : (single vs).now = vs :=
  take_length

section Fresh

variable (width n : Nat) (v : ν)

theorem fresh_length : ((range (n + 1)).map (· * width)).length = n + 1 :=
  (length_map _).trans length_range

theorem fresh_layout : ((range (n + 1)).map (· * width)).Perm
    ((range ((range (n + 1)).map (· * width)).length).map (· * width)) :=
  .of_eq (by rw [fresh_length])

theorem fresh_size : (replicate ((n + 1) * width) v).length =
    ((range (n + 1)).map (· * width)).length * width := by
  rw [fresh_length, length_replicate]

theorem fresh_ne_nil : (range (n + 1)).map (· * width) ≠ [] :=
  ne_nil_of_length_eq_add_one (fresh_length width n)

def fresh : Samples ν where
  width := width
  cells := List.replicate ((n + 1) * width) v
  ptrs := (List.range (n + 1)).map (· * width)
  layout := fresh_layout width n
  size := fresh_size width n v
  ne_nil := fresh_ne_nil width n

end Fresh

end Samples
