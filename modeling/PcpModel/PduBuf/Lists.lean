import Mathlib.Data.List.Perm.Subperm
import PcpModel.PduBuf.Basic

open Linked List Function

namespace PduBuf

-- The parts of a cell that describe its memory. These are fixed when the cell is allocated.
structure Mem where
  buf : Int
  size : Int
  bufend : Int

def Bufctl.mem (b : Bufctl) : Mem where
  buf := b.bcBuf
  size := b.bcSize
  bufend := b.bcBufend

namespace Cells

def mem (c : Cells) (r : Ref) : Mem :=
  (c r).mem

def pincnt (c : Cells) (r : Ref) : Int :=
  (c r).bcPincnt

variable {c : Cells} {r : Ref} {o : Option Ref} {n : Int}

@[simp]
theorem setNext_next : (c.setNext r o).next = update c.next r o :=
  comp_update Bufctl.bcNext ..

@[simp]
theorem setNext_pincnt : (c.setNext r o).pincnt = c.pincnt :=
  comp_update Bufctl.bcPincnt .. |>.trans <| update_eq_self r c.pincnt

@[simp]
theorem setNext_mem : (c.setNext r o).mem = c.mem :=
  comp_update Bufctl.mem .. |>.trans <| update_eq_self r c.mem

@[simp]
theorem setPincnt_next : (c.setPincnt r n).next = c.next :=
  comp_update Bufctl.bcNext .. |>.trans <| update_eq_self r c.next

@[simp]
theorem setPincnt_pincnt : (c.setPincnt r n).pincnt = update c.pincnt r n :=
  comp_update Bufctl.bcPincnt ..

@[simp]
theorem setPincnt_mem : (c.setPincnt r n).mem = c.mem :=
  comp_update Bufctl.mem .. |>.trans <| update_eq_self r c.mem

end Cells

namespace Pool

-- The cells of the pool, split into those of the free list and those of the list of pinned buffers.
structure Lists (p : Pool) (fs ps : List Ref) : Prop where
  free : IsList p.ctl.next p.bufFree fs
  pin : IsList p.ctl.next p.bufPin ps
  tail : p.bufPinTail = ps.getLast?
  nodup : (fs ++ ps).Nodup
  mem_iff : ∀ r, r ∈ fs ++ ps ↔ r < p.nctl

variable {p p' : Pool} {r : Ref} {o : Option Ref} {n : Int} {fs ps fs₁ fs₂ ps₁ ps₂ : List Ref}

theorem find_cases (h : IsList p.ctl.next o rs) (hl : rs.length ≤ p.nctl) (found : Bufctl → Bool) :
    (∃ rs₁ r rs₂, rs = rs₁ ++ r :: rs₂ ∧ found (p.ctl r) ∧
      p.find o found = some (rs₁.getLast?, some r)) ∨
    ((∀ r ∈ rs, found (p.ctl r) = false) ∧ ∃ q, p.find o found = some (q, none)) := by
  cases search_cases (found <| p.ctl ·) h (Nat.lt_succ_of_le hl)
  case inl h => have ⟨rs₁, r, rs₂, he, hr, _, hs⟩ := h; exact .inl ⟨rs₁, r, rs₂, he, hr, hs⟩
  case inr h => exact .inr h

namespace Lists

theorem init : Pool.init.Lists [] [] where
  free := rfl
  pin := rfl
  tail := rfl
  nodup := nodup_nil
  mem_iff := by simp [Pool.init]

theorem length_le (h : p.Lists fs ps) : fs.length + ps.length ≤ p.nctl := by
  have hs : fs ++ ps ⊆ range p.nctl := fun r hr => mem_range.mpr <| h.mem_iff r |>.mp hr
  simpa using h.nodup.subperm hs |>.length_le

theorem find_free_cases (h : p.Lists fs ps) (found : Bufctl → Bool) :
    (∃ fs₁ r fs₂, fs = fs₁ ++ r :: fs₂ ∧ found (p.ctl r) ∧
      p.find p.bufFree found = some (fs₁.getLast?, some r)) ∨
    ((∀ r ∈ fs, found (p.ctl r) = false) ∧ ∃ q, p.find p.bufFree found = some (q, none)) :=
  find_cases h.free (by have := h.length_le; omega) found

theorem find_pin_cases (h : p.Lists fs ps) (found : Bufctl → Bool) :
    (∃ ps₁ r ps₂, ps = ps₁ ++ r :: ps₂ ∧ found (p.ctl r) ∧
      p.find p.bufPin found = some (ps₁.getLast?, some r)) ∨
    ((∀ r ∈ ps, found (p.ctl r) = false) ∧ ∃ q, p.find p.bufPin found = some (q, none)) :=
  find_cases h.pin (by have := h.length_le; omega) found

theorem setPincnt (h : p.Lists fs ps) : (p.setPincnt r n).Lists fs ps where
  free := by simpa [Pool.setPincnt] using h.free
  pin := by simpa [Pool.setPincnt] using h.pin
  tail := h.tail
  nodup := h.nodup
  mem_iff := h.mem_iff

-- Taking a cell out of one list leaves the other list as it is, since they share no cell.
theorem unlink
    (h : IsList p.ctl.next o (rs₁ ++ r :: rs₂)) (h' : IsList p.ctl.next o' l)
    (hd : ∀ r ∈ rs₁, r ∉ l) :
    IsList (Pool.unlink p.ctl rs₁.getLast? r).next
      (if rs₁.getLast? = none then p.ctl.next r else o) (rs₁ ++ rs₂) ∧
    IsList (Pool.unlink p.ctl rs₁.getLast? r).next o' l := by
  rcases rs₁.eq_nil_or_concat' with rfl | ⟨rs₁, m, rfl⟩
  case inl => exact ⟨by simpa [Pool.unlink] using h.right, h'⟩
  case inr =>
    have hm : m ∉ l := hd m (by simp)
    have h : IsList p.ctl.next o (rs₁ ++ m :: r :: rs₂) := by simpa using h
    simp only [Pool.unlink, getLast?_concat, Cells.setNext_next]
    exact ⟨by simpa using h.unlink, h'.update_of_notMem hm _⟩

theorem linkPin
    (hf : IsList p.ctl.next p.bufFree fs) (hp : IsList p.ctl.next p.bufPin ps)
    (ht : p.bufPinTail = ps.getLast?) (hd : (fs ++ ps).Nodup) (hrf : r ∉ fs) (hrp : r ∉ ps) :
    let p' := p.linkPin r
    IsList p'.ctl.next p'.bufFree fs ∧ IsList p'.ctl.next p'.bufPin (ps ++ [r]) := by
  have hf := hf.update_of_notMem hrf none
  have hp := hp.update_of_notMem hrp none
  rcases ps.eq_nil_or_concat' with rfl | ⟨ps, m, rfl⟩
  case inl =>
    have hn : p.bufPin = none := hp
    simp only [Pool.linkPin, ht, hn, getLast?_nil, Cells.setNext_next]
    exact ⟨hf, by simp⟩
  case inr =>
    have hm : m ∉ fs := fun hm => disjoint_of_nodup_append hd hm (by simp)
    have hh : (p.bufPin <|> some r) = p.bufPin := by
      rw [IsList.head_eq hp]
      cases ps <;> rfl
    simp only [Pool.linkPin, ht, hh, getLast?_concat, Cells.setNext_next]
    refine ⟨hf.update_of_notMem hm _, ?_⟩
    simpa using IsList.append_cell hp hrp (update_self ..)

theorem movePin (h : p.Lists (fs₁ ++ r :: fs₂) ps) :
    (p.unlinkFree fs₁.getLast? r |>.linkPin r).Lists (fs₁ ++ fs₂) (ps ++ [r]) := by
  have he : (fs₁ ++ fs₂ ++ (ps ++ [r])).Perm (fs₁ ++ r :: fs₂ ++ ps) := by
    simp only [perm_iff_count, count_append, count_cons, count_nil]
    omega
  have hd := he.nodup_iff.mpr h.nodup
  have ⟨hd', _, hr⟩ := nodup_append.mp (append_assoc (fs₁ ++ fs₂) .. ▸ hd)
  replace hr : r ∉ fs₁ ++ fs₂ ++ ps := fun hm => hr r hm r (by simp) rfl
  rw [mem_append, not_or] at hr
  have hu := unlink h.free h.pin fun r hf hp =>
    disjoint_of_nodup_append hd' (mem_append_left _ hf) hp
  have hl := linkPin (p := p.unlinkFree ..) hu.left hu.right h.tail hd' hr.left hr.right
  exact {
    free := hl.left
    pin := hl.right
    tail := by simp [Pool.linkPin]
    nodup := hd
    mem_iff := fun r' => by rw [he.mem_iff, h.mem_iff]; rfl
  }

theorem unlinkPin_tail (h : p.Lists fs (ps₁ ++ r :: ps₂)) :
    (p.unlinkPin ps₁.getLast? r).bufPinTail = (ps₁ ++ ps₂).getLast? := by
  simp only [Pool.unlinkPin, h.tail]
  rcases ps₂.eq_nil_or_concat' with rfl | ⟨ps₂, m, rfl⟩
  case inl => simp
  case inr =>
    have hd := IsList.nodup h.pin |>.of_append_right
    have hm : m ≠ r := by rintro rfl; simp at hd
    have hl : (ps₁ ++ r :: (ps₂ ++ [m])).getLast? = some m := by
      rw [← cons_append, ← append_assoc, getLast?_concat]
    simp [hl, hm]

theorem moveFree (h : p.Lists fs (ps₁ ++ r :: ps₂)) :
    (p.unlinkPin ps₁.getLast? r |>.linkFree r).Lists (r :: fs) (ps₁ ++ ps₂) := by
  have he : (r :: (fs ++ (ps₁ ++ ps₂))).Perm (fs ++ (ps₁ ++ r :: ps₂)) := by
    simp only [perm_iff_count, count_append, count_cons]
    omega
  have hd := he.nodup_iff.mpr h.nodup
  have ⟨hr, hd'⟩ := nodup_cons.mp hd
  rw [mem_append, not_or] at hr
  have hu := unlink h.pin h.free fun r hp hf =>
    disjoint_of_nodup_append hd' hf (mem_append_left _ hp)
  exact {
    free := ⟨rfl, by
      simpa [Pool.linkFree, Pool.unlinkPin] using hu.right.update_of_notMem hr.left _⟩
    pin := by simpa [Pool.linkFree, Pool.unlinkPin] using hu.left.update_of_notMem hr.right _
    tail := h.unlinkPin_tail
    nodup := hd
    mem_iff := fun r' => by rw [cons_append, he.mem_iff, h.mem_iff]; rfl
  }

theorem alloc (h : p.Lists fs ps) : (p.alloc size a).Lists (p.nctl :: fs) ps := by
  have hn : p.nctl ∉ fs ++ ps := by simp [h.mem_iff]
  have he : (p.alloc size a).ctl.next = update p.ctl.next p.nctl p.bufFree :=
    comp_update Bufctl.bcNext ..
  have hd := nodup_cons.mpr ⟨hn, h.nodup⟩
  rw [mem_append, not_or] at hn
  refine { free := ⟨rfl, ?_⟩, pin := ?_, tail := h.tail, nodup := hd, mem_iff := fun r => ?_ }
  · simpa [he] using h.free.update_of_notMem hn.left _
  · exact he ▸ h.pin.update_of_notMem hn.right _
  · rw [cons_append, mem_cons, h.mem_iff, or_comm]
    exact Nat.lt_succ_iff_lt_or_eq.symm

end Lists

-- The moves between the lists change nothing but links.
@[simp]
theorem unlink_mem : (unlink c o r).mem = c.mem := by
  cases o <;> simp [unlink]

@[simp]
theorem unlink_pincnt : (unlink c o r).pincnt = c.pincnt := by
  cases o <;> simp [unlink]

@[simp]
theorem linkPin_mem : (p.linkPin r).ctl.mem = p.ctl.mem := by
  simp only [linkPin]
  split <;> simp

@[simp]
theorem linkPin_pincnt : (p.linkPin r).ctl.pincnt = p.ctl.pincnt := by
  simp only [linkPin]
  split <;> simp

end Pool

end PduBuf
